import KeonOS.Ext4.Model

/-!
# Files and directories of the ext4 driver

`Ext4File` and `Ext4Directory`: each object keeps its own copy of the inode. The caller is always root,
so the permission checks pass.

* **`Ext4.read`**, **`Ext4.write`**: the bytes of a file;
* `Ext4Op`, **`Ext4.run`**: a sequence of calls.
-/

namespace KeonOS

structure Ext4Node where
  isDir : Bool
  ino : ℕ
  inode : Mem
  size : ℕ

def Ext4Node.afterWrite (f : Ext4Node) (inode : Mem) (stop : ℕ) : Ext4Node :=
  if f.size < stop then { f with size := stop, inode := inode.writeLE iSizeLo 4 stop }
  else { f with inode := inode }

def inodeSizeOf (inode : Mem) : ℕ :=
  (inode.readLE iSizeLo 4 + 2 ^ 32 * inode.readLE iSizeHigh 4) % 2 ^ 32

/-- `(i_mode & 0xF000) == EXT4_S_IFDIR` -/
def isDirectoryMode (inode : Mem) : Bool := inode.readLE iMode 2 &&& 0xF000 = 0x4000

/-! ## Directory entries -/

/-- The fields of the entry at `p`. -/
def deInode (m : Mem) (p : ℕ) : ℕ := m.readLE p 4
def deRecLen (m : Mem) (p : ℕ) : ℕ := m.readLE (p + 4) 2
def deNameLen (m : Mem) (p : ℕ) : ℕ := m.readLE (p + 6) 1

abbrev ftRegFile : ℕ := 1
abbrev ftDir : ℕ := 2

structure Ext4Dirent where
  name : List UInt8
  inode : ℕ
  isDir : Bool
deriving DecidableEq, Repr

def direntAt (m : Mem) (p : ℕ) : Ext4Dirent where
  name := m.bytesAt (p + 8) (deNameLen m p)
  inode := deInode m p
  isDir := m.readLE (p + 7) 1 = ftDir

/-- The length of an entry with a name of `n` bytes. -/
def entryLen (n : ℕ) : ℕ := if (8 + n) % 4 ≠ 0 then 8 + n + (4 - (8 + n) % 4) else 8 + n

def entryMatches (m : Mem) (p : ℕ) (name : List UInt8) : Bool :=
  deInode m p ≠ 0 ∧ name.length = deNameLen m p ∧ m.bytesAt (p + 8) name.length = name

def putEntry (m : Mem) (p inode recLen nameLen fileType : ℕ) : Mem :=
  (((m.writeLE p 4 inode).writeLE (p + 4) 2 recLen).writeLE (p + 6) 1 nameLen).writeLE (p + 7) 1 fileType

/-- The inner loop of `finddir`: the inode of the name, or the offset after the block. -/
def scanBlock (m : Mem) (bs : ℕ) (name : List UInt8) : ℕ → ℕ → ℕ → ℕ ⊕ ℕ
  | 0, _, offset => .inr offset
  | fuel + 1, ptr, offset =>
    if bs ≤ ptr then .inr offset
    else if entryMatches m ptr name then .inl (deInode m ptr)
    else if deRecLen m ptr = 0 then .inr offset
    else scanBlock m bs name fuel (ptr + deRecLen m ptr) ((offset + deRecLen m ptr) % 2 ^ 32)

/-- The inner loop of `find_free_entry_space`. -/
def scanSpace (m : Mem) (bs required : ℕ) : ℕ → ℕ → Option ℕ
  | 0, _ => none
  | fuel + 1, ptr =>
    if bs ≤ ptr then none
    else if deRecLen m ptr = 0 then none
    else if entryLen (deNameLen m ptr) + required ≤ deRecLen m ptr then some ptr
    else scanSpace m bs required fuel (ptr + deRecLen m ptr)

/-- The inner loop of `unlink`: the entry with the name, and the one before it. -/
def scanEntry (m : Mem) (bs : ℕ) (name : List UInt8) : ℕ → ℕ → Option ℕ → Option (ℕ × Option ℕ)
  | 0, _, _ => none
  | fuel + 1, ptr, prev =>
    if bs ≤ ptr then none
    else if entryMatches m ptr name then some (ptr, prev)
    else if deRecLen m ptr = 0 then none
    else scanEntry m bs name fuel (ptr + deRecLen m ptr) (some ptr)

/-- The inner loop of `readdir`: the entry number `index`, or the offset and number after the block. -/
def scanIndex (m : Mem) (bs size index : ℕ) : ℕ → ℕ → ℕ → ℕ → ℕ ⊕ ℕ × ℕ
  | 0, _, offset, current => .inr (offset, current)
  | fuel + 1, ptr, offset, current =>
    if bs ≤ ptr ∨ size ≤ offset then .inr (offset, current)
    else if deInode m ptr ≠ 0 ∧ current = index then .inl ptr
    else
      let current := if deInode m ptr ≠ 0 then (current + 1) % 2 ^ 32 else current
      if deRecLen m ptr = 0 then .inr ((offset + bs) % 2 ^ 32, current)
      else
        scanIndex m bs size index fuel (ptr + deRecLen m ptr) ((offset + deRecLen m ptr) % 2 ^ 32)
          current

/-- The block with the entry for `name` added after the one at `p`, which has room for it. -/
def insertEntry (m : Mem) (p inode fileType : ℕ) (name : List UInt8) : Mem :=
  let used := entryLen (deNameLen m p)
  let m₁ := m.writeLE (p + 4) 2 used
  (putEntry m₁ (p + used) inode (deRecLen m p - used) (name.length % 256) fileType).copy
    (p + used + 8) (name.length % 256) (Mem.ofBytes name)

/-- The block without the entry at `p`. -/
def removeEntry (m : Mem) (p : ℕ) : Option ℕ → Mem
  | some prev => m.writeLE (prev + 4) 2 (deRecLen m prev + deRecLen m p)
  | none => m.writeLE p 4 0

/-! ## New inodes -/

/-- A zeroed inode with the fields that `create` and `mkdir` set. -/
def newInode (mode links size : ℕ) (block : Option ℕ) : Mem :=
  let inode := ((((((Mem.writeLE (fun _ => 0) iMode 2 mode).writeLE iLinksCount 2 links).writeLE
    iSizeLo 4 size).writeLE iFlags 4 0x00080000).writeLE iBlock 2 extentMagic).writeLE (iBlock + 4) 2 4)
  match block with
  | none => inode
  | some b => Ext4.addExtent inode 0 1 b

def newDirBlock (bs ino parent : ℕ) : Mem :=
  let m := putEntry (fun _ => 0) 0 ino 12 1 ftDir
  ((putEntry (m.writeLE 8 1 0x2E) 12 parent (bs - 12) 2 ftDir).writeLE 20 1 0x2E).writeLE 21 1 0x2E

namespace Ext4

variable (fs : Ext4)

/-- The constructors of `Ext4File` and `Ext4Directory` -/
def openNode (isDir : Bool) (ino : ℕ) : Ext4M Ext4Node := do
  let inode ← fs.readInode ino
  pure { isDir := isDir, ino := ino, inode := inode, size := inodeSizeOf inode }

/-! ## Files -/

/-- The bytes `[a, a + n)` of a block; a hole reads as zeros. -/
def readPiece (physical a n : ℕ) : Ext4M (List UInt8) :=
  if physical = 0 then pure (List.replicate n 0)
  else do
    let buffer ← fs.readBlock physical
    pure (buffer.bytesAt a n)

/-- The loop of `Ext4File::read`, with `done` of `size` bytes read. -/
def readLoop (inode : Mem) (offset size : ℕ) : ℕ → ℕ → Ext4M (List UInt8)
  | 0, _ => .stuck
  | fuel + 1, done =>
    if size ≤ done then pure []
    else do
      let current := (offset + done) % 2 ^ 32
      let physical ← fs.extentGetBlock inode (current / fs.blockSize)
      let toRead := min (fs.blockSize - current % fs.blockSize) (size - done)
      let chunk ← fs.readPiece physical (current % fs.blockSize) toRead
      let rest ← readLoop inode offset size fuel (done + toRead)
      pure (chunk ++ rest)

/-- `Ext4File::read` -/
def read (f : Ext4Node) (offset size : ℕ) : Ext4M (List UInt8) :=
  if f.size ≤ offset then pure []
  else
    let size := if f.size < (offset + size) % 2 ^ 32 then f.size - offset else size
    fs.readLoop f.inode offset size (size + 1) 0

/-- The block for `logical`, which is allocated when there is none; zero when that fails. -/
def mapBlock (inode : Mem) (logical : ℕ) : Ext4M (ℕ × Mem) := do
  let physical ← fs.extentGetBlock inode logical
  if physical ≠ 0 then pure (physical, inode)
  else do
    let r ← fs.extentAllocateBlocks inode logical 1
    if r.1 then do
      let physical ← fs.extentGetBlock r.2 logical
      pure (physical, r.2)
    else pure (0, r.2)

/-- Write `n` bytes of `data` at `a` of a block, which is read before unless all of it is written. -/
def writePiece (physical a n : ℕ) (data : Mem) : Ext4M Unit :=
  if n < fs.blockSize then do
    let buffer ← fs.readBlock physical
    journalWriteBlock physical (buffer.copy a n data)
  else journalWriteBlock physical (Mem.copy (fun _ => 0) a n data)

/-- The loop of `Ext4File::write`, with `done` bytes written: the bytes written and the inode. -/
def writeLoop (offset : ℕ) (data : List UInt8) : ℕ → ℕ → Mem → Ext4M (ℕ × Mem)
  | 0, _, _ => .stuck
  | fuel + 1, done, inode =>
    if data.length ≤ done then pure (done, inode)
    else do
      let current := (offset + done) % 2 ^ 32
      let r ← fs.mapBlock inode (current / fs.blockSize)
      if r.1 = 0 then pure (done, r.2)
      else do
        let toWrite := min (fs.blockSize - current % fs.blockSize) (data.length - done)
        fs.writePiece r.1 (current % fs.blockSize) toWrite (Mem.ofBytes (data.drop done))
        writeLoop offset data fuel (done + toWrite) r.2

/-- `Ext4File::write`: the bytes written and the file. -/
def write (f : Ext4Node) (offset : ℕ) (data : List UInt8) : Ext4M (ℕ × Ext4Node) := do
  let r ← fs.writeLoop offset data (data.length + 1) 0 f.inode
  let f' := f.afterWrite r.2 ((offset + r.1) % 2 ^ 32)
  fs.writeInode f'.ino f'.inode
  pure (r.1, f')

/-! ## Directories -/

/-- The outer loop of `finddir`. The loop does not end when a block makes no progress. -/
def finddirLoop (dir : Ext4Node) (name : List UInt8) : ℕ → ℕ → Ext4M (Option ℕ)
  | 0, _ => .stuck
  | fuel + 1, offset =>
    if dir.size ≤ offset then pure none
    else do
      let physical ← fs.extentGetBlock dir.inode (offset / fs.blockSize)
      if physical = 0 then finddirLoop dir name fuel ((offset + fs.blockSize) % 2 ^ 32)
      else do
        let buffer ← fs.readBlock physical
        match scanBlock buffer fs.blockSize name fs.blockSize 0 offset with
        | .inl ino => pure (some ino)
        | .inr offset => finddirLoop dir name fuel offset

/-- `Ext4Directory::finddir` -/
def finddir (dir : Ext4Node) (name : List UInt8) : Ext4M (Option Ext4Node) := do
  match ← fs.finddirLoop dir name (dir.size + 1) 0 with
  | none => pure none
  | some ino =>
    let inode ← fs.readInode ino
    some <$> fs.openNode (isDirectoryMode inode) ino

def readdirLoop (dir : Ext4Node) (index : ℕ) : ℕ → ℕ → ℕ → Ext4M (Option Ext4Dirent)
  | 0, _, _ => .stuck
  | fuel + 1, offset, current =>
    if dir.size ≤ offset then pure none
    else do
      let physical ← fs.extentGetBlock dir.inode (offset / fs.blockSize)
      if physical = 0 then
        readdirLoop dir index fuel ((offset + (fs.blockSize - offset % fs.blockSize)) % 2 ^ 32) current
      else do
        let buffer ← fs.readBlock physical
        match scanIndex buffer fs.blockSize dir.size index fs.blockSize (offset % fs.blockSize) offset
            current with
        | .inl p => pure (some (direntAt buffer p))
        | .inr (offset, current) => readdirLoop dir index fuel offset current

/-- `Ext4Directory::readdir`. With so many iterations, the loop has come back to a state. -/
def readdir (dir : Ext4Node) (index : ℕ) : Ext4M (Option Ext4Dirent) :=
  fs.readdirLoop dir index (dir.size * 2 ^ 32 + 1) 0 0

def findFreeEntrySpace (dir : Ext4Node) (required : ℕ) : ℕ → ℕ → Ext4M (Option (ℕ × ℕ))
  | 0, _ => .stuck
  | fuel + 1, offset =>
    if dir.size ≤ offset then pure none
    else do
      let physical ← fs.extentGetBlock dir.inode (offset / fs.blockSize)
      if physical = 0 then
        findFreeEntrySpace dir required fuel ((offset + fs.blockSize) % 2 ^ 32)
      else do
        let buffer ← fs.readBlock physical
        match scanSpace buffer fs.blockSize required fs.blockSize 0 with
        | some p => pure (some (physical, p))
        | none => findFreeEntrySpace dir required fuel ((offset + fs.blockSize) % 2 ^ 32)

def addEntry (place : ℕ × ℕ) (ino fileType : ℕ) (name : List UInt8) : Ext4M Unit := do
  let buffer ← fs.readBlock place.1
  journalWriteBlock place.1 (insertEntry buffer place.2 ino fileType name)

/-- `Ext4Directory::create` -/
def create (dir : Ext4Node) (name : List UInt8) : Ext4M (Option Ext4Node) := do
  match ← fs.findFreeEntrySpace dir (entryLen (name.length % 256)) (dir.size + 1) 0 with
  | none => pure none
  | some place =>
    let ino ← fs.allocateInode false
    if ino = 0 then pure none
    else do
      fs.writeInode ino (newInode 0x81A4 1 0 none)
      fs.addEntry place ino ftRegFile name
      BlockM.commitLog
      some <$> fs.openNode false ino

/-- `Ext4Directory::mkdir`: whether it succeeded, and the directory. -/
def mkdir (dir : Ext4Node) (name : List UInt8) : Ext4M (Bool × Ext4Node) := do
  let ino ← fs.allocateInode true
  if ino = 0 then pure (false, dir)
  else do
    let block ← fs.allocateBlock
    if block = 0 then pure (false, dir)
    else do
      fs.writeInode ino (newInode 0x41ED 2 fs.blockSize (some block))
      writeBlock block (newDirBlock fs.blockSize ino dir.ino)
      -- a directory without room is left as it is
      match ← fs.findFreeEntrySpace dir (entryLen (name.length % 256)) (dir.size + 1) 0 with
      | none => pure ()
      | some place => fs.addEntry place ino ftDir name
      let dir := { dir with
        inode := dir.inode.writeLE iLinksCount 2 (dir.inode.readLE iLinksCount 2 + 1) }
      fs.writeInode dir.ino dir.inode
      BlockM.commitLog
      pure (true, dir)

/-- The loop of `unlink`: the inode of the entry that was removed. -/
def unlinkLoop (dir : Ext4Node) (name : List UInt8) : ℕ → ℕ → Ext4M (Option ℕ)
  | 0, _ => .stuck
  | fuel + 1, offset =>
    if dir.size ≤ offset then pure none
    else do
      let physical ← fs.extentGetBlock dir.inode (offset / fs.blockSize)
      if physical = 0 then unlinkLoop dir name fuel ((offset + fs.blockSize) % 2 ^ 32)
      else do
        let buffer ← fs.readBlock physical
        match scanEntry buffer fs.blockSize name fs.blockSize 0 none with
        | some (p, prev) =>
          journalWriteBlock physical (removeEntry buffer p prev)
          pure (some (deInode buffer p))
        | none => unlinkLoop dir name fuel ((offset + fs.blockSize) % 2 ^ 32)

/-- One link less, in the 16 bits of `i_links_count`. -/
def dropLink (inode : Mem) : Mem :=
  inode.writeLE iLinksCount 2 (inode.readLE iLinksCount 2 + (2 ^ 16 - 1))

/-- `Ext4Directory::unlink`: whether it succeeded, and the directory. -/
def unlink (dir : Ext4Node) (name : List UInt8) : Ext4M (Bool × Ext4Node) := do
  match ← fs.unlinkLoop dir name (dir.size + 1) 0 with
  | none => pure (false, dir)
  | some ino =>
    let target ← fs.readInode ino
    if 0 < target.readLE iLinksCount 2 then fs.writeInode ino (dropLink target) else pure ()
    if isDirectoryMode target then do
      let dir := { dir with inode := dropLink dir.inode }
      fs.writeInode dir.ino dir.inode
      BlockM.commitLog
      pure (true, dir)
    else do
      BlockM.commitLog
      pure (true, dir)

end Ext4

/-! ## Calls -/

/-- A call on the object number `h`. -/
inductive Ext4Op
  | finddir (h : ℕ) (name : List UInt8)
  | create (h : ℕ) (name : List UInt8)
  | mkdir (h : ℕ) (name : List UInt8)
  | unlink (h : ℕ) (name : List UInt8)
  | read (h offset size : ℕ)
  | write (h offset : ℕ) (data : List UInt8)

inductive Ext4Result
  | status (ok : Bool)
  | bytes (l : List UInt8)
  | count (n : ℕ)
deriving DecidableEq, Repr

namespace Ext4

variable (fs : Ext4)

/-- The objects after a call that may have made one. -/
def keepNode (nodes : List Ext4Node) : Option Ext4Node → Ext4Result × List Ext4Node
  | none => (.status false, nodes)
  | some n => (.status true, nodes ++ [n])

/-- A call on a file or a directory; an object that has no such method returns `other`. -/
def onNode (nodes : List Ext4Node) (h : ℕ) (isDir : Bool) (other : Ext4Result)
    (f : Ext4Node → Ext4M (Ext4Result × List Ext4Node)) : Ext4M (Ext4Result × List Ext4Node) :=
  match nodes[h]? with
  | some n => if n.isDir = isDir then f n else pure (other, nodes)
  | none => pure (other, nodes)

def call (op : Ext4Op) (nodes : List Ext4Node) : Ext4M (Ext4Result × List Ext4Node) :=
  match op with
  | .finddir h name =>
    onNode nodes h true (.status false) fun dir => keepNode nodes <$> fs.finddir dir name
  | .create h name =>
    onNode nodes h true (.status false) fun dir => keepNode nodes <$> fs.create dir name
  | .mkdir h name =>
    onNode nodes h true (.status false) fun dir =>
      (fun r => (.status r.1, nodes.set h r.2)) <$> fs.mkdir dir name
  | .unlink h name =>
    onNode nodes h true (.status false) fun dir =>
      (fun r => (.status r.1, nodes.set h r.2)) <$> fs.unlink dir name
  | .read h offset size =>
    onNode nodes h false (.bytes []) fun f =>
      (fun l => (.bytes l, nodes)) <$> fs.read f offset size
  | .write h offset data =>
    onNode nodes h false (.count 0) fun f =>
      (fun r => (.count r.1, nodes.set h r.2)) <$> fs.write f offset data

def run : List Ext4Op → List Ext4Node → Ext4M (List Ext4Result × List Ext4Node)
  | [], nodes => pure ([], nodes)
  | op :: ops, nodes => do
    let (r, nodes) ← fs.call op nodes
    let (rs, nodes) ← run ops nodes
    pure (r :: rs, nodes)

end Ext4

end KeonOS
