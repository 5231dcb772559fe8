import KeonOS.Fat.Names
import KeonOS.Lib.Bytes

/-!
# The FAT32 driver

The methods of `FAT32Manager`, `FAT32_File` and `FAT32_Directory` in `fat32_vfs.cpp`, as functions on the
sectors of the disk.

* **`Fat32.writeFile`**, **`Fat32.readFile`**: files;
* **`Fat32.finddir`**, **`Fat32.unlink`**, `Fat32.create`, `Fat32.mkdir`: directories.

Numbers are `uint32_t`, whose arithmetic wraps. The loops along a chain of clusters have a bound on their
iterations and no result when they reach it; the loop that looks for a free entry changes the disk, so that
the disk is returned then, too. The disk stores what it is given.
-/

namespace KeonOS

/-! ## The disk -/

/-- The disk, with the sectors written and the results of `allocate_cluster`, the last ones first. -/
structure FatDisk where
  sector : ℕ → Mem
  written : List ℕ
  allocated : List ℕ

namespace FatDisk

/-- `ATADriver::read_sectors(lba, count, buffer)` -/
def read (d : FatDisk) (lba count : ℕ) : Mem := fun x =>
  if x < count * 512 then d.sector (lba + x / 512) (x % 512) else 0

/-- `ATADriver::write_sectors(lba, count, buffer)` -/
def write (d : FatDisk) (lba count : ℕ) (buffer : Mem) : FatDisk :=
  { d with
    sector := fun l =>
      if lba ≤ l ∧ l < lba + count then buffer.slice ((l - lba) * 512) 512 else d.sector l
    written := (List.range count).map (lba + ·) ++ d.written }

/-- `allocate_cluster` has returned `k`. -/
def took (d : FatDisk) (k : ℕ) : FatDisk := { d with allocated := k :: d.allocated }

def fresh (d : FatDisk) : FatDisk := { d with written := [], allocated := [] }

variable {d d' : FatDisk} {l x : ℕ}

theorem read_one (hx : x < 512) : d.read l 1 x = d.sector l x := by
  rw [read, if_pos (by omega), Nat.div_eq_of_lt hx, Nat.mod_eq_of_lt hx, Nat.add_zero]

variable {lba count : ℕ} {buffer : Mem}

theorem sector_write : (d.write lba count buffer).sector l =
      if lba ≤ l ∧ l < lba + count then buffer.slice ((l - lba) * 512) 512 else d.sector l := rfl

theorem sector_write_one :
    (d.write lba 1 buffer).sector l = if l = lba then buffer.slice 0 512 else d.sector l := by
  rw [sector_write]
  by_cases h : l = lba
  · rw [if_pos (by omega), if_pos h, h, Nat.sub_self, Nat.zero_mul]
  · rw [if_neg (by omega), if_neg h]

theorem written_write :
    (d.write lba count buffer).written = (List.range count).map (lba + ·) ++ d.written := rfl

theorem mem_written_write (h : l ∈ (d.write lba count buffer).written) :
    l ∈ d.written ∨ lba ≤ l ∧ l < lba + count := by
  rcases List.mem_append.mp (written_write ▸ h) with h | h
  · obtain ⟨i, hi, rfl⟩ := List.mem_map.mp h
    exact .inr ⟨Nat.le_add_right .., by simpa using hi⟩
  · exact .inl h

@[simp]
theorem allocated_write : (d.write lba count buffer).allocated = d.allocated := rfl

@[simp]
theorem allocated_took (k : ℕ) : (d.took k).allocated = k :: d.allocated := rfl

end FatDisk

-- a write is only seen through the lemmas above
attribute [irreducible] FatDisk.write

structure Fat32 where
  partitionLba : ℕ
  reservedSectorCount : ℕ
  tableCount : ℕ
  tableSize32 : ℕ
  sectorsPerCluster : ℕ
  rootCluster : ℕ
deriving DecidableEq, Repr

abbrev endMark : ℕ := 0x0FFFFFF8

namespace Fat32

variable (fs : Fat32)

def fatLba : ℕ := fs.partitionLba + fs.reservedSectorCount

def dataLba : ℕ := fs.fatLba + fs.tableCount * fs.tableSize32

def entries : ℕ := fs.tableSize32 * 128

def clusterSize : ℕ := fs.sectorsPerCluster * 512

def clusterToLba (cluster : ℕ) : ℕ :=
  (fs.dataLba + (cluster + (2 ^ 32 - 2)) % 2 ^ 32 * fs.sectorsPerCluster) % 2 ^ 32

/-! ## The table -/

def fatSector (cluster : ℕ) : ℕ := (fs.fatLba + cluster * 4 % 2 ^ 32 / 512) % 2 ^ 32

def fatOffset (cluster : ℕ) : ℕ := cluster * 4 % 2 ^ 32 % 512

def getNextCluster (d : FatDisk) (cluster : ℕ) : ℕ :=
  (d.read (fs.fatSector cluster) 1).readLE (fatOffset cluster) 4 % 2 ^ 28

theorem getNextCluster_of_sector {d d' : FatDisk} (h : d'.sector = d.sector) :
    fs.getNextCluster d' = fs.getNextCluster d := by
  have hread : d'.read = d.read := by
    funext lba count x
    rw [FatDisk.read, FatDisk.read, h]
  funext cluster
  rw [getNextCluster, getNextCluster, hread]

@[simp]
theorem getNextCluster_took (d : FatDisk) (k : ℕ) :
    fs.getNextCluster (d.took k) = fs.getNextCluster d := fs.getNextCluster_of_sector rfl

@[simp]
theorem getNextCluster_fresh (d : FatDisk) : fs.getNextCluster d.fresh = fs.getNextCluster d :=
  fs.getNextCluster_of_sector rfl

def setEntry (d : FatDisk) (cluster value : ℕ) : FatDisk := d.write (fs.fatSector cluster) 1
    ((d.read (fs.fatSector cluster) 1).writeLE (fatOffset cluster) 4 value)

def setNextCluster (d : FatDisk) (cluster next : ℕ) : FatDisk := fs.setEntry d cluster (next % 2 ^ 28)

/-- `allocate_cluster()`: the entries are searched sector by sector. -/
def allocateCluster (d : FatDisk) : ℕ × FatDisk :=
  match (List.range fs.entries).find? fun k =>
      (d.read ((fs.fatLba + k / 128) % 2 ^ 32) 1).readLE (k % 128 * 4) 4 % 2 ^ 28 = 0 with
  | none => (0, d.took 0)
  | some k =>
    (k % 2 ^ 32, (d.write ((fs.fatLba + k / 128) % 2 ^ 32) 1
      ((d.read ((fs.fatLba + k / 128) % 2 ^ 32) 1).writeLE (k % 128 * 4) 4 0x0FFFFFFF)).took
        (k % 2 ^ 32))

def freeLoop : ℕ → ℕ → FatDisk → Option FatDisk
  | 0, _, _ => none
  | fuel + 1, cluster, d =>
    if cluster < endMark ∧ cluster ≠ 0 then
      freeLoop fuel (fs.getNextCluster d cluster) (fs.setEntry d cluster 0)
    else some d

def freeClusterChain (fuel cluster : ℕ) (d : FatDisk) : Option FatDisk :=
  if cluster < 2 then some d else fs.freeLoop fuel cluster d

end Fat32

/-! ## Files -/

structure FatFile where
  firstCluster : ℕ
  size : ℕ
  dirEntryLba : ℕ
  dirEntryOffset : ℕ
deriving DecidableEq, Repr

/-- `file_size` in an entry -/
abbrev fileSizeField : ℕ := 28

namespace Fat32

variable (fs : Fat32)

/-- The loop of `FAT32_File::read` from `cluster` on, with `rest` bytes to go. -/
def readLoop (d : FatDisk) : ℕ → ℕ → ℕ → ℕ → List UInt8
  | 0, _, _, _ => []
  | fuel + 1, cluster, internalOffset, rest =>
    if rest = 0 then []
    else
      let toCopy := min (fs.clusterSize - internalOffset) rest
      let bytes := (d.read (fs.clusterToLba cluster) fs.sectorsPerCluster).bytesAt internalOffset toCopy
      if rest - toCopy = 0 then bytes
      else
        let next := fs.getNextCluster d cluster
        if endMark ≤ next then bytes else bytes ++ readLoop d fuel next 0 (rest - toCopy)

/-- `FAT32_File::read(offset, size, buffer)`: the bytes that are read. -/
def readFile (f : FatFile) (offset size : ℕ) (d : FatDisk) : List UInt8 :=
  if f.size ≤ offset then []
  else
    let size := if f.size < (offset + size) % 2 ^ 32 then f.size - offset else size
    fs.readLoop d size ((fs.getNextCluster d)^[offset / fs.clusterSize] f.firstCluster)
      (offset % fs.clusterSize) size

/-- The inner loop of `FAT32_File::write`: `n` clusters further, where the chain may be extended. -/
def writeWalk : ℕ → ℕ → FatDisk → ℕ × FatDisk
  | 0, cluster, d => (cluster, d)
  | n + 1, cluster, d =>
    let next := fs.getNextCluster d cluster
    if endMark ≤ next then
      let (new, d) := fs.allocateCluster d
      writeWalk n new (fs.setNextCluster d cluster new)
    else writeWalk n next d

/-- One iteration of `FAT32_File::write` at `offset`, for `toWrite` bytes of one sector. -/
def writeSector (f : FatFile) (offset toWrite : ℕ) (bytes : Mem) (d : FatDisk) : FatDisk :=
  let (cluster, d) := fs.writeWalk (offset / fs.clusterSize) f.firstCluster d
  let lba := (fs.clusterToLba cluster + offset % fs.clusterSize / 512) % 2 ^ 32
  d.write lba 1 ((d.read lba 1).copy (offset % 512) toWrite bytes)

/-- The loop of `FAT32_File::write` with `written` bytes done. -/
def writeLoop (f : FatFile) (offset size : ℕ) (buffer : Mem) : ℕ → ℕ → FatDisk → ℕ × FatDisk
  | 0, written, d => (written, d)
  | fuel + 1, written, d =>
    if written < size then
      let currentOffset := (offset + written) % 2 ^ 32
      let toWrite := min (512 - currentOffset % 512) (size - written)
      writeLoop f offset size buffer fuel (written + toWrite)
        (fs.writeSector f currentOffset toWrite (buffer.slice written toWrite) d)
    else (written, d)

def updateMetadata (f : FatFile) (d : FatDisk) : FatDisk := d.write f.dirEntryLba 1
    ((d.read f.dirEntryLba 1).writeLE (f.dirEntryOffset + fileSizeField) 4 f.size)

/-- `FAT32_File::write(offset, size, buffer)` -/
def writeFile (f : FatFile) (offset size : ℕ) (buffer : Mem) (d : FatDisk) : ℕ × FatFile × FatDisk :=
  let (written, d) := fs.writeLoop f offset size buffer size 0 d
  if f.size < (offset + size) % 2 ^ 32 then
    let f := { f with size := (offset + size) % 2 ^ 32 }
    (written, f, updateMetadata f d)
  else (written, f, d)

end Fat32

/-! ## Directory entries -/

/-- `sizeof(FAT32_DirectoryEntry)` -/
abbrev dirEntryBytes : ℕ := 32

/-- The fields of entry `i` of a cluster. -/
def entName (m : Mem) (i : ℕ) : List UInt8 := m.bytesAt (i * dirEntryBytes) 11
def entFirst (m : Mem) (i : ℕ) : UInt8 := m (i * dirEntryBytes)
def entAttr (m : Mem) (i : ℕ) : UInt8 := m (i * dirEntryBytes + 11)
def entSize (m : Mem) (i : ℕ) : ℕ := m.readLE (i * dirEntryBytes + fileSizeField) 4

def entCluster (m : Mem) (i : ℕ) : ℕ :=
  m.readLE (i * dirEntryBytes + 20) 2 * 2 ^ 16 + m.readLE (i * dirEntryBytes + 26) 2

/-- `ATTR_LONG_NAME`, and the marks of an entry that is deleted and of the end. -/
abbrev attrLfn : UInt8 := 0x0F
abbrev attrVolume : UInt8 := 0x08
abbrev attrDirectory : UInt8 := 0x10
abbrev deletedMark : UInt8 := 0xE5

def newEntry (name : List UInt8) (attr : UInt8) (cluster : ℕ) : List UInt8 :=
  name ++ [attr] ++ List.replicate 8 0 ++ Mem.leBytes 2 (cluster / 2 ^ 16) ++ List.replicate 4 0 ++
    Mem.leBytes 2 cluster ++ List.replicate 4 0

/-! ## Long names -/

/-- The places of the characters of a long-name entry. -/
def lfnPlaces : List ℕ := [1, 3, 5, 7, 9, 14, 16, 18, 20, 22, 24, 28, 30]

/-- Put the characters of the long-name entry `i` into `lfn_name`. -/
def lfnStore (m : Mem) (i : ℕ) (lfn : Mem) : Mem :=
  let sequence := (entFirst m i).toNat % 64
  if sequence = 0 ∨ 240 ≤ (sequence - 1) * 13 then lfn
  else
    fun x =>
      match lfnPlaces[x - (sequence - 1) * 13]? with
      | some p =>
        let c := m.readLE (i * dirEntryBytes + p) 2
        if (sequence - 1) * 13 ≤ x ∧ c ≠ 0 ∧ c ≠ 0xFFFF then UInt8.ofNat c else lfn x
      | none => lfn x

def lfnString (lfn : Mem) : List UInt8 := (lfn.bytesAt 0 256).takeWhile (· ≠ 0)

/-- What `finddir` returns: the fields of the node. -/
structure FatFound where
  cluster : ℕ
  isDir : Bool
  size : ℕ
  entryLba : ℕ
  entryOffset : ℕ
deriving DecidableEq, Repr

/-- The scan of one cluster: it goes on, has met the end of the directory, or has found the entry `i`. -/
inductive FatScan
  | next (lfn : Mem)
  | stop
  | found (i : ℕ)

def findScan (m : Mem) (name : List UInt8) : List ℕ → Mem → FatScan
  | [], lfn => .next lfn
  | i :: is, lfn =>
    if entFirst m i = 0 then .stop
    else if entFirst m i = deletedMark then findScan m name is fun _ => 0
    else if entAttr m i &&& attrVolume ≠ 0 ∧ entAttr m i ≠ attrLfn then findScan m name is lfn
    else if entAttr m i = attrLfn then findScan m name is (lfnStore m i lfn)
    else if (if lfn 0 ≠ 0 then decide (lfnString lfn = name) else compareFatName (entName m i) name)
    then .found i
    else findScan m name is fun _ => 0

def unlinkScan (m : Mem) (name : List UInt8) : List ℕ → Option ℕ
  | [] => none
  | i :: is =>
    if entFirst m i = 0 then none
    else if entFirst m i = deletedMark then unlinkScan m name is
    else if compareFatName (entName m i) name then some i
    else unlinkScan m name is

/-- Mark the entry `i` and the long-name entries right before it in the cluster as deleted. -/
def markDeleted (m : Mem) : ℕ → Mem
  | 0 => Function.update m 0 deletedMark
  | i + 1 => markLfn (i + 1) (Function.update m ((i + 1) * dirEntryBytes) deletedMark)
where
  /-- The loop down from the entry before `j`. -/
  markLfn : ℕ → Mem → Mem
  | 0, m => m
  | j + 1, m =>
    if entAttr m j = attrLfn then markLfn j (Function.update m (j * dirEntryBytes) deletedMark) else m

namespace Fat32

variable (fs : Fat32)

def dirSlots : ℕ := fs.clusterSize / dirEntryBytes

def entryLba (cluster i : ℕ) : ℕ := (fs.clusterToLba cluster + i * dirEntryBytes / 512) % 2 ^ 32

def entryOffset (i : ℕ) : ℕ := i * dirEntryBytes % 512

def clusterBytes (d : FatDisk) (cluster : ℕ) : Mem :=
  d.read (fs.clusterToLba cluster) fs.sectorsPerCluster

/-! ## Directories -/

def finddirLoop (name : List UInt8) (d : FatDisk) : ℕ → ℕ → Mem → Option (Option FatFound)
  | 0, _, _ => none
  | fuel + 1, cluster, lfn =>
    if cluster < endMark ∧ cluster ≠ 0 then
      let buffer := fs.clusterBytes d cluster
      match findScan buffer name (List.range fs.dirSlots) lfn with
      | .stop => some none
      | .found i =>
        some (some
          { cluster := entCluster buffer i
            isDir := entAttr buffer i &&& attrDirectory ≠ 0
            size := entSize buffer i
            entryLba := fs.entryLba cluster i
            entryOffset := entryOffset i })
      | .next lfn => finddirLoop name d fuel (fs.getNextCluster d cluster) lfn
    else some none

/-- `FAT32_Directory::finddir(name)` of the directory at `dir` -/
def finddir (fuel dir : ℕ) (name : List UInt8) (d : FatDisk) : Option (Option FatFound) :=
  fs.finddirLoop name d fuel dir fun _ => 0

def unlinkLoop (name : List UInt8) : ℕ → ℕ → FatDisk → Option (Bool × FatDisk)
  | 0, _, _ => none
  | fuel + 1, cluster, d =>
    if cluster < endMark ∧ cluster ≠ 0 then
      let buffer := fs.clusterBytes d cluster
      match unlinkScan buffer name (List.range fs.dirSlots) with
      | some i =>
        (fs.freeClusterChain (fuel + 1) (entCluster buffer i) d).map fun d =>
          (true, d.write (fs.clusterToLba cluster) fs.sectorsPerCluster (markDeleted buffer i))
      | none => unlinkLoop name fuel (fs.getNextCluster d cluster) d
    else some (false, d)

/-- `FAT32_Directory::unlink(name)` -/
def unlink (fuel dir : ℕ) (name : List UInt8) (d : FatDisk) : Option (Bool × FatDisk) :=
  if name = [dotChar] ∨ name = [dotChar, dotChar] then some (false, d)
  else fs.unlinkLoop name fuel dir d

def freeSlot (d : FatDisk) (cluster : ℕ) : Option ℕ := (List.range fs.dirSlots).find? fun i =>
    entFirst (fs.clusterBytes d cluster) i = 0 ∨ entFirst (fs.clusterBytes d cluster) i = deletedMark

/-- `find_free_entry_index(out_lba, out_offset)`: the place, or none for `0xFFFFFFFF`. -/
def findFreeEntry : ℕ → ℕ → FatDisk → Option (Option (ℕ × ℕ)) × FatDisk
  | 0, _, d => (none, d)
  | fuel + 1, cluster, d =>
    if cluster < endMark then
      match fs.freeSlot d cluster with
      | some i => (some (some (fs.entryLba cluster i, entryOffset i)), d)
      | none =>
        let next := fs.getNextCluster d cluster
        if endMark ≤ next then
          let (new, d) := fs.allocateCluster d
          findFreeEntry fuel new (fs.setNextCluster d cluster new)
        else findFreeEntry fuel next d
    else (some none, d)

def storeEntry (place : ℕ × ℕ) (entry : List UInt8) (d : FatDisk) : FatDisk :=
  d.write place.1 1 ((d.read place.1 1).copy place.2 dirEntryBytes (Mem.ofBytes entry))

/-- `FAT32_Directory::create(name, flags)` -/
def create (fuel dir : ℕ) (name : List UInt8) (d : FatDisk) : Option (Option FatFile) × FatDisk :=
  match fs.findFreeEntry fuel dir d with
  | (none, d) => (none, d)
  | (some none, d) => (some none, d)
  | (some (some place), d) =>
    let (first, d) := fs.allocateCluster d
    if first = 0 then (some none, d)
    else
      (some (some ⟨first, 0, place.1, place.2⟩),
        storeEntry place (newEntry (FatName.created name) 0x20 first) d)

def dotEntries (dir new : ℕ) : List UInt8 := newEntry dotName attrDirectory new ++
    newEntry dotDotName attrDirectory (if dir = fs.rootCluster then 0 else dir)

/-- `FAT32_Directory::mkdir(name, mode)`; false for the result `-1` -/
def mkdir (fuel dir : ℕ) (name : List UInt8) (d : FatDisk) : Option Bool × FatDisk :=
  let (new, d) := fs.allocateCluster d
  if new = 0 then (some false, d)
  else
    let d := d.write (fs.clusterToLba new) fs.sectorsPerCluster (Mem.ofBytes (fs.dotEntries dir new))
    match fs.findFreeEntry fuel dir d with
    | (none, d) => (none, d)
    | (some none, d) => (some false, d)
    | (some (some place), d) =>
      (some true, storeEntry place (newEntry (FatName.madeDir name) attrDirectory new) d)

end Fat32

-- the table is only seen as a function on numbers
attribute [irreducible] Fat32.getNextCluster

end KeonOS
