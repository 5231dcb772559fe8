import KeonOS.Exec.Elf
import KeonOS.Proc.Sbrk

/-!
# The program and library loaders

`kex_load` and `kdl_load` over the page tables. Heap buffers are the values read into them; `slack` is
what they held before. The loaders keep a log of what they map and of where they write; it is not
part of the source and nothing reads it.

* `loadPage`, `loadPages`, `loadSegment`: map, zero and fill one segment, for both loaders;
* `stackPages`, `newThread`: the stack pages and the fields of a new user thread;
* `kexLoad`, `kdlLoad`: the loaders, with the ways they end in `Status`.
-/

namespace KeonOS

open Word

/-- A page mapped, or a range written. -/
inductive Access
  | map (page : ℕ)
  | write (addr len : ℕ)
deriving DecidableEq, Repr

/-- How a part of a loader ends; `more` means that the dynamic table has not ended. -/
inductive Status
  | ok
  | noFrame
  | fault
  | more
deriving DecidableEq, Repr

structure LoadState where
  mmu : Mmu
  log : List Access

namespace LoadState

def note (s : LoadState) (a : Access) : LoadState := { s with log := s.log ++ [a] }

/-- A run of stores through the page tables. -/
def store (s : LoadState) (byte : ℕ → UInt8) (a n : ℕ) : Status × LoadState :=
  match s.mmu.storeBytes byte a n with
  | some mmu => (.ok, { s.note (.write a n) with mmu := mmu })
  | none => (.fault, s.note (.write a n))

/-- `*(uint64_t*)addr = value` -/
def store64 (s : LoadState) (addr value : ℕ) : Status × LoadState :=
  s.store (fun k => UInt8.ofNat (value / 256 ^ k)) addr 8

end LoadState

/-! ## Segments -/

/-- A frame for the page at `addr`, its mapping, and the `memset`. -/
def loadPage (s : LoadState) (addr : ℕ) : Status × LoadState :=
  let (phys, mmu) := pfaAllocFrame s.mmu
  if phys = 0 then (.noFrame, { s with mmu := mmu })
  else
    let s := { s.note (.map addr) with mmu := pagingMapPage mmu addr phys userFlags }
    s.store (fun _ => 0) addr 4096

def loadPages (s : LoadState) (addr : ℕ) : ℕ → Status × LoadState
  | 0 => (.ok, s)
  | n + 1 =>
    match loadPage s addr with
    | (.ok, s) => loadPages s (addr + 4096) n
    | r => r

/-- The first page of a segment and the number of its pages. The loop variable does not wrap. -/
def segPages (vaddrStart vaddrEnd : ℕ) : ℕ × ℕ :=
  let pageStart := alignDown 4096 vaddrStart
  let pageEnd := alignUp64 4096 vaddrEnd
  (pageStart, (pageEnd - pageStart) / 4096)

def loadSegment (f : KFile) (s : LoadState) (vaddrStart vaddrEnd fileOffset fileSize : ℕ) :
    Status × LoadState :=
  match loadPages s (segPages vaddrStart vaddrEnd).1 (segPages vaddrStart vaddrEnd).2 with
  | (.ok, s) =>
    if 0 < fileSize then
      s.store (f.readByte fileOffset) vaddrStart (f.readLen fileOffset fileSize)
    else (.ok, s)
  | r => r

/-! ## `kex_load` -/

abbrev userStack : ℕ := 0x700000000000

/-- The loop of `thread_create_user` from stack page `i` on, for `n` pages. -/
def stackPages (s : LoadState) (i : ℕ) : ℕ → Status × LoadState
  | 0 => (.ok, s)
  | n + 1 =>
    let (phys, mmu) := pfaAllocFrame s.mmu
    if phys = 0 then (.noFrame, { s with mmu := mmu })
    else
      stackPages { s.note (.map (userStack + i * 4096)) with
        mmu := pagingMapPage mmu (userStack + i * 4096) phys userFlags } (i + 1) n

/-- The fields `thread_create_user` sets. -/
def newThread (id : ℕ) : Thread where
  id := id
  isUser := true
  userImageStart := 0
  userImageEnd := 0
  userHeapBreak := 0x600000
  dynLibBreak := 0

/-- The loop of `kex_load` over the program headers, with `min_vaddr` and `max_vaddr`. -/
def kexSegments (f : KFile) : List Phdr → LoadState → ℕ → ℕ → Status × LoadState × ℕ × ℕ
  | [], s, minV, maxV => (.ok, s, minV, maxV)
  | ph :: phs, s, minV, maxV =>
    if ph.pType ≠ ptLoad then kexSegments f phs s minV maxV
    else
      let vaddrStart := ph.pVaddr
      let vaddrEnd := add64 ph.pVaddr ph.pMemsz
      if vaddrEnd = vaddrStart then kexSegments f phs s minV maxV
      else
        let maxV := if maxV < vaddrEnd then vaddrEnd else maxV
        let minV := if vaddrStart < minV then vaddrStart else minV
        match loadSegment f s vaddrStart vaddrEnd ph.pOffset ph.pFilesz with
        | (.ok, s) => kexSegments f phs s minV maxV
        | (st, s) => (st, s, minV, maxV)

/-- How `kex_load` ends: an error, a thread killed because the frames ran out, a thread, or a fault. -/
inductive KexResult
  | error (s : LoadState)
  | killed (s : LoadState) (t : Thread)
  | loaded (s : LoadState) (t : Thread)
  | fault (s : LoadState)

def KexResult.state : KexResult → LoadState
  | error s => s
  | killed s _ => s
  | loaded s _ => s
  | fault s => s

def Thread.setImage (t : Thread) (minV maxV : ℕ) : Thread :=
  { t with userImageStart := alignDown 4096 minV, userImageEnd := alignUp64 4096 maxV }

/-- The checks of `kex_load` before the thread is created: the program headers, or `return -1`. -/
def kexCheck (f : KFile) (slack : Mem) : Option (List Phdr) :=
  let hdr := parseEhdr f.byte
  if f.readLen 0 ehdrSize ≠ ehdrSize then none
  else if validateElf hdr = false then none
  else if f.readLen hdr.ePhoff (phSize hdr) ≠ phSize hdr then none
  else if kexNoteFound f (programHeaders f hdr slack) slack = false then none
  else some (programHeaders f hdr slack)

/-- `kex_load` of the file `f`; the new thread gets the number `id`. -/
def kexLoad (s : Mmu) (id : ℕ) (f : KFile) (slack : Mem) : KexResult :=
  match kexCheck f slack with
  | none => .error ⟨s, []⟩
  | some phs =>
    match stackPages ⟨s, []⟩ 0 4 with
    | (.ok, s) =>
      match kexSegments f phs s (2 ^ 64 - 1) 0 with
      | (.ok, s, minV, maxV) =>
        .loaded s { (newThread id).setImage minV maxV with
          userHeapBreak := alignUp64 4096 (max maxV heapStartStandard) }
      | (.noFrame, s, minV, maxV) => .killed s ((newThread id).setImage minV maxV)
      | (_, s, _, _) => .fault s
    | (_, s) => .error s

/-! ## `kdl_load` -/

/-- `lib_size` before it is rounded. -/
def libExtent : List Phdr → ℕ → ℕ
  | [], libSize => libSize
  | ph :: phs, libSize =>
    if ph.pType = ptLoad then
      let segEnd := add64 ph.pVaddr ph.pMemsz
      libExtent phs (if libSize < segEnd then segEnd else libSize)
    else libExtent phs libSize

def libSize (phs : List Phdr) : ℕ := alignUp64 4096 (libExtent phs 0)

/-- The loop of `kdl_load` over the program headers, with the address of the dynamic table. -/
def kdlSegments (f : KFile) (base : ℕ) : List Phdr → LoadState → ℕ → Status × LoadState × ℕ
  | [], s, dyn => (.ok, s, dyn)
  | ph :: phs, s, dyn =>
    if ph.pType = ptLoad then
      let vaddrStart := add64 base ph.pVaddr
      let vaddrEnd := add64 (add64 base ph.pVaddr) ph.pMemsz
      if vaddrEnd = vaddrStart then kdlSegments f base phs s dyn
      else
        match loadSegment f s vaddrStart vaddrEnd ph.pOffset ph.pFilesz with
        | (.ok, s) => kdlSegments f base phs s dyn
        | (st, s) => (st, s, dyn)
    else if ph.pType = ptDynamic then kdlSegments f base phs s (add64 base ph.pVaddr)
    else kdlSegments f base phs s dyn

abbrev dtNull : ℕ := 0
abbrev dtRela : ℕ := 7
abbrev dtRelasz : ℕ := 8
abbrev dtRelaent : ℕ := 9
abbrev rX86_64Relative : ℕ := 8

structure RelaTable where
  rela : ℕ
  relaSz : ℕ
  relaEnt : ℕ
deriving DecidableEq, Repr

/-- Enter the value of a dynamic entry. -/
def RelaTable.enter (r : RelaTable) (base tag val : ℕ) : RelaTable :=
  if tag = dtRela then { r with rela := add64 base val }
  else if tag = dtRelasz then { r with relaSz := val }
  else { r with relaEnt := val }

def scanDyn (s : Mmu) (base : ℕ) : ℕ → ℕ → RelaTable → Status × RelaTable
  | 0, _, r => (.more, r)
  | fuel + 1, d, r =>
    match s.readVirtLE d 8 with
    | none => (.fault, r)
    | some tag =>
      if tag = dtNull then (.ok, r)
      else if tag = dtRela ∨ tag = dtRelasz ∨ tag = dtRelaent then
        match s.readVirtLE (add64 d 8) 8 with
        | none => (.fault, r)
        | some val => scanDyn s base fuel (add64 d 16) (r.enter base tag val)
      else scanDyn s base fuel (add64 d 16) r

/-- The target and the value of the entry at `a`, if it is a relative one; the outer `none` is a fault. -/
def readRela (s : Mmu) (base a : ℕ) : Option (Option (ℕ × ℕ)) :=
  (s.readVirtLE (add64 a 8) 8).bind fun rInfo =>
    if rInfo % 2 ^ 32 = rX86_64Relative then
      (s.readVirtLE a 8).bind fun rOffset => (s.readVirtLE (add64 a 16) 8).map fun rAddend =>
        some (add64 base rOffset, add64 base rAddend)
    else some none

/-- One iteration of the relocation loop: relative relocations are applied, others are skipped. -/
def relocateOne (base a : ℕ) (s : LoadState) : Status × LoadState :=
  match readRela s.mmu base a with
  | none => (.fault, s)
  | some none => (.ok, s)
  | some (some (target, value)) => s.store64 target value

/-- The loop over `n` relocations from `a` on. -/
def relocate (base : ℕ) : ℕ → ℕ → LoadState → Status × LoadState
  | 0, _, s => (.ok, s)
  | n + 1, a, s =>
    match relocateOne base a s with
    | (.ok, s) => relocate base n (add64 a 24) s
    | r => r

/-- How `kdl_load` ends: an error, the library at `base`, a fault, or no end of the dynamic table. -/
inductive KdlResult
  | error (s : LoadState) (t : Thread)
  | loaded (s : LoadState) (t : Thread) (base : ℕ)
  | stopped (s : LoadState)

def KdlResult.state : KdlResult → LoadState
  | error s _ => s
  | loaded s _ _ => s
  | stopped s => s

/-- The checks of `kdl_load` before anything is mapped. -/
def kdlCheck (f : KFile) (slack : Mem) : Option (List Phdr) :=
  let hdr := parseEhdr f.byte
  if f.readLen 0 ehdrSize ≠ ehdrSize then none
  else if validateElf hdr = false ∨ hdr.eType ≠ etDyn then none
  else if f.readLen hdr.ePhoff (phSize hdr) ≠ phSize hdr then none
  else some (programHeaders f hdr slack)

def loadBase (t : Thread) : ℕ := if t.dynLibBreak = 0 then 0x700000000000 else t.dynLibBreak

/-- The relocations of a library, with the dynamic table at `dyn`. -/
def kdlRelocate (fuel base dyn : ℕ) (s : LoadState) : Status × LoadState :=
  if dyn = 0 then (.ok, s)
  else
    match scanDyn s.mmu base fuel dyn ⟨0, 0, 0⟩ with
    | (.ok, r) =>
      if r.rela ≠ 0 ∧ 0 < r.relaEnt then relocate base (r.relaSz / r.relaEnt) r.rela s else (.ok, s)
    | (st, _) => (st, s)

def kdlLoad (fuel : ℕ) (s : Mmu) (t : Thread) (f : KFile) (slack : Mem) : KdlResult :=
  match kdlCheck f slack with
  | none => .error ⟨s, []⟩ t
  | some phs =>
    let base := loadBase t
    let t := { t with dynLibBreak := add64 base (libSize phs) }
    match kdlSegments f base phs ⟨s, []⟩ 0 with
    | (.ok, s, dyn) =>
      match kdlRelocate fuel base dyn s with
      | (.ok, s) => .loaded s t base
      | (_, s) => .stopped s
    | (.noFrame, s, _) => .error s t
    | (_, s, _) => .stopped s

end KeonOS
