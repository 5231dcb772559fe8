import KeonOS.Mm.Pfa
import KeonOS.Lib.Bytes

/-!
# Paging

The page-table code of `paging.cpp` over physical memory. The code reaches a physical address `a`
through the direct map, at `phys_to_virt(a)`; here it is read and written at `a` itself. A page
table is named by the number of the frame that holds it.

* `Mmu`: the frame allocator, physical memory, CR3 and the count of mapped pages;
* `pfaAllocFrame`: an allocation, with the zeroing of the frame;
* `getPte`: the walk over three levels of tables, which creates missing tables on demand;
* `pagingMapPage`, `pagingUnmapPage`, `pagingGetPhysicalAddress`, `pagingIsUserAccessible`.
-/

namespace KeonOS

open Word

abbrev ptePresent : ℕ := 1
abbrev pteRw : ℕ := 2
abbrev pteUser : ℕ := 4
/-- The page-size bit of an entry above the last level: a large page. -/
abbrev pteLarge : ℕ := 0x80

/-- `e & flag`, as a condition. -/
def hasFlag (e flag : ℕ) : Bool := e &&& flag != 0

/-- The memory-management state: the allocator, physical memory and the page-table root. -/
structure Mmu where
  pfa : Pfa
  mem : Mem
  cr3 : ℕ
  mappedPages : ℕ

namespace Mmu

/-- Entry `i` of the page table in frame `t`. -/
@[irreducible] def entry (s : Mmu) (t : ℕ) (i : Fin 512) : ℕ := s.mem.readLE (4096 * t + 8 * i) 8

/-- `table[i] = e` -/
def setEntry (s : Mmu) (t : ℕ) (i : Fin 512) (e : ℕ) : Mmu :=
  { s with mem := s.mem.writeLE (4096 * t + 8 * i) 8 e }

/-- The frame of the root table, `cr3 & ~0xFFF`. -/
def root (s : Mmu) : ℕ := s.cr3 / 4096

end Mmu

/-- `pfa_alloc_frame()`: the physical address, null when there is none. -/
def pfaAllocFrame (s : Mmu) : ℕ × Mmu :=
  match s.pfa.take with
  | some (frame, pfa) =>
    (frame * 4096, { s with pfa := pfa, mem := s.mem.fillMem (frame * 4096) 4096 0 })
  | none => (0, s)

def pml4Idx (v : ℕ) : Fin 512 := Fin.ofNat 512 (v / 2 ^ 39)
def pdptIdx (v : ℕ) : Fin 512 := Fin.ofNat 512 (v / 2 ^ 30)
def pdIdx (v : ℕ) : Fin 512 := Fin.ofNat 512 (v / 2 ^ 21)
def ptIdx (v : ℕ) : Fin 512 := Fin.ofNat 512 (v / 2 ^ 12)

/-- `indices[0..2]` -/
def tableIdx (v : ℕ) : List (Fin 512) := [pml4Idx v, pdptIdx v, pdIdx v]

/-- One iteration of the loop of `get_pte`: the next table, or `none` for `return nullptr`. -/
def getPteStep (s : Mmu) (table : ℕ) (i : Fin 512) (create : Bool) (flags : ℕ) : Option ℕ × Mmu :=
  if hasFlag (s.entry table i) ptePresent = false then
    if create = false then (none, s)
    else
      let (newTabPhys, s) := pfaAllocFrame s
      if newTabPhys = 0 then (none, s)
      else
        let s := s.setEntry table i (newTabPhys ||| ptePresent ||| pteRw ||| (flags &&& pteUser))
        (some (s.entry table i / 4096), s)
  else
    let s := if hasFlag flags pteUser then s.setEntry table i (s.entry table i ||| pteUser) else s
    let s := if hasFlag flags pteRw then s.setEntry table i (s.entry table i ||| pteRw) else s
    (some (s.entry table i / 4096), s)

def getPteLoop (s : Mmu) (table : ℕ) (create : Bool) (flags : ℕ) : List (Fin 512) → Option ℕ × Mmu
  | [] => (some table, s)
  | i :: is =>
    match getPteStep s table i create flags with
    | (some t, s) => getPteLoop s t create flags is
    | (none, s) => (none, s)

/-- `get_pte(pml4_base, virtual_addr, create, flags)`: the last table and the index in it. -/
def getPte (s : Mmu) (pml4Base v : ℕ) (create : Bool) (flags : ℕ) : Option (ℕ × Fin 512) × Mmu :=
  let (t, s) := getPteLoop s pml4Base create flags (tableIdx v)
  (t.map fun t => (t, ptIdx v), s)

def pagingMapPage (s : Mmu) (virt phys flags : ℕ) : Mmu :=
  match getPte s s.root virt true flags with
  | (some (t, i), s) =>
    { s.setEntry t i (alignDown 4096 phys ||| flags ||| ptePresent) with
      mappedPages := add64 s.mappedPages 1 }
  | (none, s) => s

def pagingUnmapPage (s : Mmu) (virt : ℕ) : Mmu :=
  match getPte s s.root virt false 0 with
  | (some (t, i), s) =>
    if hasFlag (s.entry t i) ptePresent then
      { s.setEntry t i 0 with mappedPages := sub64 s.mappedPages 1 }
    else s
  | (none, s) => s

/-- `paging_get_physical_address(virt)`, null when nothing is mapped. -/
def pagingGetPhysicalAddress (s : Mmu) (virt : ℕ) : ℕ :=
  match getPte s s.root virt false 0 with
  | (some (t, i), s) =>
    if hasFlag (s.entry t i) ptePresent then alignDown 4096 (s.entry t i) + virt % 4096 else 0
  | (none, _) => 0

/-- The loop of `paging_is_user_accessible`. -/
def userWalk (s : Mmu) : ℕ → List (Fin 512) → Bool
  | _, [] => true
  | table, i :: is =>
    if hasFlag (s.entry table i) ptePresent = false then false
    else if hasFlag (s.entry table i) pteUser = false then false
    else userWalk s (s.entry table i / 4096) is

def pagingIsUserAccessible (s : Mmu) (virt : ℕ) : Bool :=
  userWalk s s.root (tableIdx virt ++ [ptIdx virt])

end KeonOS
