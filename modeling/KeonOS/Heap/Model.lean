import KeonOS.Lib.Word

/-!
# The kernel heap, as `mm/heap.cpp` computes it

Headers live in a store indexed by address; the null pointer is address `0`. `VMM::sbrk` is a
parameter of `kmalloc`, with a state `σ` of its own, so that the heap can be run on the real
`VMM` and on any other provider of regions. The list walks carry a bound on the number of
iterations; `none` means that the walk has not ended within it.

* `kheapInit`, `kmalloc` (`kmallocScan`, `kmallocTake`), `kfree` (`kfreeMerge`).
-/

namespace KeonOS

open Word

structure HeapBlock where
  size : ℕ
  free : Bool
  next : ℕ
deriving DecidableEq, Repr

/-- `sizeof(struct heap_block)`. -/
abbrev hdr : ℕ := 24

abbrev pageSize : ℕ := 4096

/-- The globals of `mm/heap.cpp`, with the headers in memory. -/
structure Heap where
  blocks : ℕ → HeapBlock
  heapStart : ℕ
  heapTotalSize : ℕ

def Heap.put (h : Heap) (a : ℕ) (b : HeapBlock) : Heap :=
  { h with blocks := Function.update h.blocks a b }

def kheapInit (h : Heap) (startAddr size : ℕ) : Bool × Heap :=
  if startAddr = 0 ∨ size < hdr * 2 then (false, h)
  else
    (true, { (h.put startAddr { size := sub64 size hdr, free := true, next := 0 }) with
      heapStart := startAddr, heapTotalSize := size })

/-- The first-fit walk of `kmalloc`: the fitting block, or `0`, and the last block passed. -/
def kmallocScan (m : ℕ → HeapBlock) (size : ℕ) : ℕ → ℕ → ℕ → Option (ℕ × ℕ)
  | 0, _, _ => none
  | fuel + 1, current, last =>
    if current = 0 then some (0, last)
    else if (m current).free = true ∧ size ≤ (m current).size then some (current, last)
    else kmallocScan m size fuel (m current).next current

/-- Take the fitting block `current`, splitting off its tail when that leaves room for a block. -/
def kmallocTake (h : Heap) (current size : ℕ) : Heap :=
  let b := h.blocks current
  if add64 (add64 size hdr) 16 < b.size then
    let newBlock := add64 (add64 current hdr) size
    let h := h.put newBlock
      { size := sub64 (sub64 b.size size) hdr, free := true, next := b.next }
    h.put current { size := size, free := false, next := newBlock }
  else h.put current { b with free := false }

/-- The rounding `(size + 15) & ~15` of a request. -/
def roundSize (n : ℕ) : ℕ := alignUp64 16 n

/-- `kmalloc`, over a provider `sbrk` of regions. -/
def kmalloc {σ : Type} (sbrk : ℕ → σ → ℕ × σ) (fuel : ℕ) (h : Heap) (v : σ) (n : ℕ) :
    Option (ℕ × Heap × σ) :=
  if h.heapStart = 0 then some (0, h, v)
  else
    let size := roundSize n
    match kmallocScan h.blocks size fuel h.heapStart 0 with
    | none => none
    | some (current, last) =>
      if current ≠ 0 then some (add64 current hdr, kmallocTake h current size, v)
      else
        let totalNeeded := add64 size hdr
        let (newRegion, v') := sbrk totalNeeded v
        if newRegion = 2 ^ 64 - 1 ∨ newRegion = 0 then some (0, h, v')
        else
          let actualSize := alignUp64 pageSize totalNeeded
          let h := h.put newRegion { size := sub64 actualSize hdr, free := false, next := 0 }
          let h := if last ≠ 0 then h.put last { h.blocks last with next := newRegion }
            else { h with heapStart := newRegion }
          some (add64 newRegion hdr, h, v')

def mergeNext (m : ℕ → HeapBlock) (a : ℕ) : ℕ → HeapBlock :=
  let b := m a
  let c := m b.next
  Function.update m a { b with size := add64 b.size (add64 hdr c.size), next := c.next }

/-- The coalescing walk of `kfree`. -/
def kfreeMerge : ℕ → (ℕ → HeapBlock) → ℕ → Option (ℕ → HeapBlock)
  | 0, _, _ => none
  | fuel + 1, m, curr =>
    if curr = 0 ∨ (m curr).next = 0 then some m
    else if (m curr).free = true ∧ (m (m curr).next).free = true then
      kfreeMerge fuel (mergeNext m curr) curr
    else kfreeMerge fuel m (m curr).next

def kfree (fuel : ℕ) (h : Heap) (ptr : ℕ) : Option Heap :=
  if ptr = 0 then some h
  else
    let block := sub64 ptr hdr
    let m := Function.update h.blocks block { h.blocks block with free := true }
    let m := if (m block).next ≠ 0 ∧ (m (m block).next).free = true then mergeNext m block else m
    (kfreeMerge fuel m h.heapStart).map fun m => { h with blocks := m }

end KeonOS
