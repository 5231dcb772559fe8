import KeonOS.Heap.Blocks
import KeonOS.Lib.Chain

/-!
# The pointer heap refines the block list

`Represents m a bs`: following `next` from `a`, the headers in the store `m` are those of the
blocks `bs`, in order.

* **`kmalloc_refines`**, **`kfree_refines`**: on an ordered list both calls end, and they do to the
  list what `takeBlock` and `coalesce` say.
-/

namespace KeonOS

open Word List Function

/-- The headers met from `a` along `next` are those of `bs`. -/
structure Represents (m : ℕ → HeapBlock) (a : ℕ) (bs : List Block) : Prop where
  chain : Chain 0 (fun x => (m x).next) a (bs.map Block.addr)
  data : ∀ b ∈ bs, (m b.addr).size = b.size ∧ (m b.addr).free = b.free

variable {m : ℕ → HeapBlock} {a : ℕ} {bs xs zs : List Block} {b c : Block}

theorem Ordered.before (h : Ordered (xs ++ b :: zs)) : ∀ x ∈ xs, x.stop ≤ b.addr := fun x hx =>
  (pairwise_append.mp h).2.2 x hx b mem_cons_self

theorem Ordered.after (h : Ordered (xs ++ b :: zs)) : ∀ z ∈ zs, b.stop ≤ z.addr :=
  (pairwise_cons.mp (pairwise_append.mp h).2.1).1

theorem Block.addr_lt_stop (b : Block) : b.addr < b.stop := b.addr_lt_payload.trans_le b.payload_le_stop

theorem Represents.tail (h : Represents m a (b :: bs)) : Represents m (m b.addr).next bs :=
  ⟨h.chain.2.2, fun c hc => h.data c (mem_cons_of_mem _ hc)⟩

/-! ## The first-fit walk -/

def lastAddr (last : ℕ) (bs : List Block) : ℕ := (bs.getLast?.map Block.addr).getD last

theorem lastAddr_cons (last : ℕ) (b : Block) (bs : List Block) :
    lastAddr last (b :: bs) = lastAddr b.addr bs := by
  cases bs with
  | nil => rfl
  | cons c bs => simp [lastAddr, getLast?_cons]

theorem kmallocScan_spec {size : ℕ} : ∀ (bs : List Block) (a last : ℕ), Represents m a bs →
    (∃ xs y zs l, bs = xs ++ y :: zs ∧ y.free = true ∧ size ≤ y.size ∧
      ∀ fuel, bs.length < fuel → kmallocScan m size fuel a last = some (y.addr, l)) ∨
    (∀ b ∈ bs, b.free = true → b.size < size) ∧
      ∀ fuel, bs.length < fuel → kmallocScan m size fuel a last = some (0, lastAddr last bs)
  | [], a, last, h => by
    refine .inr ⟨by simp, ?_⟩
    rintro (_ | fuel) hf
    · exact absurd hf (Nat.not_lt_zero _)
    · have ha : a = 0 := h.chain
      simp [kmallocScan, ha, lastAddr]
  | b :: bs, a, last, h => by
    have ha : a = b.addr := h.chain.1
    have hb0 : b.addr ≠ 0 := h.chain.2.1
    obtain ⟨hsize, hfree⟩ := h.data b mem_cons_self
    by_cases hfit : b.free = true ∧ size ≤ b.size
    · left
      refine ⟨[], b, bs, last, rfl, hfit.1, hfit.2, ?_⟩
      rintro (_ | fuel) hf
      · exact absurd hf (Nat.not_lt_zero _)
      · rw [kmallocScan, ha, if_neg hb0, hsize, hfree, if_pos hfit]
    -- the walk goes on to the rest of the list
    have hstep : ∀ fuel, kmallocScan m size (fuel + 1) a last =
        kmallocScan m size fuel (m b.addr).next b.addr := by
      intro fuel
      rw [kmallocScan, ha, if_neg hb0, hsize, hfree, if_neg hfit]
    rw [lastAddr_cons]
    rcases kmallocScan_spec bs _ b.addr h.tail with ⟨xs, y, zs, l, rfl, h1, h2, h3⟩ | ⟨hno, h1⟩
    · refine .inl ⟨b :: xs, y, zs, l, rfl, h1, h2, ?_⟩
      rintro (_ | fuel) hf
      · exact absurd hf (Nat.not_lt_zero _)
      · rw [hstep]
        exact h3 fuel (Nat.lt_of_succ_lt_succ hf)
    · refine .inr ⟨forall_mem_cons.mpr ⟨fun hf => not_le.mp fun hle => hfit ⟨hf, hle⟩, hno⟩, ?_⟩
      rintro (_ | fuel) hf
      · exact absurd hf (Nat.not_lt_zero _)
      · rw [hstep]
        exact h1 fuel (Nat.lt_of_succ_lt_succ hf)

/-! ## Header stores as edits of the list -/

theorem Represents.setData (h : Represents m a (xs ++ b :: zs)) (ho : Ordered (xs ++ b :: zs))
    (hb : HeapBlock) (hnext : hb.next = (m b.addr).next) :
    Represents (Function.update m b.addr hb) a
      (xs ++ { b with size := hb.size, free := hb.free } :: zs) := by
  have hne : ∀ d ∈ xs ++ zs, d.addr ≠ b.addr := by
    intro d hd
    have hx := ho.before
    have hz := ho.after
    have := b.addr_lt_stop
    rcases mem_append.mp hd with hd | hd
    · have := hx d hd; have := d.addr_lt_stop; omega
    · have := hz d hd; omega
  constructor
  · have hc := h.chain
    simp only [map_append, map_cons] at hc ⊢
    refine hc.congr fun x _ => ?_
    by_cases hx : x = b.addr
    · rw [hx, update_self, hnext]
    · rw [update_of_ne hx]
  · intro d hd
    rcases mem_append.mp hd with hd | hd
    · rw [update_of_ne (hne d (by simp [hd]))]
      exact h.data d (by simp [hd])
    · rcases mem_cons.mp hd with rfl | hd
      · simp
      · rw [update_of_ne (hne d (by simp [hd]))]
        exact h.data d (by simp [hd])

theorem Represents.join (h : Represents m a (xs ++ b :: c :: zs))
    (ho : Ordered (xs ++ b :: c :: zs)) (hbound : c.stop ≤ 2 ^ 64) :
    Represents (mergeNext m b.addr) a (xs ++ joinBlock b c :: zs) := by
  have hbc : Apart b c := ho.apart_of_append
  have hbc' : b.stop ≤ c.addr := hbc
  have hx := ho.before
  have hz : ∀ z ∈ zs, c.stop ≤ z.addr := by
    have e : xs ++ b :: c :: zs = (xs ++ [b]) ++ c :: zs := by simp
    rw [e] at ho
    exact ho.after
  have hbh := b.addr_lt_stop
  have hch := c.addr_lt_stop
  have hnext : (m b.addr).next = c.addr := by
    have := h.chain
    simp only [map_append, map_cons] at this
    exact this.next_of_append.1
  obtain ⟨hbs, hbf⟩ := h.data b (by simp)
  obtain ⟨hcs, hcf⟩ := h.data c (by simp)
  have hsize : add64 (m b.addr).size (add64 hdr (m c.addr).size) = b.size + (hdr + c.size) := by
    have h24 : hdr = 24 := rfl
    simp only [Block.stop] at hbc' hbound
    have h1 : hdr + c.size < 2 ^ 64 := by omega
    rw [hbs, hcs, add64_of_lt h1, add64_of_lt (by omega)]
  have hm : mergeNext m b.addr = Function.update m b.addr
      { m b.addr with size := b.size + (hdr + c.size), next := (m c.addr).next } := by
    simp only [mergeNext, hnext, hsize]
  rw [hm]
  constructor
  · have hc := h.chain
    simp only [map_append, map_cons, joinBlock] at hc ⊢
    refine hc.remove_after ?_ ?_ ?_
    · simp
    · intro x hx'
      obtain ⟨d, hd, rfl⟩ := List.mem_map.mp hx'
      have := hx d hd
      have := d.addr_lt_stop
      rw [update_of_ne (by omega)]
    · intro x hx'
      obtain ⟨d, hd, rfl⟩ := List.mem_map.mp hx'
      have := hz d hd
      rw [update_of_ne (by omega)]
  · intro d hd
    rcases mem_append.mp hd with hd | hd
    · have := hx d hd
      have := d.addr_lt_stop
      rw [update_of_ne (by omega)]
      exact h.data d (by simp [hd])
    · rcases mem_cons.mp hd with rfl | hd
      · simp [joinBlock, hbf]
      · have := hz d hd
        rw [update_of_ne (by omega)]
        exact h.data d (by simp [hd])

variable {size lo hi : ℕ} {h : Heap}

theorem Represents.split (h : Represents m a (xs ++ b :: zs))
    (ho : Ordered (xs ++ b :: zs)) (hs : size + hdr ≤ b.size) :
    Represents (Function.update (Function.update m (b.addr + hdr + size)
        { size := b.size - size - hdr, free := true, next := (m b.addr).next }) b.addr
        { size := size, free := false, next := b.addr + hdr + size }) a
      (xs ++ [{ b with size := size, free := false },
        { addr := b.addr + hdr + size, size := b.size - size - hdr, free := true }] ++ zs) := by
  have hx := ho.before
  have hz := ho.after
  have hstop : b.stop = b.addr + hdr + b.size := rfl
  have h24 : hdr = 24 := rfl
  constructor
  · have hc := h.chain
    simp only [map_append, map_cons, append_assoc, cons_append, nil_append] at hc ⊢
    refine hc.insert_after (by omega) ?_ ?_ ?_ ?_
    · simp
    · rw [update_of_ne (by omega), update_self]
    · intro x hx'
      obtain ⟨d, hd, rfl⟩ := List.mem_map.mp hx'
      have := hx d hd
      have := d.addr_lt_stop
      rw [update_of_ne (by omega), update_of_ne (by omega)]
    · intro x hx'
      obtain ⟨d, hd, rfl⟩ := List.mem_map.mp hx'
      have := hz d hd
      rw [update_of_ne (by omega), update_of_ne (by omega)]
  · intro d hd
    simp only [append_assoc, cons_append, nil_append, mem_append, mem_cons] at hd
    rcases hd with hd | rfl | rfl | hd
    · have := hx d hd
      have := d.addr_lt_stop
      rw [update_of_ne (by omega), update_of_ne (by omega)]
      exact h.data d (by simp [hd])
    · simp
    · rw [update_of_ne (by simp only; omega)]
      simp
    · have := hz d hd
      rw [update_of_ne (by omega), update_of_ne (by omega)]
      exact h.data d (by simp [hd])

theorem Represents.grow {r : ℕ} (h : Represents m a (xs ++ [b])) (ho : Ordered (xs ++ [b]))
    (hr : b.stop ≤ r) (hb : HeapBlock) (hnext : hb.next = 0) :
    Represents (Function.update (Function.update m r hb) b.addr
        { Function.update m r hb b.addr with next := r }) a
      (xs ++ [b, { addr := r, size := hb.size, free := hb.free }]) := by
  have hx := ho.before
  have hbs := b.addr_lt_stop
  have hbr : b.addr ≠ r := by omega
  constructor
  · have hc := h.chain
    simp only [map_append, map_cons, map_nil] at hc ⊢
    refine hc.snoc (by omega) ?_ ?_ ?_
    · simp
    · rw [update_of_ne hbr.symm, update_self, hnext]
    intro x hx'
    obtain ⟨d, hd, rfl⟩ := List.mem_map.mp hx'
    have := hx d hd
    have := d.addr_lt_stop
    rw [update_of_ne (by omega), update_of_ne (by omega)]
  · intro d hd
    simp only [mem_append, mem_cons, not_mem_nil, or_false] at hd
    rcases hd with hd | rfl | rfl
    · have := hx d hd
      have := d.addr_lt_stop
      rw [update_of_ne (by omega), update_of_ne (by omega)]
      exact h.data d (by simp [hd])
    · rw [update_self, update_of_ne hbr]
      exact h.data d (by simp)
    · rw [update_of_ne hbr.symm]
      simp

/-! ## `kmalloc` -/

structure HeapInv (h : Heap) (bs : List Block) (lo hi : ℕ) : Prop where
  rep : Represents h.blocks h.heapStart bs
  ordered : Ordered bs
  within : Within lo hi bs
  lo_pos : 0 < lo
  hi_le : hi ≤ 2 ^ 64
  ne_nil : bs ≠ []

theorem HeapInv.heapStart_ne (hv : HeapInv h bs lo hi) : h.heapStart ≠ 0 := by
  obtain ⟨b, bs', rfl⟩ := exists_cons_of_ne_nil hv.ne_nil
  have := hv.rep.chain
  rw [this.1]
  exact this.2.1

theorem HeapInv.mono {hi' : ℕ} (hv : HeapInv h bs lo hi) (hle : hi ≤ hi')
    (hi_le' : hi' ≤ 2 ^ 64) : HeapInv h bs lo hi' :=
  ⟨hv.rep, hv.ordered, hv.within.mono hle, hv.lo_pos, hi_le', hv.ne_nil⟩

theorem kmallocTake_inv (hv : HeapInv h (xs ++ b :: zs) lo hi)
    (hfit : size ≤ b.size) (hs : size + hdr + 16 < 2 ^ 64) :
    HeapInv (kmallocTake h b.addr size) (xs ++ takeBlock size b ++ zs) lo hi := by
  have hb := hv.within b (by simp)
  have hhi := hv.hi_le
  have hstop : b.stop = b.addr + hdr + b.size := rfl
  obtain ⟨hbs, hbf⟩ := hv.rep.data b (by simp)
  refine ⟨?_, hv.ordered.replace (takeBlock_ordered _ _) fun c => takeBlock_mem,
    hv.within.replace fun c => takeBlock_mem, hv.lo_pos, hhi, by simp [takeBlock]; split_ifs <;> simp⟩
  have hadd : add64 (add64 size hdr) 16 = size + hdr + 16 := by
    rw [add64_of_lt (a := size) (by omega), add64_of_lt (by omega)]
  unfold kmallocTake takeBlock
  simp only [hbs, hadd]
  by_cases hs : size + hdr + 16 < b.size
  · rw [if_pos hs, if_pos hs, sub64_of_le hfit, sub64_of_le (by omega),
      add64_of_lt (a := b.addr) (by omega), add64_of_lt (by omega)]
    exact hv.rep.split hv.ordered (by omega)
  · rw [if_neg hs, if_neg hs]
    have := hv.rep.setData hv.ordered { h.blocks b.addr with free := false } rfl
    simpa [Heap.put, hbs] using this

/-- The rounded request, its header and the rounding to pages stay below `2 ^ 64`. -/
def NoOverflow (n : ℕ) : Prop := alignUp 16 n + hdr + (pageSize - 1) < 2 ^ 64

instance : DecidablePred NoOverflow := fun _ => inferInstanceAs (Decidable (_ < _))

theorem roundSize_of_noOverflow {n : ℕ} (hn : NoOverflow n) :
    n ≤ roundSize n ∧ roundSize n + hdr + (pageSize - 1) < 2 ^ 64 := by
  have h24 : hdr = 24 := rfl
  have h1 := le_alignUp (k := 16) (by norm_num) n
  unfold NoOverflow at hn
  rw [roundSize, alignUp64_of_lt (by omega)]
  exact ⟨h1, hn⟩

/-- The bytes `VMM::sbrk` is asked for, and the bytes it then provides. -/
def grownSize (n : ℕ) : ℕ := alignUp pageSize (roundSize n + hdr)

theorem pageSize_le_grownSize (n : ℕ) : pageSize ≤ grownSize n := by
  have h24 : hdr = 24 := rfl
  have hp : pageSize = 4096 := rfl
  simp only [grownSize, alignUp, alignDown]
  rw [h24, hp]
  omega

/-- A region of `len` bytes above everything handed out before, or a failure. -/
def RegionOk (hi len r hi' : ℕ) : Prop := (r = 2 ^ 64 - 1 ∨ r = 0) ∧ hi ≤ hi' ∨ hi ≤ r ∧ r + len ≤ hi'

/-- What `kmalloc` has done: handed out a block, failed, or appended the region `r`. The provider goes
from `v` to `v₁` if it was asked. -/
inductive Malloced {σ : Type} (size r len : ℕ) (h : Heap) (bs : List Block) (lo hi hi' : ℕ) (v v₁ : σ) :
    ℕ → Heap → σ → List Block → Prop
  | fit {h' : Heap} {xs zs : List Block} {y : Block} : bs = xs ++ y :: zs → y.free = true →
      size ≤ y.size → HeapInv h' (xs ++ takeBlock size y ++ zs) lo hi →
      Malloced size r len h bs lo hi hi' v v₁ y.payload h' v (xs ++ takeBlock size y ++ zs)
  | fail : hi ≤ hi' → Malloced size r len h bs lo hi hi' v v₁ 0 h v₁ bs
  | grow {h' : Heap} : hi ≤ r → r + len ≤ hi' →
      HeapInv h' (bs ++ [{ addr := r, size := len - hdr, free := false }]) lo hi' →
      Malloced size r len h bs lo hi hi' v v₁ (r + hdr) h' v₁
        (bs ++ [{ addr := r, size := len - hdr, free := false }])

section Kmalloc

variable {σ : Type} {sbrk : ℕ → σ → ℕ × σ} {n lo hi hi' l fuel : ℕ} {h : Heap} {v : σ}

theorem kmalloc_fit (hv : HeapInv h (xs ++ b :: zs) lo hi)
    (hscan : kmallocScan h.blocks (roundSize n) fuel h.heapStart 0 = some (b.addr, l)) :
    kmalloc sbrk fuel h v n = some (b.payload, kmallocTake h b.addr (roundSize n), v) := by
  obtain ⟨-, hb, -⟩ := hv.within b (by simp)
  have hbp : add64 b.addr hdr = b.payload := add64_of_lt (hb.trans_le hv.hi_le)
  have hb0 : b.addr ≠ 0 := hv.rep.chain.ne_null _ (by simp)
  unfold kmalloc
  simp only [if_neg hv.heapStart_ne, hscan, ne_eq, hb0, not_false_eq_true, if_true, hbp]

theorem kmalloc_fail (hv : HeapInv h bs lo hi) (hn : NoOverflow n)
    (hscan : kmallocScan h.blocks (roundSize n) fuel h.heapStart 0 = some (0, l))
    (hfail : (sbrk (roundSize n + hdr) v).1 = 2 ^ 64 - 1 ∨ (sbrk (roundSize n + hdr) v).1 = 0) :
    kmalloc sbrk fuel h v n = some (0, h, (sbrk (roundSize n + hdr) v).2) := by
  obtain ⟨-, hn2⟩ := roundSize_of_noOverflow hn
  have htot : add64 (roundSize n) hdr = roundSize n + hdr := add64_of_lt (by omega)
  unfold kmalloc
  simp only [if_neg hv.heapStart_ne, htot, hscan, ne_eq, not_true_eq_false, if_false]
  rw [if_pos hfail]

theorem kmalloc_grow (hv : HeapInv h bs lo hi) (hn : NoOverflow n) (hhi' : hi' ≤ 2 ^ 64)
    (hlo : hi ≤ (sbrk (roundSize n + hdr) v).1)
    (hhi : (sbrk (roundSize n + hdr) v).1 + grownSize n ≤ hi') :
    ∃ h', HeapInv h' (bs ++
        [{ addr := (sbrk (roundSize n + hdr) v).1, size := grownSize n - hdr, free := false }])
        lo hi' ∧
      ∀ fuel, kmallocScan h.blocks (roundSize n) fuel h.heapStart 0 = some (0, lastAddr 0 bs) →
        kmalloc sbrk fuel h v n = some ((sbrk (roundSize n + hdr) v).1 + hdr, h',
          (sbrk (roundSize n + hdr) v).2) := by
  obtain ⟨-, hn2⟩ := roundSize_of_noOverflow hn
  have h24 : hdr = 24 := rfl
  have hp : pageSize = 4096 := rfl
  have htot : add64 (roundSize n) hdr = roundSize n + hdr := add64_of_lt (by omega)
  have hact : alignUp64 pageSize (roundSize n + hdr) = grownSize n := alignUp64_of_lt (by omega)
  obtain ⟨xs, b, hbs⟩ := (eq_nil_or_concat bs).resolve_left hv.ne_nil
  rw [concat_eq_append] at hbs
  subst hbs
  obtain ⟨hb1, hb2, hb3⟩ := hv.within b (by simp)
  have hlo0 := hv.lo_pos
  have hb := b.addr_lt_payload
  have hlen := pageSize_le_grownSize n
  have hfail : ¬ ((sbrk (roundSize n + hdr) v).1 = 2 ^ 64 - 1 ∨
      (sbrk (roundSize n + hdr) v).1 = 0) := by omega
  have hlast : lastAddr 0 (xs ++ [b]) = b.addr := by simp [lastAddr]
  have hb0 : b.addr ≠ 0 := by omega
  have hrep := hv.rep.grow hv.ordered (hb3.trans hlo)
    { size := grownSize n - hdr, free := false, next := 0 } rfl
  have hinv : HeapInv { h with blocks := _ } (xs ++ [b] ++ [_]) lo hi' :=
    ⟨by simpa using hrep, ?_, ?_, hv.lo_pos, hhi', by simp⟩
  · refine ⟨_, hinv, fun fuel hscan => ?_⟩
    unfold kmalloc
    simp only [if_neg hv.heapStart_ne, htot, hact, hscan, ne_eq, not_true_eq_false, if_false, hlast,
      hb0, not_false_eq_true, if_true]
    rw [if_neg hfail, add64_of_lt (by omega), sub64_of_le (by omega)]
    rfl
  · refine pairwise_append.mpr ⟨hv.ordered, by simp, fun c hc d hd => ?_⟩
    obtain rfl := mem_singleton.mp hd
    exact (hv.within c hc).2.2.trans hlo
  · intro c hc
    rcases mem_append.mp hc with hc | hc
    · exact hv.within.mono (by omega) c hc
    · obtain rfl := mem_singleton.mp hc
      simp only [Block.payload, Block.stop]
      omega

theorem kmalloc_refines (hv : HeapInv h bs lo hi) (hn : NoOverflow n) (hhi' : hi' ≤ 2 ^ 64)
    (hr : RegionOk hi (grownSize n) (sbrk (roundSize n + hdr) v).1 hi') :
    ∃ p h' v' bs', (∀ fuel, bs.length < fuel → kmalloc sbrk fuel h v n = some (p, h', v')) ∧
      Malloced (roundSize n) (sbrk (roundSize n + hdr) v).1 (grownSize n) h bs lo hi hi' v
        (sbrk (roundSize n + hdr) v).2 p h' v' bs' := by
  obtain ⟨-, hn2⟩ := roundSize_of_noOverflow hn
  have hp : pageSize = 4096 := rfl
  have hscan := @kmallocScan_spec h.blocks (roundSize n) bs h.heapStart 0 hv.rep
  rcases hscan with ⟨xs, y, zs, l, rfl, hyf, hys, hscan⟩ | ⟨-, hscan⟩
  · exact ⟨_, _, _, _, fun fuel hf => kmalloc_fit hv (hscan fuel hf),
      .fit rfl hyf hys (kmallocTake_inv hv hys (by omega))⟩
  · rcases hr with ⟨hfail, hle⟩ | ⟨hlo, hhi⟩
    · exact ⟨_, _, _, bs, fun fuel hf => kmalloc_fail hv hn (hscan fuel hf) hfail, .fail hle⟩
    · obtain ⟨h', hinv, hk⟩ := kmalloc_grow hv hn hhi' hlo hhi
      exact ⟨_, _, _, _, fun fuel hf => hk fuel (hscan fuel hf), .grow hlo hhi hinv⟩

end Kmalloc

/-! ## `kfree` -/

def firstAddr (bs : List Block) : ℕ := (bs.head?.map Block.addr).getD 0

theorem Represents.next_eq (h : Represents m a (xs ++ b :: zs)) :
    b.addr ≠ 0 ∧ (m b.addr).next = firstAddr zs := by
  have hc := h.chain
  refine ⟨hc.ne_null _ (by simp), ?_⟩
  rw [map_append, map_cons] at hc
  have hn := hc.next_of_append
  cases zs with
  | nil => exact hn
  | cons c zs => exact hn.1

theorem kfreeMerge_spec (hhi : hi ≤ 2 ^ 64) : ∀ (bs xs : List Block)
    (m : ℕ → HeapBlock) (a : ℕ), Represents m a (xs ++ bs) → Ordered (xs ++ bs) →
    Within lo hi (xs ++ bs) → ∃ m', Represents m' a (xs ++ coalesce bs) ∧
      ∀ fuel, bs.length < fuel → kfreeMerge fuel m (firstAddr bs) = some m' := by
  intro bs
  induction bs using coalesce.induct with
  | case1 =>
    intro xs m a hr _ _
    refine ⟨m, by rw [coalesce]; exact hr, ?_⟩
    rintro (_ | fuel) hf
    · exact absurd hf (Nat.not_lt_zero _)
    · simp [kfreeMerge, firstAddr]
  | case2 b =>
    intro xs m a hr _ _
    have hn : (m b.addr).next = 0 := hr.next_eq.2
    refine ⟨m, by rw [coalesce]; exact hr, ?_⟩
    rintro (_ | fuel) hf
    · exact absurd hf (Nat.not_lt_zero _)
    · simp [kfreeMerge, firstAddr, hn]
  | case3 b c bs hfree ih =>
    intro xs m a hr ho hw
    obtain ⟨hb0, hn⟩ := hr.next_eq
    have hn' : (m b.addr).next = c.addr := hn
    have hc0 : c.addr ≠ 0 := hr.chain.ne_null _ (by simp)
    have hbf := (hr.data b (by simp)).2
    have hcf := (hr.data c (by simp)).2
    obtain ⟨m', h1, h2⟩ := ih xs _ a (hr.join ho ((hw c (by simp)).2.2.trans hhi)) ho.join
      (hw.join ho.apart_of_append)
    refine ⟨m', by rwa [coalesce, if_pos hfree], ?_⟩
    rintro (_ | fuel) hf
    · exact absurd hf (Nat.not_lt_zero _)
    · change kfreeMerge (fuel + 1) m b.addr = some m'
      rw [kfreeMerge, if_neg (by simp [hb0, hn', hc0]), hn', hbf, hcf, if_pos hfree]
      exact h2 fuel (by simp at hf ⊢; omega)
  | case4 b c bs hfree ih =>
    intro xs m a hr ho hw
    obtain ⟨hb0, hn⟩ := hr.next_eq
    have hn' : (m b.addr).next = c.addr := hn
    have hc0 : c.addr ≠ 0 := hr.chain.ne_null _ (by simp)
    have hbf := (hr.data b (by simp)).2
    have hcf := (hr.data c (by simp)).2
    have e : xs ++ b :: c :: bs = (xs ++ [b]) ++ c :: bs := by simp
    rw [e] at hr ho hw
    obtain ⟨m', h1, h2⟩ := ih (xs ++ [b]) m a hr ho hw
    refine ⟨m', by rw [coalesce, if_neg hfree]; simpa using h1, ?_⟩
    rintro (_ | fuel) hf
    · exact absurd hf (Nat.not_lt_zero _)
    · change kfreeMerge (fuel + 1) m b.addr = some m'
      rw [kfreeMerge, if_neg (by simp [hb0, hn', hc0]), hn', hbf, hcf, if_neg hfree]
      exact h2 fuel (by simpa using hf)

theorem HeapInv.setFree (hv : HeapInv h (xs ++ b :: zs) lo hi) :
    HeapInv { h with blocks := Function.update h.blocks b.addr { h.blocks b.addr with free := true } }
      (xs ++ { b with free := true } :: zs) lo hi := by
  have hb := hv.rep.data b (by simp)
  have hpiece : ∀ c ∈ [{ b with free := true }], Piece b c := by
    simp [Piece, Block.stop, Block.payload]
  refine ⟨?_, ?_, ?_, hv.lo_pos, hv.hi_le, by simp⟩
  · have := hv.rep.setData hv.ordered { h.blocks b.addr with free := true } rfl
    rwa [hb.1] at this
  · simpa using hv.ordered.replace (pairwise_singleton _ _) hpiece
  · simpa using hv.within.replace hpiece

theorem HeapInv.join (hv : HeapInv h (xs ++ b :: c :: zs) lo hi) :
    HeapInv { h with blocks := mergeNext h.blocks b.addr } (xs ++ joinBlock b c :: zs) lo hi :=
  ⟨hv.rep.join hv.ordered ((hv.within c (by simp)).2.2.trans hv.hi_le), hv.ordered.join,
    hv.within.join hv.ordered.apart_of_append, hv.lo_pos, hv.hi_le, by simp⟩

/-- Free the block `b` and swallow a free successor, as `kfree` does before its walk. -/
def freeBlock (b : Block) : List Block → List Block
  | [] => [{ b with free := true }]
  | c :: zs => if c.free = true then joinBlock { b with free := true } c :: zs
    else { b with free := true } :: c :: zs

theorem HeapInv.coalesce (hv : HeapInv h bs lo hi) :
    ∃ m', HeapInv { h with blocks := m' } (coalesce bs) lo hi ∧
      ∀ fuel, bs.length < fuel → kfreeMerge fuel h.blocks h.heapStart = some m' := by
  have hfirst : h.heapStart = firstAddr bs := by
    have hc := hv.rep.chain
    cases bs with
    | nil => exact hc
    | cons b bs => exact hc.1
  obtain ⟨m', h1, h2⟩ := kfreeMerge_spec hv.hi_le bs [] h.blocks h.heapStart hv.rep hv.ordered hv.within
  obtain ⟨h3, h4⟩ := coalesce_spec lo hi bs [] hv.ordered hv.within
  rw [← hfirst] at h2
  exact ⟨m', ⟨h1, h3, h4, hv.lo_pos, hv.hi_le, coalesce_ne_nil hv.ne_nil⟩, h2⟩

theorem kfree_refines (hv : HeapInv h (xs ++ b :: zs) lo hi) :
    ∃ h', HeapInv h' (coalesce (xs ++ freeBlock b zs)) lo hi ∧
      ∀ fuel, (xs ++ b :: zs).length < fuel → kfree fuel h b.payload = some h' := by
  have hp0 : b.payload ≠ 0 := by have := b.addr_lt_payload; omega
  have hblock : sub64 b.payload hdr = b.addr := by
    have hle : hdr ≤ b.payload := Nat.le_add_left _ _
    rw [sub64_of_le hle, Block.payload, Nat.add_sub_cancel]
  have hv₁ := hv.setFree
  obtain ⟨-, hn⟩ := hv₁.rep.next_eq
  simp only [kfree, if_neg hp0, hblock]
  cases zs with
  | nil =>
    have hn : (Function.update h.blocks b.addr { h.blocks b.addr with free := true } b.addr).next = 0 := hn
    obtain ⟨m', h1, h2⟩ := hv₁.coalesce
    refine ⟨_, h1, fun fuel hf => ?_⟩
    rw [hn]
    simp only [ne_eq, not_true_eq_false, false_and, if_false]
    rw [h2 fuel (by simpa using hf)]
    rfl
  | cons c zs =>
    have hn : (Function.update h.blocks b.addr { h.blocks b.addr with free := true } b.addr).next =
        c.addr := hn
    have hc0 : c.addr ≠ 0 := hv₁.rep.chain.ne_null _ (by simp)
    have hcf := (hv₁.rep.data c (by simp)).2
    rw [hn, hcf]
    by_cases hfree : c.free = true
    · obtain ⟨m', h1, h2⟩ := hv₁.join.coalesce
      rw [if_pos ⟨hc0, hfree⟩, freeBlock, if_pos hfree]
      refine ⟨_, h1, fun fuel hf => ?_⟩
      rw [h2 fuel (by simp at hf ⊢; omega)]
      rfl
    · obtain ⟨m', h1, h2⟩ := hv₁.coalesce
      rw [if_neg (fun hh => hfree hh.2), freeBlock, if_neg hfree]
      refine ⟨_, h1, fun fuel hf => ?_⟩
      rw [h2 fuel (by simpa using hf)]
      rfl

end KeonOS
