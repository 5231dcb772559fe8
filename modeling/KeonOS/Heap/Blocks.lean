import Mathlib
import KeonOS.Heap.Model

/-!
# Lists of heap blocks

The abstract view of the heap: the blocks in list order, each with its address, size and free
flag, and what the allocator does to that list.

* **`Ordered.payload_disjoint`**, **`Ordered.payload_header_disjoint`**: in an ordered list no payload
  meets another payload or a header.
-/

namespace KeonOS

open List

/-- A block of the list, as seen from outside. -/
structure Block where
  addr : ℕ
  size : ℕ
  free : Bool
deriving DecidableEq, Repr

namespace Block

def stop (b : Block) : ℕ := b.addr + hdr + b.size

def payload (b : Block) : ℕ := b.addr + hdr

def payloadRange (b : Block) : Set ℕ := Set.Ico b.payload b.stop

def headerRange (b : Block) : Set ℕ := Set.Ico b.addr b.payload

theorem payload_le_stop (b : Block) : b.payload ≤ b.stop := Nat.le_add_right _ _

theorem addr_lt_payload (b : Block) : b.addr < b.payload := by simp [payload]

end Block

def Apart (b c : Block) : Prop := b.stop ≤ c.addr

variable {b c : Block} {lo hi size : ℕ} {bs xs ys zs : List Block}

theorem Apart.addr_lt (h : Apart b c) : b.addr < c.addr := by
  have := b.addr_lt_payload
  have := b.payload_le_stop
  unfold Apart at h
  omega

def Ordered (bs : List Block) : Prop := bs.Pairwise Apart

/-- Every block, and the pointer handed out for it, lies in `[lo, hi)`. -/
def Within (lo hi : ℕ) (bs : List Block) : Prop := ∀ b ∈ bs, lo ≤ b.addr ∧ b.payload < hi ∧ b.stop ≤ hi

theorem Within.mono {hi' : ℕ} (h : Within lo hi bs) (hh : hi ≤ hi') :
    Within lo hi' bs := fun b hb =>
  ⟨(h b hb).1, (h b hb).2.1.trans_le hh, (h b hb).2.2.trans hh⟩

theorem Ordered.eq_or_apart : ∀ {bs : List Block}, Ordered bs → ∀ b ∈ bs, ∀ c ∈ bs,
    b = c ∨ Apart b c ∨ Apart c b
  | [], _ => by simp
  | x :: xs, h => by
    obtain ⟨hx, hxs⟩ := pairwise_cons.mp h
    intro b hb c hc
    rcases mem_cons.mp hb with hb' | hb' <;> rcases mem_cons.mp hc with hc' | hc'
    · exact .inl (hb'.trans hc'.symm)
    · exact .inr (.inl (hb' ▸ hx c hc'))
    · exact .inr (.inr (hc' ▸ hx b hb'))
    · exact Ordered.eq_or_apart hxs b hb' c hc'

theorem Ordered.eq_of_addr (h : Ordered bs) (hb : b ∈ bs)
    (hc : c ∈ bs) (e : b.addr = c.addr) : b = c := by
  rcases h.eq_or_apart b hb c hc with h | h | h
  · exact h
  · exact absurd e (Nat.ne_of_lt h.addr_lt)
  · exact absurd e (Nat.ne_of_gt h.addr_lt)

theorem Ordered.payload_disjoint (h : Ordered bs) (hb : b ∈ bs)
    (hc : c ∈ bs) (hne : b ≠ c) : Disjoint b.payloadRange c.payloadRange := by
  rw [Set.disjoint_left]
  rintro x ⟨hx1, hx2⟩ ⟨hy1, hy2⟩
  have hb' := b.addr_lt_payload
  have hc' := c.addr_lt_payload
  rcases h.eq_or_apart b hb c hc with h | h | h
  · exact hne h
  · unfold Apart at h; omega
  · unfold Apart at h; omega

theorem Ordered.payload_header_disjoint (h : Ordered bs)
    (hb : b ∈ bs) (hc : c ∈ bs) : Disjoint b.payloadRange c.headerRange := by
  rw [Set.disjoint_left]
  rintro x ⟨hx1, hx2⟩ ⟨hy1, hy2⟩
  have hb' := b.addr_lt_payload
  have hc' := c.payload_le_stop
  rcases h.eq_or_apart b hb c hc with rfl | h | h
  · omega
  · unfold Apart at h; omega
  · unfold Apart at h; omega

/-! ## Handing out a block -/

/-- The block `b` handed out for a request of `size` bytes. -/
def takeBlock (size : ℕ) (b : Block) : List Block :=
  if size + hdr + 16 < b.size then
    [{ b with size := size, free := false },
      { addr := b.addr + hdr + size, size := b.size - size - hdr, free := true }]
  else [{ b with free := false }]

theorem takeBlock_head (hfit : size ≤ b.size) :
    ∃ c ∈ takeBlock size b, c.addr = b.addr ∧ c.free = false ∧ size ≤ c.size := by
  unfold takeBlock
  split_ifs
  · exact ⟨_, mem_cons_self, rfl, rfl, le_rfl⟩
  · exact ⟨_, mem_cons_self, rfl, rfl, hfit⟩

/-- `c` is a piece of `b`: it lies inside `b` and starts a non-empty payload or that of `b`. -/
def Piece (b c : Block) : Prop :=
  b.addr ≤ c.addr ∧ c.stop ≤ b.stop ∧ (c.payload = b.payload ∨ c.payload < c.stop)

theorem takeBlock_mem (h : c ∈ takeBlock size b) : Piece b c := by
  unfold takeBlock at h
  simp only [Piece, Block.stop, Block.payload]
  split_ifs at h with hs
  · simp only [mem_cons, not_mem_nil, or_false] at h
    rcases h with rfl | rfl
    · exact ⟨le_rfl, by simp only; omega, .inl rfl⟩
    · exact ⟨by simp only; omega, by simp only; omega, .inr (by simp only; omega)⟩
  · simp only [mem_cons, not_mem_nil, or_false] at h
    subst h
    simp

theorem takeBlock_ordered (size : ℕ) (b : Block) : Ordered (takeBlock size b) := by
  unfold takeBlock Ordered
  split_ifs
  · simp [Apart, Block.stop]
  · simp

theorem Ordered.replace (h : Ordered (xs ++ b :: zs))
    (hy : Ordered ys) (hin : ∀ c ∈ ys, Piece b c) : Ordered (xs ++ ys ++ zs) := by
  obtain ⟨hx, hbz, hxz⟩ := pairwise_append.mp h
  obtain ⟨hb, hz⟩ := pairwise_cons.mp hbz
  rw [append_assoc]
  refine pairwise_append.mpr ⟨hx, pairwise_append.mpr ⟨hy, hz, fun c hc z hz' => ?_⟩,
    fun x hx' w hw => ?_⟩
  · exact (hin c hc).2.1.trans (hb z hz')
  · rcases mem_append.mp hw with hw | hw
    · exact (hxz x hx' b mem_cons_self).trans (hin w hw).1
    · exact hxz x hx' w (mem_cons_of_mem _ hw)

theorem Within.replace (h : Within lo hi (xs ++ b :: zs)) (hin : ∀ c ∈ ys, Piece b c) :
    Within lo hi (xs ++ ys ++ zs) := by
  intro c hc
  obtain ⟨hb1, hb2, hb3⟩ := h b (by simp)
  rw [append_assoc, mem_append, mem_append] at hc
  rcases hc with hc | hc | hc
  · exact h c (by simp [hc])
  · obtain ⟨h1, h2, h3⟩ := hin c hc
    rcases h3 with h3 | h3 <;> omega
  · exact h c (by simp [hc])

/-! ## Merging neighbours -/

/-- `b` swallows its successor `c`. -/
def joinBlock (b c : Block) : Block := { b with size := b.size + (hdr + c.size) }

theorem joinBlock_stop_le (h : Apart b c) : (joinBlock b c).stop ≤ c.stop := by
  simp only [Apart, Block.stop, joinBlock] at *
  omega

/-- The coalescing walk on a list: a free block swallows its free successors. -/
def coalesce : List Block → List Block
  | [] => []
  | [b] => [b]
  | b :: c :: bs =>
    if b.free = true ∧ c.free = true then coalesce (joinBlock b c :: bs)
    else b :: coalesce (c :: bs)
termination_by bs => bs.length

theorem Ordered.join (h : Ordered (xs ++ b :: c :: zs)) : Ordered (xs ++ joinBlock b c :: zs) := by
  obtain ⟨hx, hbz, hxz⟩ := pairwise_append.mp h
  obtain ⟨hb, hcz⟩ := pairwise_cons.mp hbz
  obtain ⟨hc, hz⟩ := pairwise_cons.mp hcz
  have hbc : Apart b c := hb c mem_cons_self
  refine pairwise_append.mpr ⟨hx, pairwise_cons.mpr ⟨fun z hz' => ?_, hz⟩, fun x hx' w hw => ?_⟩
  · exact (joinBlock_stop_le hbc).trans (hc z hz')
  · rcases mem_cons.mp hw with rfl | hw
    · exact hxz x hx' b mem_cons_self
    · exact hxz x hx' w (by simp [hw])

theorem Within.join (hbc : Apart b c)
    (h : Within lo hi (xs ++ b :: c :: zs)) : Within lo hi (xs ++ joinBlock b c :: zs) := by
  intro d hd
  rw [mem_append, mem_cons] at hd
  rcases hd with hd | rfl | hd
  · exact h d (by simp [hd])
  · exact ⟨(h b (by simp)).1, (h b (by simp)).2.1, (joinBlock_stop_le hbc).trans (h c (by simp)).2.2⟩
  · exact h d (by simp [hd])

theorem Ordered.apart_of_append (h : Ordered (xs ++ b :: c :: zs)) : Apart b c :=
  rel_of_pairwise_cons (pairwise_append.mp h).2.1 mem_cons_self

theorem coalesce_spec (lo hi : ℕ) : ∀ (bs xs : List Block), Ordered (xs ++ bs) →
    Within lo hi (xs ++ bs) → Ordered (xs ++ coalesce bs) ∧ Within lo hi (xs ++ coalesce bs) := by
  intro bs
  induction bs using coalesce.induct with
  | case1 =>
    intro xs ho hw
    rw [coalesce]
    exact ⟨ho, hw⟩
  | case2 b =>
    intro xs ho hw
    rw [coalesce]
    exact ⟨ho, hw⟩
  | case3 b c bs hfree ih =>
    intro xs ho hw
    rw [coalesce, if_pos hfree]
    exact ih xs ho.join (hw.join ho.apart_of_append)
  | case4 b c bs hfree ih =>
    intro xs ho hw
    have e : xs ++ b :: c :: bs = (xs ++ [b]) ++ c :: bs := by simp
    rw [e] at ho hw
    rw [coalesce, if_neg hfree]
    simpa using ih (xs ++ [b]) ho hw

theorem mem_coalesce_iff {d : Block} (hdf : d.free = false) : d ∈ coalesce bs ↔ d ∈ bs := by
  induction bs using coalesce.induct with
  | case1 => rw [coalesce]
  | case2 b => rw [coalesce]
  | case3 b c bs hfree ih =>
    have hdb : d ≠ b := by rintro rfl; simp [hdf] at hfree
    have hdc : d ≠ c := by rintro rfl; simp [hdf] at hfree
    have hdj : d ≠ joinBlock b c := by rintro rfl; simp [joinBlock, hfree.1] at hdf
    rw [coalesce, if_pos hfree, ih]
    simp [hdb, hdc, hdj]
  | case4 b c bs hfree ih => rw [coalesce, if_neg hfree, mem_cons, ih, ← mem_cons]

theorem coalesce_ne_nil (h : bs ≠ []) : coalesce bs ≠ [] := by
  induction bs using coalesce.induct with
  | case1 => exact absurd rfl h
  | case2 b => simp [coalesce]
  | case3 b c bs hfree ih => rw [coalesce, if_pos hfree]; exact ih (by simp)
  | case4 b c bs hfree ih => rw [coalesce, if_neg hfree]; simp

end KeonOS
