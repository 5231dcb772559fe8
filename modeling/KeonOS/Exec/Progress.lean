import KeonOS.Exec.Segments

/-!
# Loading succeeds when the frames suffice

Every page costs four frames at most, one for itself and three for tables. A loader that starts with
that many free frames ends well, and every stack page and image page is then owned.

* **`kexLoad_total`**: so does `kex_load`, and `LoadsProgram` says what it has done.
-/

namespace KeonOS

open Word

/-- `n` frames are free, and the allocator does not hand out frame 0. -/
structure HasFrames (n : ℕ) (s : Mmu) : Prop where
  zero : s.pfa.isUsed 0 = true
  card : n ≤ s.pfa.freeFrames.card

instance (n : ℕ) (s : Mmu) : Decidable (HasFrames n s) :=
  decidable_of_iff (s.pfa.isUsed 0 = true ∧ n ≤ s.pfa.freeFrames.card)
    ⟨fun h => ⟨h.1, h.2⟩, fun h => ⟨h.1, h.2⟩⟩

section Loops

variable {s : LoadState} {own : ℕ → Option ℕ} {a m n : ℕ} {f : KFile} {ph : Phdr}

theorem HasFrames.sameTables {s s' : Mmu} (h : HasFrames n s) (hs : SameTables s s') :
    HasFrames n s' := by
  obtain ⟨h0, hc⟩ := h
  exact ⟨by rwa [hs.pfa], by rwa [hs.pfa]⟩

theorem HasFrames.mono {s : Mmu} (h : HasFrames n s) (hm : m ≤ n) : HasFrames m s :=
  ⟨h.zero, hm.trans h.card⟩

theorem HasFrames.mapsFresh {s : Mmu} (h : HasFrames (m + 4) s) (hw : WellFormed s.root s) (v : ℕ) :
    ∃ f s₁, pfaAllocFrame s = (f * 4096, s₁) ∧
      MapsFresh s (pagingMapPage s₁ v (f * 4096) userFlags) v f userFlags ∧
      HasFrames m (pagingMapPage s₁ v (f * 4096) userFlags) := by
  have hcard := h.card
  obtain ⟨f, s₁, halloc, hm, hc⟩ := mapsFresh_of_card v hw h.zero (by omega)
    (show userFlags < 4096 by decide)
  exact ⟨f, s₁, halloc, hm, hm.used 0 h.zero, by omega⟩

theorem store_of_some {byte : ℕ → UInt8} {mmu : Mmu} (h : s.mmu.storeBytes byte a n = some mmu) :
    ∃ s', s.store byte a n = (.ok, s') ∧ s'.mmu = mmu :=
  ⟨{ s.note (.write a n) with mmu := mmu }, by rw [LoadState.store, h], rfl⟩

theorem loadPage_total (ho : Owns s.mmu own) (hal : a % 4096 = 0) (hle : a + 4096 ≤ userEnd)
    (hf : HasFrames (m + 4) s.mmu) : ∃ s', loadPage s a = (.ok, s') ∧ HasFrames m s'.mmu := by
  have hu : userEnd = 2 ^ 47 := rfl
  obtain ⟨g, s₁, halloc, hm, hf₁⟩ := hf.mapsFresh ho.wf a
  obtain ⟨ho₁, -⟩ := ho.mapFresh hm (by omega)
  have hown : ∀ k < 4096, ∃ g', Function.update own (a / 4096) (some g) ((a + k) / 4096) = some g' :=
    fun k hk => ⟨g, by rw [show (a + k) / 4096 = a / 4096 by omega, Function.update_self]⟩
  obtain ⟨mmu, hst, -, hsame, -⟩ := Owns.storeBytes (fun _ => 0) ho₁ (by omega) hown
  have hg0 : g * 4096 ≠ 0 := by
    have := hm.ne_zero
    omega
  obtain ⟨s', hs', rfl⟩ := @store_of_some { s.note (.map a) with
    mmu := pagingMapPage s₁ a (g * 4096) userFlags } a 4096 (fun _ => 0) mmu hst
  refine ⟨s', ?_, hf₁.sameTables hsame⟩
  rw [loadPage, halloc]
  dsimp only
  rw [if_neg hg0, hs']

theorem loadPages_total : ∀ {n a : ℕ} {s : LoadState} {own : ℕ → Option ℕ}, Owns s.mmu own →
    a % 4096 = 0 → a + 4096 * n ≤ userEnd → HasFrames (m + 4 * n) s.mmu →
    ∃ s', loadPages s a n = (.ok, s') ∧ HasFrames m s'.mmu
  | 0, _, s, _, _, _, _, hf => ⟨s, rfl, hf⟩
  | n + 1, a, s, own, ho, hal, hle, hf => by
    have hle₁ : a + 4096 ≤ a + 4096 * (n + 1) :=
      Nat.add_le_add_left (Nat.le_mul_of_pos_right 4096 n.succ_pos) a
    have hle₂ : a + 4096 + 4096 * n ≤ a + 4096 * (n + 1) := by omega
    obtain ⟨s₁, hp, hf₁⟩ := loadPage_total (m := m + 4 * n) ho hal (hle₁.trans hle) hf
    obtain ⟨g, ho₁, -, -⟩ := loadPage_spec ho hal (hle₁.trans hle) hp
    obtain ⟨s', hl, hf'⟩ := loadPages_total ho₁ (by omega) (hle₂.trans hle) hf₁
    exact ⟨s', by rw [loadPages, hp]; exact hl, hf'⟩

def segmentPages (ph : Phdr) : ℕ := (ph.pVaddr + ph.pMemsz + 4095) / 4096 - ph.pVaddr / 4096

theorem segPages_snd (h : ph.pVaddr + ph.pMemsz ≤ userEnd) :
    (segPages ph.pVaddr (ph.pVaddr + ph.pMemsz)).2 = segmentPages ph := by
  have hu : userEnd = 2 ^ 47 := rfl
  rw [segPages, alignUp64_of_lt (by omega), alignUp, alignDown, alignDown, segmentPages]
  omega

theorem loadSegment_total (ho : Owns s.mmu own) (hg : GoodSegment f ph) (hn : 0 < ph.pMemsz)
    (hf : HasFrames (m + 4 * segmentPages ph) s.mmu) :
    ∃ s', loadSegment f s ph.pVaddr (ph.pVaddr + ph.pMemsz) ph.pOffset ph.pFilesz = (.ok, s') ∧
      HasFrames m s'.mmu := by
  have hu : userEnd = 2 ^ 47 := rfl
  have hle := hg.le_user
  have hfs := hg.filesz_le
  obtain ⟨hal, hle₁, hpages⟩ := segPages_spec ph hle hn
  rw [← segPages_snd hle] at hf
  obtain ⟨s₁, hp, hf₁⟩ := loadPages_total ho hal hle₁ hf
  obtain ⟨own₁, hl, -⟩ := loadPages_spec ho hal hle₁ hp
  simp only [hpages] at hl
  rw [loadSegment, hp]
  dsimp only
  by_cases hfs0 : 0 < ph.pFilesz
  · obtain ⟨mmu, hst, -, hsame, -⟩ := Owns.storeBytes (a := ph.pVaddr) (n := ph.pFilesz)
      (f.readByte ph.pOffset) hl.owns (by omega)
      fun k hk => hl.mem _ (HasPage.of_inSegment ⟨by omega, by omega⟩)
    obtain ⟨s', hs', rfl⟩ := store_of_some hst
    rw [if_pos hfs0, KFile.readLen_of_le hg.in_file]
    exact ⟨s', hs', hf₁.sameTables hsame⟩
  · rw [if_neg hfs0]
    exact ⟨s₁, rfl, hf₁⟩

/-- The number of pages that `kex_load` maps for its segments. -/
def imagePages : List Phdr → ℕ
  | [] => 0
  | ph :: phs => (if Loadable ph then segmentPages ph else 0) + imagePages phs

theorem kexSegments_total : ∀ {phs : List Phdr} {s : LoadState} {own : ℕ → Option ℕ}
    {minV maxV : ℕ}, Owns s.mmu own →
    (∀ ph ∈ phs, ph.pVaddr < 2 ^ 64 ∧ (Loadable ph → GoodSegment f ph)) →
    HasFrames (m + 4 * imagePages phs) s.mmu →
    ∃ s' minV' maxV', kexSegments f phs s minV maxV = (.ok, s', minV', maxV') ∧ HasFrames m s'.mmu
  | [], s, _, minV, maxV, _, _, hf => ⟨s, minV, maxV, rfl, hf⟩
  | ph :: phs, s, own, minV, maxV, ho, hg, hf => by
    have hgs : ∀ q ∈ phs, q.pVaddr < 2 ^ 64 ∧ (Loadable q → GoodSegment f q) :=
      fun q hq => hg q (List.mem_cons_of_mem _ hq)
    obtain ⟨hv, hgp⟩ := hg ph List.mem_cons_self
    rw [imagePages] at hf
    by_cases hl : Loadable ph
    · have hgp := hgp hl
      have hn := hl.2
      have hu : userEnd = 2 ^ 47 := rfl
      have hle := hgp.le_user
      rw [if_pos hl] at hf
      obtain ⟨s₁, hseg, hf₁⟩ := loadSegment_total (m := m + 4 * imagePages phs) ho hgp hn
        (hf.mono (by omega))
      obtain ⟨own₁, hl₁, -⟩ := loadSegment_spec ho hgp hn hseg
      rw [kexSegments, if_neg (not_not.2 hl.1), add64_of_lt (by omega), if_neg (by omega), hseg]
      exact kexSegments_total hl₁.owns hgs hf₁
    · rw [if_neg hl, Nat.zero_add] at hf
      obtain ⟨s', minV', maxV', h, hf'⟩ := @kexSegments_total phs s own minV maxV ho hgs hf
      refine ⟨s', minV', maxV', ?_, hf'⟩
      rw [← h, kexSegments]
      by_cases ht : ph.pType = ptLoad
      · have hn : ph.pMemsz = 0 := by
          by_contra hn
          exact hl ⟨ht, by omega⟩
        rw [if_neg (not_not.2 ht), hn, add64_of_lt hv, if_pos (Nat.add_zero _)]
      · rw [if_pos ht]

abbrev stackPage : ℕ := userStack / 4096

theorem stackPages_total : ∀ {n i : ℕ} {s : LoadState} {own : ℕ → Option ℕ}, Owns s.mmu own →
    i + n ≤ 4 → HasFrames (m + 4 * n) s.mmu →
    ∃ s' own', stackPages s i n = (.ok, s') ∧ HasFrames m s'.mmu ∧
      LoadsPages (fun p => stackPage + i ≤ p ∧ p < stackPage + i + n) s.mmu own s'.mmu own'
  | 0, i, s, own, ho, _, hf =>
    ⟨s, own, rfl, hf, ho, fun p hp => by omega, fun _ _ => rfl, fun _ => .refl ho⟩
  | n + 1, i, s, own, ho, hi, hf => by
    obtain ⟨g, s₁, halloc, hm, hf₁⟩ := HasFrames.mapsFresh (m := m + 4 * n) hf ho.wf
      (userStack + i * 4096)
    have hlt : userStack + i * 4096 < 2 ^ 47 := by
      rw [show userStack = 0x700000000000 from rfl]
      omega
    have hpg : (userStack + i * 4096) / 4096 = stackPage + i := by
      rw [Nat.add_mul_div_right _ _ (by norm_num)]
    obtain ⟨ho₁, -⟩ := ho.mapFresh hm hlt
    have hg₁ := Grows.of_mapsFresh ho hm hlt
    rw [hpg] at ho₁ hg₁
    have hg0 : g * 4096 ≠ 0 := by
      have := hm.ne_zero
      omega
    obtain ⟨s', own', hst, hf', hl⟩ := @stackPages_total n (i + 1)
      { s.note (.map (userStack + i * 4096)) with
        mmu := pagingMapPage s₁ (userStack + i * 4096) (g * 4096) userFlags } _ ho₁ (by omega) hf₁
    refine ⟨s', own', ?_, hf', hl.owns, fun p hp => ?_, fun p hp => ?_, fun hn => ?_⟩
    · rw [stackPages, halloc]
      dsimp only
      rw [if_neg hg0, hst]
    · by_cases hpi : p = stackPage + i
      · exact ⟨g, by rw [hl.notMem p (by omega), hpi, Function.update_self]⟩
      · exact hl.mem p (by omega)
    · rw [hl.notMem p (by omega), Function.update_of_ne (by omega)]
    · refine (hg₁ (hn _ (by omega))).trans (hl.grows fun p hp => ?_)
      rw [Function.update_of_ne (by omega), hn p (by omega)]

end Loops

/-! ## `kex_load` -/

def StackPage (p : ℕ) : Prop := stackPage ≤ p ∧ p < stackPage + 4

/-- The bounds of the image that `kex_load` records. -/
def imageBounds (phs : List Phdr) : ℕ × ℕ := imageRange phs (2 ^ 64 - 1) 0

structure LoadsProgram (f : KFile) (phs : List Phdr) (s s' : Mmu) (own : ℕ → Option ℕ)
    (t : Thread) : Prop where
  owns : Owns s' own
  mem : ∀ p, StackPage p ∨ ImagePage phs p ↔ ∃ g, own p = some g
  grows : PagesDisjoint phs → (∀ p, ImagePage phs p → ¬ StackPage p) → Grows s (fun _ => none) s' own
  isUser : t.isUser = true
  imageStart : t.userImageStart = alignDown 4096 (imageBounds phs).1
  imageEnd : t.userImageEnd = alignUp 4096 (imageBounds phs).2
  heapBreak : t.userHeapBreak = alignUp 4096 (max (imageBounds phs).2 heapStartStandard)
  le_user : (imageBounds phs).2 ≤ userEnd
  bounds : ∀ ph ∈ phs, Loadable ph →
    (imageBounds phs).1 ≤ ph.pVaddr ∧ ph.pVaddr + ph.pMemsz ≤ (imageBounds phs).2

theorem kexLoad_eq_loaded {s : Mmu} {id minV maxV : ℕ} {f : KFile} {slack : Mem} {phs : List Phdr}
    {s₁ s' : LoadState} (hc : kexCheck f slack = some phs) (hst : stackPages ⟨s, []⟩ 0 4 = (.ok, s₁))
    (hseg : kexSegments f phs s₁ (2 ^ 64 - 1) 0 = (.ok, s', minV, maxV)) :
    kexLoad s id f slack = .loaded s' { (newThread id).setImage minV maxV with
      userHeapBreak := alignUp64 4096 (max maxV heapStartStandard) } := by
  rw [kexLoad, hc, hst]
  dsimp only
  rw [hseg]

theorem kexLoad_total {s : Mmu} {id m : ℕ} {f : KFile} {slack : Mem} {phs : List Phdr}
    (hw : WellFormed s.root s) (hc : kexCheck f slack = some phs)
    (hg : ∀ ph ∈ phs, ph.pVaddr < 2 ^ 64 ∧ (Loadable ph → GoodSegment f ph))
    (hf : HasFrames (m + 4 * (4 + imagePages phs)) s) :
    ∃ s' t own, kexLoad s id f slack = .loaded s' t ∧ HasFrames m s'.mmu ∧
      LoadsProgram f phs s s'.mmu own t := by
  have hu : userEnd = 2 ^ 47 := rfl
  obtain ⟨s₁, own₁, hst, hf₁, hl₁⟩ := @stackPages_total (m + 4 * imagePages phs) 4 0 ⟨s, []⟩ _
    (Owns.empty hw) le_rfl (hf.mono (by omega))
  obtain ⟨s', minV, maxV, hseg, hf'⟩ := @kexSegments_total m f phs s₁ own₁ (2 ^ 64 - 1) 0 hl₁.owns hg hf₁
  obtain ⟨⟨own, hi⟩, hbnd, -, -, hmax, hall⟩ := kexSegments_spec hl₁.owns hg (Nat.zero_le _) hseg
  obtain ⟨rfl, rfl⟩ : minV = (imageBounds phs).1 ∧ maxV = (imageBounds phs).2 := Prod.mk.injEq .. ▸ hbnd
  have hmem₁ : ∀ p, StackPage p ↔ ∃ g, own₁ p = some g := by
    intro p
    refine ⟨fun hp => hl₁.mem p hp, fun ⟨g, hg⟩ => ?_⟩
    by_contra hp
    rw [hl₁.notMem p hp] at hg
    cases hg
  refine ⟨s', { (newThread id).setImage (imageBounds phs).1 (imageBounds phs).2 with
      userHeapBreak := alignUp64 4096 (max (imageBounds phs).2 heapStartStandard) }, own,
    kexLoad_eq_loaded hc hst hseg, hf', hi.owns, fun p => ?_, fun hd hsep => ?_, rfl, rfl, ?_, ?_,
    hmax, hall⟩
  · by_cases hp : ImagePage phs p
    · exact iff_of_true (.inr hp) (hi.mem p hp)
    · rw [hi.notMem p hp, ← hmem₁, or_iff_left hp]
  · refine (hl₁.grows fun _ _ => rfl).trans (hi.grows hd fun p hp => ?_)
    cases ho : own₁ p with
    | none => rfl
    | some g => exact absurd ((hmem₁ p).2 ⟨g, ho⟩) (hsep p hp)
  · exact alignUp64_of_lt (by omega)
  · refine alignUp64_of_lt ?_
    rw [show heapStartStandard = 0x40000000 from rfl]
    omega

end KeonOS
