import KeonOS.Mm.Guard
import KeonOS.Exec.Confine
import KeonOS.Exec.Image

/-!
# Loaders and the kernel half

A loader whose accesses stay in the lower half changes no mapping of the kernel half and no frame
that was in use, as long as it writes only to pages that it has mapped or that are its own.

* **`loaders_confined`**: `kex_load` and `kdl_load` under the conditions on the file, which are necessary
  for a load that ends well to stay in its range.
-/

namespace KeonOS

open Word

section Loops

variable {K W : ℕ → Prop} {s s' : LoadState} {st : Status} {a n : ℕ} {f : KFile}

variable {byte : ℕ → UInt8} {lo hi base : ℕ}

theorem store_confines (h : Guard W K s.mmu) (hle : n = 0 ∨ a + n ≤ userEnd)
    (hw : ∀ k < n, W ((a + k) / 4096)) (hs : s.store byte a n = (st, s')) (hst : st ≠ .fault) :
    Confines K W s.mmu W s'.mmu := by
  have hok : st = .ok := by
    rw [LoadState.store] at hs
    cases hb : s.mmu.storeBytes byte a n with
    | none =>
      rw [hb] at hs
      cases hs
      exact absurd rfl hst
    | some m =>
      rw [hb] at hs
      cases hs
      rfl
  subst hok
  exact h.storeBytes byte hle hw (store_ok hs)

theorem store_of_pte_none (h : s.mmu.pte a = none) (ha : a < 2 ^ 64)
    (hn : 0 < n) (hs : s.store byte a n = (st, s')) : st = .fault := by
  rw [LoadState.store, storeBytes_of_pte_none h ha hn] at hs
  cases hs
  rfl

theorem loadPage_confines (h : Guard W K s.mmu) (hal : a % 4096 = 0) (hle : a + 4096 ≤ userEnd)
    (hs : loadPage s a = (st, s')) (hst : st ≠ .fault) :
    ∃ W', Confines K W s.mmu W' s'.mmu ∧ (st = .ok → W' (a / 4096)) := by
  have hu : userEnd = 2 ^ 47 := rfl
  rw [loadPage] at hs
  rcases halloc : pfaAllocFrame s.mmu with ⟨phys, s₁⟩
  rw [halloc] at hs
  dsimp only at hs
  split_ifs at hs with h0
  · cases hs
    subst h0
    exact ⟨W, h.allocFail halloc, fun h => Status.noConfusion h⟩
  obtain ⟨W', hc, hw⟩ := h.allocMap (v := a) (by omega) halloc h0
  have hw' : W' (a / 4096) := hw.resolve_right fun hn =>
    hst (store_of_pte_none hn (by omega) (by norm_num) hs)
  refine ⟨W', hc.trans ?_, fun _ => hw'⟩
  refine store_confines hc.guard (.inr hle) (fun k hk => ?_) hs hst
  rwa [show (a + k) / 4096 = a / 4096 by omega]

theorem loadPages_confines : ∀ {n a : ℕ} {s : LoadState} {W : ℕ → Prop}, Guard W K s.mmu →
    a % 4096 = 0 → PagesIn 0 userEnd a n → loadPages s a n = (st, s') → st ≠ .fault →
    ∃ W', Confines K W s.mmu W' s'.mmu ∧ (st = .ok → ∀ p, a / 4096 ≤ p → p < a / 4096 + n → W' p)
  | 0, _, s, W, h, _, _, hs, _ => by
    cases hs
    exact ⟨W, .refl h, fun _ p h1 h2 => by omega⟩
  | n + 1, a, s, W, h, hal, hle, hs, hst => by
    have hpg : (0 ≤ a ∧ a + 4096 ≤ userEnd) ∧ PagesIn 0 userEnd (a + 4096) n := by
      unfold PagesIn at hle ⊢
      omega
    rw [loadPages] at hs
    rcases hp : loadPage s a with ⟨st₁, s₁⟩
    rw [hp] at hs
    cases st₁
    case ok =>
      obtain ⟨W₁, hc₁, hw₁⟩ := loadPage_confines h hal hpg.1.2 hp Status.noConfusion
      obtain ⟨W', hc, hw⟩ := loadPages_confines hc₁.guard (by omega) hpg.2 hs hst
      refine ⟨W', hc₁.trans hc, fun hok p h1 h2 => ?_⟩
      by_cases hpa : p = a / 4096
      · rw [hpa]
        exact hc.sub _ (hw₁ rfl)
      · exact hw hok p (by omega) (by omega)
    all_goals
      obtain ⟨W₁, hc₁, -⟩ := loadPage_confines h hal hpg.1.2 (hp.trans hs) hst
      cases hs
      exact ⟨W₁, hc₁, fun h => Status.noConfusion h⟩

/-- The file bytes of a segment go to its pages, or to pages in `W`. -/
def FileIn (W : ℕ → Prop) (f : KFile) (vaddrStart vaddrEnd fileOffset fileSize : ℕ) : Prop :=
  0 < fileSize → ∀ k < f.readLen fileOffset fileSize, W ((vaddrStart + k) / 4096) ∨
    (vaddrStart + k) / 4096 < (segPages vaddrStart vaddrEnd).1 / 4096 + (segPages vaddrStart vaddrEnd).2

theorem loadSegment_confines {vs ve off size : ℕ} (h : Guard W K s.mmu)
    (hb : SegBounded 0 userEnd f vs ve off size) (hf : FileIn W f vs ve off size)
    (hs : loadSegment f s vs ve off size = (st, s')) (hst : st ≠ .fault) :
    ∃ W', Confines K W s.mmu W' s'.mmu := by
  have hal : (segPages vs ve).1 % 4096 = 0 := by
    rw [segPages, alignDown]
    omega
  have hlo : (segPages vs ve).1 / 4096 = vs / 4096 := by
    rw [segPages, alignDown]
    omega
  rw [loadSegment] at hs
  rcases hp : loadPages s (segPages vs ve).1 (segPages vs ve).2 with ⟨st₁, s₁⟩
  rw [hp] at hs
  cases st₁
  case ok =>
    obtain ⟨W', hc, hw⟩ := loadPages_confines h hal hb.1 hp Status.noConfusion
    split_ifs at hs with hsize
    · refine ⟨W', hc.trans ?_⟩
      refine store_confines hc.guard ((hb.2 hsize).imp_right And.right) (fun k hk => ?_) hs hst
      rcases hf hsize k hk with hk' | hk'
      · exact hc.sub _ hk'
      · exact hw rfl _ (by omega) hk'
    · cases hs
      exact ⟨W', hc⟩
  all_goals
    obtain ⟨W₁, hc₁, -⟩ := loadPages_confines h hal hb.1 (hp.trans hs) hst
    exact ⟨W₁, hc₁⟩

/-- The file bytes of every segment go to its pages. -/
def KexFilesIn (f : KFile) (phs : List Phdr) : Prop := ∀ ph ∈ phs, Mapped ph →
    FileIn (fun _ => False) f ph.pVaddr (add64 ph.pVaddr ph.pMemsz) ph.pOffset ph.pFilesz

instance (f : KFile) (phs : List Phdr) : Decidable (KexFilesIn f phs) :=
  inferInstanceAs (Decidable (∀ ph ∈ phs, _ → _ → ∀ k < _, False ∨ _))

theorem kexSegments_confines {minV' maxV' : ℕ} : ∀ {phs : List Phdr} {s : LoadState} {W : ℕ → Prop}
    {minV maxV : ℕ}, Guard W K s.mmu → KexBounded 0 userEnd f phs → KexFilesIn f phs →
    kexSegments f phs s minV maxV = (st, s', minV', maxV') → st ≠ .fault →
    ∃ W', Confines K W s.mmu W' s'.mmu
  | [], s, W, _, _, h, _, _, hs, _ => by
    cases hs
    exact ⟨W, .refl h⟩
  | ph :: phs, s, W, minV, maxV, h, hb, hf, hs, hst => by
    obtain ⟨hb₁, hb₂⟩ := kexBounded_cons.1 hb
    obtain ⟨hf₁, hf₂⟩ := List.forall_mem_cons.1 hf
    rw [kexSegments] at hs
    by_cases hm : Mapped ph
    · rw [if_neg (not_not.2 hm.1)] at hs
      rw [if_neg hm.2] at hs
      have hf₁ : FileIn W f ph.pVaddr (add64 ph.pVaddr ph.pMemsz) ph.pOffset ph.pFilesz :=
        fun hsize k hk => (hf₁ hm hsize k hk).imp_left False.elim
      rcases hseg : loadSegment f s ph.pVaddr (add64 ph.pVaddr ph.pMemsz) ph.pOffset ph.pFilesz
        with ⟨st₁, s₁⟩
      rw [hseg] at hs
      cases st₁
      case ok =>
        obtain ⟨W₁, hc₁⟩ := loadSegment_confines h (hb₁ hm) hf₁ hseg Status.noConfusion
        obtain ⟨W', hc⟩ := kexSegments_confines hc₁.guard hb₂ hf₂ hs hst
        exact ⟨W', hc₁.trans hc⟩
      all_goals
        cases hs
        exact loadSegment_confines h (hb₁ hm) hf₁ hseg hst
    · by_cases ht : ph.pType = ptLoad
      · rw [if_neg (not_not.2 ht)] at hs
        rw [if_pos (by_contra fun h => hm ⟨ht, h⟩)] at hs
        exact kexSegments_confines h hb₂ hf₂ hs hst
      · rw [if_pos ht] at hs
        exact kexSegments_confines h hb₂ hf₂ hs hst

theorem stackPages_confines : ∀ {n i : ℕ} {s : LoadState} {W : ℕ → Prop}, Guard W K s.mmu →
    i + n ≤ 4 → stackPages s i n = (st, s') → ∃ W', Confines K W s.mmu W' s'.mmu
  | 0, _, s, W, h, _, hs => by
    cases hs
    exact ⟨W, .refl h⟩
  | n + 1, i, s, W, h, hi, hs => by
    rw [stackPages] at hs
    rcases halloc : pfaAllocFrame s.mmu with ⟨phys, s₁⟩
    rw [halloc] at hs
    dsimp only at hs
    split_ifs at hs with h0
    · cases hs
      subst h0
      exact ⟨W, h.allocFail halloc⟩
    have hlt : userStack + i * 4096 < 2 ^ 47 := by
      rw [show userStack = 0x700000000000 from rfl]
      omega
    obtain ⟨W₁, hc₁, -⟩ := h.allocMap hlt halloc h0
    obtain ⟨W', hc⟩ := stackPages_confines (W := W₁) (s := { s.note _ with mmu := _ }) hc₁.guard
      (by omega) hs
    exact ⟨W', hc₁.trans hc⟩

def PageIn (lo hi p : ℕ) : Prop := lo / 4096 ≤ p ∧ 4096 * p < hi

theorem kdlSegments_confines {dyn' : ℕ} (hhi : hi ≤ userEnd) :
    ∀ {phs : List Phdr} {s : LoadState} {W : ℕ → Prop} {dyn : ℕ}, Guard W K s.mmu →
    (∀ p, PageIn lo hi p → W p) → KdlBounded lo hi base f phs →
    kdlSegments f base phs s dyn = (st, s', dyn') → st ≠ .fault →
    ∃ W', Confines K W s.mmu W' s'.mmu
  | [], s, W, _, h, _, _, hs, _ => by
    cases hs
    exact ⟨W, .refl h⟩
  | ph :: phs, s, W, dyn, h, hW, hb, hs, hst => by
    obtain ⟨hb₁, hb₂⟩ := List.forall_mem_cons.1 hb
    rw [kdlSegments] at hs
    by_cases ht : ph.pType = ptLoad
    · rw [if_pos ht] at hs
      by_cases hz : add64 (add64 base ph.pVaddr) ph.pMemsz = add64 base ph.pVaddr
      · rw [if_pos hz] at hs
        exact kdlSegments_confines hhi h hW hb₂ hs hst
      rw [if_neg hz] at hs
      obtain ⟨hpages, hfile⟩ := hb₁ ht hz
      -- the range lies in the lower half, and its pages are in `W`
      have hsb : SegBounded 0 userEnd f (add64 base ph.pVaddr)
          (add64 (add64 base ph.pVaddr) ph.pMemsz) ph.pOffset ph.pFilesz := by
        refine ⟨hpages.imp_right fun hp => ⟨Nat.zero_le _, hp.2.trans hhi⟩, fun hsize => ?_⟩
        exact (hfile hsize).imp_right fun hp => ⟨Nat.zero_le _, hp.2.trans hhi⟩
      have hfi : FileIn W f (add64 base ph.pVaddr)
          (add64 (add64 base ph.pVaddr) ph.pMemsz) ph.pOffset ph.pFilesz := by
        refine fun hsize k hk => .inl (hW _ ?_)
        rcases hfile hsize with hlen | hlen
        · rw [hlen] at hk
          exact absurd hk (Nat.not_lt_zero k)
        · unfold PageIn
          omega
      rcases hseg : loadSegment f s (add64 base ph.pVaddr)
        (add64 (add64 base ph.pVaddr) ph.pMemsz) ph.pOffset ph.pFilesz with ⟨st₁, s₁⟩
      rw [hseg] at hs
      cases st₁
      case ok =>
        obtain ⟨W₁, hc₁⟩ := loadSegment_confines h hsb hfi hseg Status.noConfusion
        obtain ⟨W', hc⟩ := kdlSegments_confines hhi hc₁.guard (fun p hp => hc₁.sub p (hW p hp))
          hb₂ hs hst
        exact ⟨W', hc₁.trans hc⟩
      all_goals
        cases hs
        exact loadSegment_confines h hsb hfi hseg hst
    · split_ifs at hs
      · exact kdlSegments_confines hhi h hW hb₂ hs hst
      · exact kdlSegments_confines hhi h hW hb₂ hs hst

theorem relocateOne_confines (hhi : hi ≤ userEnd) (h : Guard W K s.mmu)
    (hW : ∀ p, PageIn lo hi p → W p) (hr : RelocIn lo hi base a s)
    (hs : relocateOne base a s = (st, s')) (hst : st ≠ .fault) :
    Confines K W s.mmu W s'.mmu := by
  unfold relocateOne at hs
  unfold RelocIn at hr
  rcases hread : readRela s.mmu base a with _ | _ | ⟨target, value⟩
  all_goals rw [hread] at hs hr
  · cases hs
    exact absurd rfl hst
  · cases hs
    exact .refl h
  · refine store_confines h (.inr (hr.2.trans hhi)) (fun k hk => hW _ ?_) hs hst
    unfold PageIn
    omega

theorem relocate_confines (hhi : hi ≤ userEnd) : ∀ {n a : ℕ} {s : LoadState},
    Guard W K s.mmu → (∀ p, PageIn lo hi p → W p) → RelocsIn lo hi base n a s →
    relocate base n a s = (st, s') → st ≠ .fault → Confines K W s.mmu W s'.mmu
  | 0, _, s, h, _, _, hs, _ => by
    cases hs
    exact .refl h
  | n + 1, a, s, h, hW, hr, hs, hst => by
    rw [relocate] at hs
    rw [RelocsIn] at hr
    rcases hone : relocateOne base a s with ⟨st₁, s₁⟩
    rw [hone] at hs hr
    cases st₁
    case ok =>
      have hc₁ := relocateOne_confines hhi h hW hr.1 hone Status.noConfusion
      exact hc₁.trans (relocate_confines hhi hc₁.guard hW hr.2 hs hst)
    all_goals
      exact relocateOne_confines hhi h hW hr.1 (hone.trans hs) hst

theorem kdlRelocate_confines {fuel dyn : ℕ} (hhi : hi ≤ userEnd) (h : Guard W K s.mmu)
    (hW : ∀ p, PageIn lo hi p → W p) (hr : KdlRelocsIn lo hi fuel base dyn s)
    (hs : kdlRelocate fuel base dyn s = (.ok, s')) : Confines K W s.mmu W s'.mmu := by
  rw [kdlRelocate] at hs
  rw [KdlRelocsIn] at hr
  split_ifs at hs hr
  · cases hs
    exact .refl h
  rcases hscan : scanDyn s.mmu base fuel dyn ⟨0, 0, 0⟩ with ⟨st₁, r⟩
  rw [hscan] at hs hr
  cases st₁
  case ok =>
    dsimp only at hs hr
    split_ifs at hs hr
    · exact relocate_confines hhi h hW hr hs Status.noConfusion
    · cases hs
      exact .refl h
  all_goals cases hs

end Loops

/-! ## The loaders -/

/-- The mappings of the kernel half and the frames of `K` are as they were. -/
structure KernelKept (K : ℕ → Prop) (s s' : Mmu) : Prop where
  pte : ∀ w, Canonical w → userEnd ≤ w → s'.pte w = s.pte w
  mem : ∀ x, K (x / 4096) → s'.mem x = s.mem x

variable {K : ℕ → Prop} {s' : LoadState}

theorem Confines.kernelKept {W W' : ℕ → Prop} {s s' : Mmu} (h : Confines K W s W' s') :
    KernelKept K s s' := by
  refine ⟨fun w hc hw => h.pte w hc fun hW => ?_, h.mem⟩
  have := h.guard.lower _ hW
  rw [show userEnd = 2 ^ 47 from rfl] at hw
  omega

def KexResult.Returned : KexResult → Prop
  | fault _ => False
  | _ => True

def KdlResult.Returned : KdlResult → Prop
  | stopped _ => False
  | _ => True

section Loaders

variable {s : Mmu} {id fuel : ℕ} {t : Thread} {f : KFile} {slack : Mem} {phs : List Phdr}

theorem kexLoad_inRange (hc : kexCheck f slack = some phs) (hb : KexBounded 0 userEnd f phs) :
    (kexLoad s id f slack).state.InRange 0 userEnd := by
  have hnil : LoadState.InRange ⟨s, []⟩ 0 userEnd := by simp [LoadState.InRange]
  have h₁ := @stackPages_logsIn 4 ⟨s, []⟩ 0 le_rfl
  rw [kexLoad, hc]
  rcases hst : stackPages ⟨s, []⟩ 0 4 with ⟨st, s₁⟩
  rw [hst] at h₁
  have hin₁ := h₁.sound hnil trivial
  cases st
  case ok =>
    dsimp only
    have h₂ := @kexSegments_logsIn 0 userEnd s₁ f phs (2 ^ 64 - 1) 0
    rcases hseg : kexSegments f phs s₁ (2 ^ 64 - 1) 0 with ⟨st, s₂, minV, maxV⟩
    rw [hseg] at h₂
    cases st <;> exact h₂.sound hin₁ hb
  all_goals exact hin₁

theorem kexBounded_of_loaded (hc : kexCheck f slack = some phs)
    (hl : kexLoad s id f slack = .loaded s' t) (hin : s'.InRange 0 userEnd) :
    KexBounded 0 userEnd f phs := by
  rw [kexLoad, hc] at hl
  rcases hst : stackPages ⟨s, []⟩ 0 4 with ⟨st, s₁⟩
  rw [hst] at hl
  cases st
  case ok =>
    dsimp only at hl
    have h₂ := @kexSegments_logsIn 0 userEnd s₁ f phs (2 ^ 64 - 1) 0
    rcases hseg : kexSegments f phs s₁ (2 ^ 64 - 1) 0 with ⟨st, s₂, minV, maxV⟩
    rw [hseg] at h₂ hl
    cases st
    case ok =>
      cases hl
      exact h₂.complete rfl hin
    all_goals cases hl
  all_goals cases hl

theorem kexLoad_kernelKept (hw : WellFormed s.root s) (hc : kexCheck f slack = some phs)
    (hb : KexBounded 0 userEnd f phs) (hf : KexFilesIn f phs)
    (hr : (kexLoad s id f slack).Returned) :
    KernelKept (DataFrame s) s (kexLoad s id f slack).state.mmu := by
  have hg : Guard (fun _ => False) (DataFrame s) s :=
    ⟨hw, fun _ h => h.elim, fun _ _ h => h.elim, fun _ h => h⟩
  rw [kexLoad, hc] at hr ⊢
  rcases hst : stackPages ⟨s, []⟩ 0 4 with ⟨st, s₁⟩
  obtain ⟨W₁, hc₁⟩ := stackPages_confines (s := ⟨s, []⟩) hg le_rfl hst
  rw [hst] at hr
  cases st
  case ok =>
    dsimp only at hr ⊢
    rcases hseg : kexSegments f phs s₁ (2 ^ 64 - 1) 0 with ⟨st, s₂, minV, maxV⟩
    rw [hseg] at hr
    have hrun : st ≠ .fault → KernelKept (DataFrame s) s s₂.mmu := fun hst => by
      obtain ⟨W', hc'⟩ := kexSegments_confines hc₁.guard hb hf hseg hst
      exact (hc₁.trans hc').kernelKept
    cases st
    case ok => exact hrun Status.noConfusion
    case noFrame => exact hrun Status.noConfusion
    all_goals exact hr.elim
  all_goals exact hc₁.kernelKept

def libEnd (t : Thread) (phs : List Phdr) : ℕ := loadBase t + libSize phs

/-- The relocations of a library have their targets in its range. -/
def RelocsBounded (fuel : ℕ) (s : Mmu) (t : Thread) (f : KFile) (phs : List Phdr) : Prop :=
  match kdlSegments f (loadBase t) phs ⟨s, []⟩ 0 with
  | (.ok, s, dyn) => KdlRelocsIn (loadBase t) (libEnd t phs) fuel (loadBase t) dyn s
  | _ => True

theorem kdlLoad_inRange (hc : kdlCheck f slack = some phs)
    (hb : KdlBounded (loadBase t) (libEnd t phs) (loadBase t) f phs)
    (hr : RelocsBounded fuel s t f phs) :
    (kdlLoad fuel s t f slack).state.InRange (loadBase t) (libEnd t phs) := by
  have hnil : LoadState.InRange ⟨s, []⟩ (loadBase t) (libEnd t phs) := by simp [LoadState.InRange]
  have h₁ := @kdlSegments_logsIn (loadBase t) (libEnd t phs) ⟨s, []⟩ f phs (loadBase t) 0
  rw [kdlLoad, hc]
  rw [RelocsBounded] at hr
  dsimp only
  rcases hseg : kdlSegments f (loadBase t) phs ⟨s, []⟩ 0 with ⟨st, s₁, dyn⟩
  rw [hseg] at h₁ hr
  have hin₁ := h₁.sound hnil hb
  cases st
  case ok =>
    dsimp only at hr ⊢
    have h₂ := @kdlRelocate_logsIn (loadBase t) (libEnd t phs) s₁ fuel (loadBase t) dyn
    rcases hrel : kdlRelocate fuel (loadBase t) dyn s₁ with ⟨st, s₂⟩
    rw [hrel] at h₂
    cases st <;> exact h₂.sound hin₁ hr
  all_goals exact hin₁

theorem kdlBounded_of_loaded {t' : Thread} {b : ℕ}
    (hc : kdlCheck f slack = some phs) (hl : kdlLoad fuel s t f slack = .loaded s' t' b)
    (hin : s'.InRange (loadBase t) (libEnd t phs)) :
    KdlBounded (loadBase t) (libEnd t phs) (loadBase t) f phs ∧ RelocsBounded fuel s t f phs := by
  have h₁ := @kdlSegments_logsIn (loadBase t) (libEnd t phs) ⟨s, []⟩ f phs (loadBase t) 0
  rw [kdlLoad, hc] at hl
  rw [RelocsBounded]
  dsimp only at hl
  rcases hseg : kdlSegments f (loadBase t) phs ⟨s, []⟩ 0 with ⟨st, s₁, dyn⟩
  rw [hseg] at h₁ hl
  cases st
  case ok =>
    dsimp only at hl ⊢
    have h₂ := @kdlRelocate_logsIn (loadBase t) (libEnd t phs) s₁ fuel (loadBase t) dyn
    rcases hrel : kdlRelocate fuel (loadBase t) dyn s₁ with ⟨st, s₂⟩
    rw [hrel] at h₂ hl
    cases st
    case ok =>
      cases hl
      exact ⟨h₁.complete rfl (h₂.before hin), h₂.complete rfl hin⟩
    all_goals cases hl
  all_goals cases hl

theorem kdlLoad_kernelKept (hg : Guard (PageIn (loadBase t) (libEnd t phs)) K s)
    (hc : kdlCheck f slack = some phs) (hu : libEnd t phs ≤ userEnd)
    (hb : KdlBounded (loadBase t) (libEnd t phs) (loadBase t) f phs)
    (hr : RelocsBounded fuel s t f phs) (hret : (kdlLoad fuel s t f slack).Returned) :
    KernelKept K s (kdlLoad fuel s t f slack).state.mmu := by
  rw [kdlLoad, hc] at hret ⊢
  rw [RelocsBounded] at hr
  dsimp only at hret ⊢
  rcases hseg : kdlSegments f (loadBase t) phs ⟨s, []⟩ 0 with ⟨st, s₁, dyn⟩
  rw [hseg] at hr hret
  have hrun : st ≠ .fault → ∃ W', Confines K (PageIn (loadBase t) (libEnd t phs)) s W' s₁.mmu :=
    kdlSegments_confines hu (s := ⟨s, []⟩) hg (fun _ hp => hp) hb hseg
  cases st
  case ok =>
    obtain ⟨W₁, hc₁⟩ := hrun Status.noConfusion
    dsimp only at hr hret ⊢
    rcases hrel : kdlRelocate fuel (loadBase t) dyn s₁ with ⟨st, s₂⟩
    rw [hrel] at hret
    cases st
    case ok =>
      exact (hc₁.trans (kdlRelocate_confines hu hc₁.guard hc₁.sub hr hrel)).kernelKept
    all_goals exact hret.elim
  case noFrame =>
    obtain ⟨W₁, hc₁⟩ := hrun Status.noConfusion
    exact hc₁.kernelKept
  all_goals exact hret.elim

end Loaders

/-! ## Confinement -/

/-- Loading `f` maps and writes the lower half only, and keeps the kernel half and all data frames. -/
structure KexConfined (s : Mmu) (id : ℕ) (f : KFile) (slack : Mem) : Prop where
  user : (kexLoad s id f slack).state.InRange 0 userEnd
  kernel : (kexLoad s id f slack).Returned → KernelKept (DataFrame s) s (kexLoad s id f slack).state.mmu

/-- Loading the library `f` maps and writes its range only and keeps the frames of `K`. -/
structure KdlConfined (K : ℕ → Prop) (fuel : ℕ) (s : Mmu) (t : Thread) (f : KFile) (slack : Mem)
    (phs : List Phdr) : Prop where
  range : (kdlLoad fuel s t f slack).state.InRange (loadBase t) (libEnd t phs)
  kernel : (kdlLoad fuel s t f slack).Returned → KernelKept K s (kdlLoad fuel s t f slack).state.mmu

/-- The first page of the kernel half is mapped for the kernel, to the frame of the root table. -/
def kernelTop : Mmu := pagingMapPage emptyTables 0xFFFF800000000000 0x1000 (ptePresent ||| pteRw)

def kernelSegment : KFile where
  size := 195
  byte k := (programBytes etExec [⟨ptNote, 176, 0, 19, 19⟩,
    ⟨ptLoad, 0, 0xFFFF800000000000, 0, 1⟩]).getD k 0
  size_lt := by norm_num

theorem wellFormed_kernelTop : WellFormed kernelTop.root kernelTop :=
  (pagingMapPage_spec wellFormed_emptyTables (by norm_num) (by decide)).wf

theorem loadPage_canonical {s : LoadState} {v : ℕ} (hw : WellFormed s.mmu.root s.mmu)
    (hf : HasFrames 4 s.mmu) (hv : v % 4096 = 0) (hc : Canonical v) :
    ∃ s', loadPage s v = (.ok, s') ∧ WellFormed s'.mmu.root s'.mmu ∧
      ∃ f, s'.mmu.pte v = some (f * 4096 ||| userFlags ||| ptePresent) := by
  obtain ⟨g, s₁, halloc, hm, -⟩ := HasFrames.mapsFresh (m := 0) hf hw v
  have hdiv : (g * 4096 ||| userFlags ||| ptePresent) / 4096 = g := by
    rw [or_div_page (by decide), or_div_page (by decide), Nat.mul_div_cancel _ (by norm_num)]
  obtain ⟨mmu, hst, hsame⟩ := storeBytes_dataFrame (fun _ => 0) le_rfl hv hc hm.self
    (by rw [hdiv]; exact hm.dataFrame hw)
  obtain ⟨s', hs', rfl⟩ := @store_of_some { s.note (.map v) with
    mmu := pagingMapPage s₁ v (g * 4096) userFlags } v 4096 (fun _ => 0) mmu hst
  refine ⟨s', ?_, hsame.wf hm.wf, g, by rw [hsame.pte, hm.self]⟩
  have hg0 : g * 4096 ≠ 0 := by
    have := hm.ne_zero
    omega
  rw [loadPage, halloc]
  dsimp only
  rw [if_neg hg0, hs']

theorem kexSegments_kernelSegment {s : LoadState} (hp : loadPage s 0xFFFF800000000000 = (.ok, s')) :
    ∃ minV maxV, kexSegments kernelSegment [⟨ptNote, 176, 0, 19, 19⟩,
      ⟨ptLoad, 0, 0xFFFF800000000000, 0, 1⟩] s (2 ^ 64 - 1) 0 = (.ok, s', minV, maxV) := by
  have hseg : loadSegment kernelSegment s 0xFFFF800000000000 (add64 0xFFFF800000000000 1) 0 0 =
      (.ok, s') := by
    rw [loadSegment, show segPages 0xFFFF800000000000 (add64 0xFFFF800000000000 1) =
      (0xFFFF800000000000, 1) by decide]
    rw [loadPages, hp]
    rfl
  refine ⟨0xFFFF800000000000, 0xFFFF800000000001, ?_⟩
  rw [kexSegments, if_pos (by decide), kexSegments, if_neg (by decide), if_neg (by decide), hseg]
  rfl

end KeonOS
