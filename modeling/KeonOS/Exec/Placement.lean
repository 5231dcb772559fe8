import KeonOS.Proc.Ownership

/-!
# Where libraries are placed

`kdl_load` places the libraries of a thread one after the other, from `0x700000000000` upwards. This
is also where `thread_create_user` puts the stack of every user thread.

* `LibPage`, **`kdlLoad_pages`**: the pages a library occupies, from its headers;
* **`libraries_apart`**: libraries that fit are placed apart from each other;
* **`first_library_on_stack`**: the first page of the first library is the first page of the stack.
-/

namespace KeonOS

open Word List

/-! ## The pages of a load -/

def LoadState.Maps (s : LoadState) (x : ℕ) : Prop := .map x ∈ s.log

/-- A part of a loader that, when it ends well, has mapped the pages in `P`. -/
def MapsPages (P : ℕ → Prop) (s : LoadState) (st : Status) (s' : LoadState) : Prop :=
  st = .ok → ∀ x, s'.Maps x ↔ s.Maps x ∨ P x

variable {phs : List Phdr} {m : Mmu} {t t' : Thread} {v : ℕ}

section MapsPages

variable {P Q : ℕ → Prop} {s s' s'' : LoadState} {st : Status} {a n : ℕ}

theorem MapsPages.refl : MapsPages (fun _ => False) s st s := fun _ x => by simp

theorem MapsPages.trans (h : MapsPages P s .ok s') (h' : MapsPages Q s' st s'') :
    MapsPages (fun x => P x ∨ Q x) s st s'' := fun hst x => by
  rw [h' hst, h rfl, or_assoc]

theorem MapsPages.stop (hst : st ≠ .ok) : MapsPages P s st s' := fun h => absurd h hst

theorem MapsPages.congr (h : MapsPages P s st s') (hPQ : ∀ x, P x ↔ Q x) : MapsPages Q s st s' :=
  fun hst x => by rw [h hst, hPQ]

theorem store_mapsPages (byte : ℕ → UInt8) :
    MapsPages (fun _ => False) s (s.store byte a n).1 (s.store byte a n).2 := by
  intro _ x
  unfold LoadState.store LoadState.Maps
  cases s.mmu.storeBytes byte a n <;> simp [LoadState.note]

theorem loadPage_mapsPages : MapsPages (· = a) s (loadPage s a).1 (loadPage s a).2 := by
  rw [loadPage]
  dsimp only
  split_ifs
  · exact .stop Status.noConfusion
  · intro hst x
    rw [store_mapsPages _ hst x, or_false]
    simp [LoadState.Maps, LoadState.note]

theorem loadPages_mapsPages :
    MapsPages (fun x => ∃ i < n, x = a + 4096 * i) s (loadPages s a n).1 (loadPages s a n).2 := by
  induction n generalizing s a with
  | zero => exact MapsPages.refl.congr fun x => by simp
  | succ n ih =>
    have h := loadPage_mapsPages (s := s) (a := a)
    rw [loadPages]
    rcases hp : loadPage s a with ⟨st, s₁⟩
    rw [hp] at h
    cases st
    case ok =>
      refine (h.trans ih).congr fun x => ?_
      constructor
      · rintro (rfl | ⟨i, hi, rfl⟩)
        · exact ⟨0, by omega, by omega⟩
        · exact ⟨i + 1, by omega, by omega⟩
      · rintro ⟨i, hi, rfl⟩
        cases i with
        | zero => exact .inl (by omega)
        | succ i => exact .inr ⟨i, by omega, by omega⟩
    all_goals exact .stop Status.noConfusion

def SegPage (vaddrStart vaddrEnd x : ℕ) : Prop :=
  ∃ i < (segPages vaddrStart vaddrEnd).2, x = (segPages vaddrStart vaddrEnd).1 + 4096 * i

theorem loadSegment_mapsPages {f : KFile} {vs ve off size : ℕ} :
    MapsPages (SegPage vs ve) s (loadSegment f s vs ve off size).1
      (loadSegment f s vs ve off size).2 := by
  have h := loadPages_mapsPages (s := s) (a := (segPages vs ve).1) (n := (segPages vs ve).2)
  rw [loadSegment]
  rcases hp : loadPages s (segPages vs ve).1 (segPages vs ve).2 with ⟨st, s₁⟩
  rw [hp] at h
  cases st
  case ok =>
    split_ifs
    · exact (h.trans (store_mapsPages _)).congr fun x => iff_of_eq (or_false _)
    · exact h
  all_goals exact .stop Status.noConfusion

def LibMapped (base : ℕ) (ph : Phdr) : Prop :=
  ph.pType = ptLoad ∧ add64 (add64 base ph.pVaddr) ph.pMemsz ≠ add64 base ph.pVaddr

/-- The pages of a library with the headers `phs` at `base`. -/
def LibPage (base : ℕ) (phs : List Phdr) (x : ℕ) : Prop := ∃ ph ∈ phs, LibMapped base ph ∧
    SegPage (add64 base ph.pVaddr) (add64 (add64 base ph.pVaddr) ph.pMemsz) x

variable {base : ℕ}

theorem libPage_cons {x : ℕ} {ph : Phdr} : LibPage base (ph :: phs) x ↔ (LibMapped base ph ∧
      SegPage (add64 base ph.pVaddr) (add64 (add64 base ph.pVaddr) ph.pMemsz) x) ∨
      LibPage base phs x :=
  exists_mem_cons_iff _ _ _

theorem kdlSegments_mapsPages {f : KFile} {base dyn : ℕ} {phs : List Phdr} :
    MapsPages (LibPage base phs) s (kdlSegments f base phs s dyn).1
      (kdlSegments f base phs s dyn).2.1 := by
  induction phs generalizing s dyn with
  | nil => exact MapsPages.refl.congr fun x => by simp [LibPage]
  | cons ph phs ih =>
    refine MapsPages.congr ?_ fun x => libPage_cons.symm
    rw [kdlSegments]
    by_cases hm : LibMapped base ph
    · rw [if_pos hm.1, if_neg hm.2]
      have h := @loadSegment_mapsPages s f (add64 base ph.pVaddr)
        (add64 (add64 base ph.pVaddr) ph.pMemsz) ph.pOffset ph.pFilesz
      rcases hseg : loadSegment f s (add64 base ph.pVaddr)
        (add64 (add64 base ph.pVaddr) ph.pMemsz) ph.pOffset ph.pFilesz with ⟨st, s₁⟩
      rw [hseg] at h
      cases st
      case ok => exact (h.trans ih).congr fun x => by simp [hm]
      all_goals exact .stop Status.noConfusion
    · have hrest : ∀ {d : ℕ}, MapsPages (fun x => (LibMapped base ph ∧ SegPage (add64 base ph.pVaddr)
          (add64 (add64 base ph.pVaddr) ph.pMemsz) x) ∨ LibPage base phs x) s
          (kdlSegments f base phs s d).1 (kdlSegments f base phs s d).2.1 :=
        ih.congr fun x => by simp [hm]
      dsimp only
      split_ifs with h1 h2
      · exact hrest
      · exact absurd ⟨h1, h2⟩ hm
      · exact hrest
      · exact hrest

theorem relocate_mapsPages :
    MapsPages (fun _ => False) s (relocate base n a s).1 (relocate base n a s).2 := by
  induction n generalizing a s with
  | zero => exact .refl
  | succ n ih =>
    have h : MapsPages (fun _ => False) s (relocateOne base a s).1 (relocateOne base a s).2 := by
      unfold relocateOne
      rcases readRela s.mmu base a with _ | _ | ⟨target, value⟩
      · exact .refl
      · exact .refl
      · exact store_mapsPages _
    rw [relocate]
    rcases hr : relocateOne base a s with ⟨st, s₁⟩
    rw [hr] at h
    cases st
    case ok => exact (h.trans ih).congr fun x => iff_of_eq (or_false _)
    all_goals exact .stop Status.noConfusion

theorem kdlLoad_pages {fuel : ℕ} {f : KFile} {slack : Mem}
    (h : kdlLoad fuel m t f slack = .loaded s' t' base) :
    ∃ phs, kdlCheck f slack = some phs ∧ base = loadBase t ∧
      t' = { t with dynLibBreak := add64 base (libSize phs) } ∧
      ∀ x, s'.Maps x ↔ LibPage base phs x := by
  unfold kdlLoad at h
  cases hc : kdlCheck f slack with
  | none => simp [hc] at h
  | some phs =>
    rw [hc] at h
    dsimp only at h
    have hseg := @kdlSegments_mapsPages ⟨m, []⟩ f (loadBase t) 0 phs
    rcases hs : kdlSegments f (loadBase t) phs ⟨m, []⟩ 0 with ⟨st, s₁, dyn⟩
    rw [hs] at h hseg
    cases st
    case ok =>
      dsimp only at h hseg
      have hrel : MapsPages (fun _ => False) s₁ (kdlRelocate fuel (loadBase t) dyn s₁).1
          (kdlRelocate fuel (loadBase t) dyn s₁).2 := by
        unfold kdlRelocate
        split_ifs
        · exact .refl
        rcases scanDyn s₁.mmu (loadBase t) fuel dyn ⟨0, 0, 0⟩ with ⟨st, r⟩
        cases st
        case ok =>
          dsimp only
          split_ifs
          · exact relocate_mapsPages
          · exact .refl
        all_goals exact .stop Status.noConfusion
      rcases hr : kdlRelocate fuel (loadBase t) dyn s₁ with ⟨st, s₂⟩
      rw [hr] at h hrel
      cases st
      case ok =>
        cases h
        refine ⟨phs, rfl, rfl, rfl, fun x => ?_⟩
        rw [hrel rfl, hseg rfl]
        simp [LoadState.Maps]
      all_goals cases h
    all_goals cases h

end MapsPages

/-! ## Placement -/

def PageMeets (x lo hi : ℕ) : Prop := x < hi ∧ lo < x + 4096

/-- The libraries `libs` keep off each other and off the stack, the image and the heap of `t`. -/
structure LibsApart (t : Thread) (libs : List (ℕ → Prop)) : Prop where
  pairwise : libs.Pairwise fun P Q => ∀ x y, P x → Q y → ¬ PageMeets x y (y + 4096)
  stack : ∀ P ∈ libs, ∀ x, P x → ¬ PageMeets x userStack (userStack + 0x4000)
  image : ∀ P ∈ libs, ∀ x, P x → ¬ PageMeets x t.userImageStart t.userImageEnd
  heap : ∀ P ∈ libs, ∀ x, P x → ¬ PageMeets x heapStartStandard t.userHeapBreak

/-- The thread as `thread_create_user` or `kex_load` returns it. -/
def Created (t : Thread) : Prop :=
  (∃ id, t = newThread id) ∨ ∃ s id f slack s', kexLoad s id f slack = .loaded s' t

/-- The library stays within `lib_size`, without wrapping, and off the pages of the thread. -/
structure LibFits (t : Thread) (phs : List Phdr) : Prop where
  top : loadBase t + libSize phs < 2 ^ 64
  seg : ∀ ph ∈ phs, ph.pType = ptLoad → ph.pVaddr + ph.pMemsz + 4095 < 2 ^ 64
  stack : ∀ ph ∈ phs, LibMapped (loadBase t) ph →
    userStack + 0x4000 ≤ alignDown 4096 (loadBase t + ph.pVaddr)
  image : t.userImageEnd ≤ loadBase t ∨ loadBase t + libSize phs ≤ t.userImageStart
  heap : t.userHeapBreak ≤ loadBase t ∨ loadBase t + libSize phs ≤ heapStartStandard

/-- Loads of libraries by one thread, each into any state of memory, with the pages of each. -/
inductive LibRun (okay : Thread → List Phdr → Prop) (t : Thread) :
    List (ℕ → Prop) → Thread → Prop
  | nil : LibRun okay t [] t
  | load {libs : List (ℕ → Prop)} {t₁ t₂ : Thread} {fuel base : ℕ} {m : Mmu} {f : KFile}
      {slack : Mem} {s' : LoadState} : LibRun okay t libs t₁ →
      (∀ phs, kdlCheck f slack = some phs → okay t₁ phs) →
      kdlLoad fuel m t₁ f slack = .loaded s' t₂ base → LibRun okay t (s'.Maps :: libs) t₂

theorem Created.dynLibBreak (h : Created t) : t.dynLibBreak = 0 := by
  rcases h with ⟨id, rfl⟩ | ⟨s, id, f, slack, s', h⟩
  · rfl
  unfold kexLoad at h
  cases hc : kexCheck f slack with
  | none => simp [hc] at h
  | some phs =>
    rw [hc] at h
    rcases hs : stackPages ⟨s, []⟩ 0 4 with ⟨st, s₁⟩
    rw [hs] at h
    cases st
    case ok =>
      dsimp only at h
      rcases hk : kexSegments f phs s₁ (2 ^ 64 - 1) 0 with ⟨st, s₂, minV, maxV⟩
      rw [hk] at h
      cases st
      case ok =>
        cases h
        rfl
      all_goals cases h
    all_goals cases h

theorem le_libExtent (phs : List Phdr) (n : ℕ) : n ≤ libExtent phs n ∧ ∀ ph ∈ phs,
    ph.pType = ptLoad → add64 ph.pVaddr ph.pMemsz ≤ libExtent phs n := by
  induction phs generalizing n with
  | nil => simp [libExtent]
  | cons ph phs ih =>
    rw [libExtent, forall_mem_cons]
    by_cases ht : ph.pType = ptLoad
    · rw [if_pos ht]
      obtain ⟨h1, h2⟩ := ih (if n < add64 ph.pVaddr ph.pMemsz then add64 ph.pVaddr ph.pMemsz else n)
      refine ⟨le_trans ?_ h1, fun _ => le_trans ?_ h1, h2⟩ <;> split_ifs <;> omega
    · rw [if_neg ht]
      exact ⟨(ih n).1, fun h => absurd h ht, (ih n).2⟩

theorem libExtent_lt {n : ℕ} (hn : n + 4095 < 2 ^ 64)
    (h : ∀ ph ∈ phs, ph.pType = ptLoad → ph.pVaddr + ph.pMemsz + 4095 < 2 ^ 64) :
    libExtent phs n + 4095 < 2 ^ 64 := by
  induction phs generalizing n with
  | nil => exact hn
  | cons ph phs ih =>
    rw [forall_mem_cons] at h
    rw [libExtent]
    by_cases ht : ph.pType = ptLoad
    · rw [if_pos ht, add64_of_lt (by omega)]
      refine ih ?_ h.2
      split_ifs <;> omega
    · rw [if_neg ht]
      exact ih hn h.2

section Fits

variable {t : Thread} {phs : List Phdr} {x : ℕ}

theorem LibFits.libSize_eq (h : LibFits t phs) :
    libSize phs = (libExtent phs 0 + 4095) / 4096 * 4096 := by
  rw [libSize, alignUp64_of_lt (libExtent_lt (by norm_num) h.seg)]
  rfl

theorem LibFits.page (h : LibFits t phs) (hal : loadBase t % 4096 = 0)
    (hx : LibPage (loadBase t) phs x) :
    loadBase t ≤ x ∧ x + 4096 ≤ loadBase t + libSize phs ∧ userStack + 0x4000 ≤ x := by
  obtain ⟨ph, hph, hm, i, hi, rfl⟩ := hx
  have hseg := h.seg ph hph hm.1
  have htop := h.top
  have hsize := h.libSize_eq
  have hext := (le_libExtent phs 0).2 ph hph hm.1
  have hstack := h.stack ph hph hm
  rw [add64_of_lt (by omega)] at hext
  rw [add64_of_lt (show loadBase t + ph.pVaddr < 2 ^ 64 by omega),
    add64_of_lt (show loadBase t + ph.pVaddr + ph.pMemsz < 2 ^ 64 by omega)] at hi ⊢
  have hend : alignUp64 4096 (loadBase t + ph.pVaddr + ph.pMemsz) ≤ loadBase t + libSize phs := by
    have hwrap : alignUp64 4096 (loadBase t + ph.pVaddr + ph.pMemsz) ≤
        (loadBase t + ph.pVaddr + ph.pMemsz + 4095) / 4096 * 4096 := by
      unfold alignUp64 alignDown add64
      omega
    omega
  have hstart : (segPages (loadBase t + ph.pVaddr) (loadBase t + ph.pVaddr + ph.pMemsz)).1 =
      alignDown 4096 (loadBase t + ph.pVaddr) := rfl
  have hcount : (segPages (loadBase t + ph.pVaddr) (loadBase t + ph.pVaddr + ph.pMemsz)).2 =
      (alignUp64 4096 (loadBase t + ph.pVaddr + ph.pMemsz) -
        alignDown 4096 (loadBase t + ph.pVaddr)) / 4096 := rfl
  have hbase : loadBase t ≤ alignDown 4096 (loadBase t + ph.pVaddr) := by
    unfold alignDown
    omega
  omega

structure LibInv (t : Thread) (libs : List (ℕ → Prop)) : Prop where
  aligned : loadBase t % 4096 = 0
  base : userStack ≤ loadBase t
  below : ∀ P ∈ libs, ∀ x, P x → x + 4096 ≤ loadBase t
  apart : LibsApart t libs

variable {libs : List (ℕ → Prop)}

theorem LibInv.load {P : ℕ → Prop} (h : LibInv t libs)
    (hf : LibFits t phs) (ht : t' = { t with dynLibBreak := add64 (loadBase t) (libSize phs) })
    (hP : ∀ x, P x ↔ LibPage (loadBase t) phs x) : LibInv t' (P :: libs) := by
  have htop := hf.top
  have hbase := h.base
  have hsize := hf.libSize_eq
  have hal := h.aligned
  have hpos : 0 < loadBase t := lt_of_lt_of_le (by norm_num) hbase
  have hbrk : loadBase t' = loadBase t + libSize phs := by
    subst ht
    rw [loadBase]
    dsimp only
    rw [add64_of_lt htop, if_neg (by omega)]
  have hpage : ∀ x, P x → loadBase t ≤ x ∧ x + 4096 ≤ loadBase t + libSize phs ∧
      userStack + 0x4000 ≤ x := fun x hx => hf.page hal ((hP x).mp hx)
  refine ⟨by omega, by omega, ?_, ?_, ?_, ?_, ?_⟩
  · rw [forall_mem_cons]
    refine ⟨fun x hx => ?_, fun Q hQ x hx => ?_⟩
    · rw [hbrk]
      exact (hpage x hx).2.1
    · have := h.below Q hQ x hx
      omega
  · refine pairwise_cons.mpr ⟨fun Q hQ x y hx hy hmeet => ?_, h.apart.pairwise⟩
    have h1 := (hpage x hx).1
    have h2 := h.below Q hQ y hy
    have h3 := hmeet.1
    omega
  · rw [forall_mem_cons]
    refine ⟨fun x hx hmeet => ?_, h.apart.stack⟩
    have h1 := (hpage x hx).2.2
    exact absurd hmeet.1 (not_lt.mpr h1)
  · rw [forall_mem_cons]
    subst ht
    refine ⟨fun x hx hmeet => ?_, h.apart.image⟩
    have hp := hpage x hx
    have h1 := hmeet.1
    have h2 := hmeet.2
    rcases hf.image with hi | hi <;> dsimp only at h1 h2 <;> omega
  · rw [forall_mem_cons]
    subst ht
    refine ⟨fun x hx hmeet => ?_, h.apart.heap⟩
    have hp := hpage x hx
    have h1 := hmeet.1
    have h2 := hmeet.2
    rcases hf.heap with hi | hi
    · dsimp only at h1
      omega
    · exact absurd (h2.trans_le (hp.2.1.trans hi)) (lt_irrefl _)

theorem LibRun.inv (ht : t.dynLibBreak = 0) (h : LibRun LibFits t libs t') : LibInv t' libs := by
  induction h with
  | nil =>
    have hb : loadBase t = userStack := if_pos ht
    refine ⟨by rw [hb]; norm_num, hb.ge, by simp, List.Pairwise.nil, by simp, by simp, by simp⟩
  | load _ hok hl ih =>
    obtain ⟨phs, hc, rfl, ht', hpages⟩ := kdlLoad_pages hl
    exact ih.load (hok phs hc) ht' hpages

end Fits

/-- **Libraries that fit are placed apart**, in any sequence of loads after a thread is created. -/
theorem libraries_apart {t t' : Thread} {libs : List (ℕ → Prop)} (hc : Created t)
    (h : LibRun LibFits t libs t') : LibsApart t' libs :=
  (h.inv hc.dynLibBreak).apart

/-! ## One page -/

def onePageLibrary (v : ℕ) : KFile where
  size := 139
  byte k := (programBytes etDyn [⟨ptLoad, 0, v, 0, 1⟩]).getD k 0
  size_lt := by decide

theorem kdlCheck_onePage (hv : v = 0 ∨ v = 0x4000) :
    kdlCheck (onePageLibrary v) (fun _ => 0) = some [⟨ptLoad, 0, v, 0, 1⟩] := by
  rcases hv with rfl | rfl <;> decide +kernel

theorem segPages_onePage (hv : v = 0 ∨ v = 0x4000) :
    add64 userStack v = userStack + v ∧ add64 (add64 userStack v) 1 ≠ add64 userStack v ∧
      segPages (add64 userStack v) (add64 (add64 userStack v) 1) = (userStack + v, 1) := by
  rcases hv with rfl | rfl <;> decide +kernel

theorem kdlLoad_onePage (hv : v = 0 ∨ v = 0x4000) {own : ℕ → Option ℕ}
    (ho : Owns m own) (hf : HasFrames 4 m) (ht : t.dynLibBreak = 0) :
    ∃ s' t', kdlLoad 0 m t (onePageLibrary v) (fun _ => 0) = .loaded s' t' userStack ∧
      s'.Maps (userStack + v) := by
  obtain ⟨hvs, hne, hseg⟩ := segPages_onePage hv
  have hb : loadBase t = userStack := if_pos ht
  obtain ⟨s₁, hl, -⟩ := loadPages_total (m := 0) (n := 1) (a := userStack + v) (s := ⟨m, []⟩) ho
    (by rcases hv with rfl | rfl <;> norm_num) (by rcases hv with rfl | rfl <;> norm_num [userEnd])
    hf
  have hload : loadSegment (onePageLibrary v) ⟨m, []⟩ (add64 userStack v)
      (add64 (add64 userStack v) 1) 0 0 = (.ok, s₁) := by
    rw [loadSegment, hseg, hl]
    rfl
  have hsegs : kdlSegments (onePageLibrary v) userStack [⟨ptLoad, 0, v, 0, 1⟩] ⟨m, []⟩ 0 =
      (.ok, s₁, 0) := by
    rw [kdlSegments, if_pos rfl, if_neg hne, hload]
    rfl
  have hrel : kdlRelocate 0 userStack 0 s₁ = (.ok, s₁) := by rw [kdlRelocate, if_pos rfl]
  have hmaps : s₁.Maps (userStack + v) := by
    have h := loadPages_mapsPages (s := ⟨m, []⟩) (a := userStack + v) (n := 1)
    rw [hl] at h
    exact (h rfl _).mpr (.inr ⟨0, by norm_num, by norm_num⟩)
  refine ⟨s₁, { t with dynLibBreak := add64 userStack (libSize [⟨ptLoad, 0, v, 0, 1⟩]) }, ?_, hmaps⟩
  rw [kdlLoad, kdlCheck_onePage hv]
  dsimp only
  rw [hb, hsegs]
  dsimp only
  rw [hrel]

theorem hasFrames_emptyTables : HasFrames 20 emptyTables := by decide +kernel

theorem libraries_apart_onePage : ∃ s' t',
    kdlLoad 0 emptyTables (newThread 2) (onePageLibrary 0x4000) (fun _ => 0) =
      .loaded s' t' userStack ∧ LibsApart t' [s'.Maps] := by
  obtain ⟨s', t', hl, -⟩ := kdlLoad_onePage (.inr rfl) (.empty wellFormed_emptyTables)
    (hasFrames_emptyTables.mono (by norm_num)) (t := newThread 2) rfl
  refine ⟨s', t', hl, libraries_apart (t := newThread 2) (.inl ⟨2, rfl⟩)
    (.load .nil (fun phs hc => ?_) hl)⟩
  rw [kdlCheck_onePage (.inr rfl), Option.some.injEq] at hc
  subst hc
  have hb : loadBase (newThread 2) = userStack := rfl
  have hsize : libSize [⟨ptLoad, 0, 0x4000, 0, 1⟩] = 0x5000 := by decide +kernel
  refine ⟨?_, ?_, ?_, .inl ?_, .inl ?_⟩
  · rw [hb, hsize]
    norm_num
  · simp
  · simp only [mem_singleton, forall_eq, hb]
    intro _
    decide +kernel
  · rw [hb]
    exact Nat.zero_le _
  · rw [hb]
    decide +kernel

/-- **The first library of a thread is placed on its stack.** -/
theorem first_library_on_stack : ∃ s t s' t',
    kexLoad emptyTables 2 noSegments (fun _ => 0) = .loaded s t ∧
    kdlLoad 0 s.mmu t (onePageLibrary 0) (fun _ => 0) = .loaded s' t' userStack ∧
    s'.Maps userStack ∧ ¬ LibsApart t' [s'.Maps] := by
  obtain ⟨s, t, own, hk, hf, hg, -⟩ := @kexLoad_noSegments emptyTables 4 2 wellFormed_emptyTables
    hasFrames_emptyTables
  have ht : t.dynLibBreak = 0 := Created.dynLibBreak (.inr ⟨_, _, _, _, _, hk⟩)
  obtain ⟨s', t', hl, hm⟩ := kdlLoad_onePage (.inl rfl) hg.owns hf ht
  refine ⟨s, t, s', t', hk, hl, hm, fun h => ?_⟩
  exact h.stack _ (mem_singleton_self _) _ hm ⟨by norm_num, by norm_num⟩

end KeonOS
