import KeonOS.Mm.Virt

/-!
# `sys_sbrk`

The system call that moves the heap break of the current user thread.

* **`sys_sbrk_isolated`**: every call in a run of such calls is safe;
* `sys_sbrk_exposes_kernel`: a wrapping increment lets a thread take over a page of the kernel.
-/

namespace KeonOS

open Word Relation

/-- The fields of `thread_t` that describe the memory of a user thread. -/
structure Thread where
  id : ℕ
  isUser : Bool
  userImageStart : ℕ
  userImageEnd : ℕ
  userHeapBreak : ℕ
  dynLibBreak : ℕ
deriving DecidableEq, Repr

abbrev heapStartStandard : ℕ := 0x40000000

/-- The end of the lower half of the address space. -/
abbrev userEnd : ℕ := 2 ^ 47

/-- One iteration of `sys_sbrk`; `false` for `return -1`. -/
def sbrkUserPage (s : Mmu) (addr : ℕ) : Bool × Mmu :=
  if pagingIsUserAccessible s addr then (true, s)
  else
    let frame := pagingGetPhysicalAddress s addr
    let (frame, s) := if frame = 0 then pfaAllocFrame s else (frame, s)
    if frame = 0 then (false, s) else (true, pagingMapPage s addr frame userFlags)

def sbrkUserLoop (s : Mmu) (addr : ℕ) : ℕ → Bool × Mmu
  | 0 => (true, s)
  | n + 1 =>
    match sbrkUserPage s addr with
    | (true, s) => sbrkUserLoop s (addr + 4096) n
    | (false, s) => (false, s)

/-- The first page and the number of pages of the loop of `sys_sbrk`, which does not wrap. -/
def sbrkRange (oldBreak increment : ℕ) : ℕ × ℕ :=
  let startPage := alignDown 4096 oldBreak
  let endPage := alignUp64 4096 (add64 oldBreak increment)
  (startPage, (endPage - startPage) / 4096)

/-- `sys_sbrk(increment)` for the thread `t`: the result, and the memory and thread after it. -/
def sysSbrk (s : Mmu) (t : Thread) (increment : ℕ) : ℕ × Mmu × Thread :=
  if t.isUser = false then (2 ^ 64 - 1, s, t)
  else if increment = 0 then (t.userHeapBreak, s, t)
  else
    let (startPage, n) := sbrkRange t.userHeapBreak increment
    match sbrkUserLoop s startPage n with
    | (true, s) =>
      (t.userHeapBreak, s, { t with userHeapBreak := add64 t.userHeapBreak increment })
    | (false, s) => (2 ^ 64 - 1, s, t)

/-- No page of the loop gets a frame but lacks the frames for its page tables. -/
def UserTablesCovered (s : Mmu) (addr : ℕ) : ℕ → Prop
  | 0 => True
  | n + 1 =>
    (pagingIsUserAccessible s addr = false → Pfa.CanTake 1 s.pfa →
      Pfa.CanTake (missingTables s s.root (tableIdx addr) + 1) s.pfa) ∧
    ((sbrkUserPage s addr).1 = true → UserTablesCovered (sbrkUserPage s addr).2 (addr + 4096) n)

instance decidableUserTablesCovered : ∀ (s : Mmu) (addr n : ℕ), Decidable (UserTablesCovered s addr n)
  | _, _, 0 => isTrue trivial
  | s, addr, n + 1 =>
    have := decidableUserTablesCovered (sbrkUserPage s addr).2 (addr + 4096) n
    inferInstanceAs (Decidable ((_ → _ → _) ∧ (_ → _)))

/-- Above the heap base, the lower half holds user pages only. -/
structure UserSpace (s : Mmu) : Prop where
  wf : WellFormed s.root s
  user : ∀ a e, heapStartStandard ≤ a → a < userEnd → s.pte a = some e → hasFlag e pteUser = true

/-- Pages became user accessible, each on a frame that was free, and the user pages stayed. -/
structure UserGrows (s s' : Mmu) : Prop where
  space : UserSpace s'
  used : ∀ f, s.pfa.isUsed f = true → s'.pfa.isUsed f = true
  keep : ∀ w, Canonical w → pagingIsUserAccessible s w = true → s'.pte w = s.pte w
  fresh : ∀ w, Canonical w → pagingIsUserAccessible s w = false → pagingIsUserAccessible s' w = true →
    ∃ f, s'.translate w = some (4096 * f + w % 4096) ∧ s.pfa.isUsed f = false

variable {w v a n : ℕ} {s s' : Mmu}

namespace UserGrows

variable {s s' s'' : Mmu}

theorem refl (h : UserSpace s) : UserGrows s s :=
  ⟨h, fun _ h => h, fun _ _ _ => rfl, fun w _ h1 h2 => by rw [h1] at h2; exact Bool.noConfusion h2⟩

theorem accessible (h : UserGrows s s') (hw : WellFormed s.root s) (hc : Canonical w)
    (ha : pagingIsUserAccessible s w = true) : pagingIsUserAccessible s' w = true := by
  rw [pagingIsUserAccessible_eq h.space.wf, h.keep w hc ha, ← pagingIsUserAccessible_eq hw, ha]

theorem trans (hs : WellFormed s.root s) (h : UserGrows s s') (h' : UserGrows s' s'') :
    UserGrows s s'' where
  space := h'.space
  used f hf := h'.used f (h.used f hf)
  keep w hc ha := (h'.keep w hc (h.accessible hs hc ha)).trans (h.keep w hc ha)
  fresh w hc h1 h2 := by
    by_cases hmid : pagingIsUserAccessible s' w = true
    · obtain ⟨f, hf, hfree⟩ := h.fresh w hc h1 hmid
      refine ⟨f, ?_, hfree⟩
      rwa [Mmu.translate, h'.keep w hc hmid]
    · obtain ⟨f, hf, hfree⟩ := h'.fresh w hc (Bool.eq_false_of_not_eq_true hmid) h2
      refine ⟨f, hf, Bool.eq_false_of_not_eq_true fun hu => ?_⟩
      rw [h.used f hu] at hfree
      exact Bool.noConfusion hfree

end UserGrows

/-! ## One page -/

theorem userGrows_of_extends {new : ℕ → Prop} (hs : UserSpace s)
    (h : Extends s.root new s s') : UserGrows s s' := by
  have hwf : WellFormed s'.root s' := by
    rw [Mmu.root_congr h.cr3]
    exact h.wf
  refine ⟨⟨hwf, fun a e h1 h2 he => hs.user a e h1 h2 (by rw [← h.pte, he])⟩, h.used,
    fun w _ _ => h.pte, fun w _ h1 h2 => ?_⟩
  rw [pagingIsUserAccessible_eq hwf, h.pte, ← pagingIsUserAccessible_eq hs.wf, h1] at h2
  exact Bool.noConfusion h2

theorem userGrows_of_mapsFresh {f : ℕ} (hs : UserSpace s)
    (h : MapsFresh s s' v f userFlags) (hna : pagingIsUserAccessible s v = false) :
    UserGrows s s' ∧ pagingIsUserAccessible s' v = true := by
  have hflag : hasFlag (f * 4096 ||| userFlags ||| ptePresent) pteUser = true := by
    simp only [hasFlag_or, show hasFlag pteUser pteUser = true from rfl, Bool.or_true, Bool.true_or]
  -- the page of `v` in the new state
  have hpte : ∀ w, s'.pte w = if vpn w = vpn v then
      some (f * 4096 ||| userFlags ||| ptePresent) else s.pte w := by
    intro w
    split_ifs with hvw
    · rw [Mmu.pte_of_vpn hvw, h.self]
    · exact h.other w hvw
  have hacc : pagingIsUserAccessible s' v = true := by
    rwa [pagingIsUserAccessible_eq h.wf, h.self]
  refine ⟨⟨⟨h.wf, fun a e h1 h2 he => ?_⟩, h.used, fun w hc ha => ?_, fun w hc h1 h2 => ?_⟩, hacc⟩
  · rw [hpte] at he
    split_ifs at he
    · cases he
      exact hflag
    · exact hs.user a e h1 h2 he
  · rw [hpte, if_neg]
    intro hvw
    rw [pagingIsUserAccessible_eq hs.wf, Mmu.pte_of_vpn hvw, ← pagingIsUserAccessible_eq hs.wf,
      hna] at ha
    exact Bool.noConfusion ha
  · by_cases hvw : vpn w = vpn v
    · refine ⟨f, ?_, h.free⟩
      rw [Mmu.translate, hpte, if_pos hvw, Option.map_some, alignDown, or_div_page (by decide),
        or_div_page (by decide), Nat.mul_div_cancel _ (by norm_num), Nat.mul_comm]
    · rw [pagingIsUserAccessible_eq h.wf, hpte, if_neg hvw, ← pagingIsUserAccessible_eq hs.wf, h1] at h2
      exact Bool.noConfusion h2

theorem UserSpace.pte_none (hs : UserSpace s) (h1 : heapStartStandard ≤ a)
    (h2 : a < userEnd) (hna : pagingIsUserAccessible s a = false) : s.pte a = none := by
  cases he : s.pte a with
  | none => rfl
  | some e =>
    rw [pagingIsUserAccessible_eq hs.wf, he, Option.any_some, hs.user a e h1 h2 he] at hna
    exact Bool.noConfusion hna

theorem sbrkUserPage_spec (hs : UserSpace s) (h1 : heapStartStandard ≤ a) (h2 : a < userEnd)
    (hc : pagingIsUserAccessible s a = false → Pfa.CanTake 1 s.pfa →
      Pfa.CanTake (missingTables s s.root (tableIdx a) + 1) s.pfa) :
    UserGrows s (sbrkUserPage s a).2 ∧
      ((sbrkUserPage s a).1 = true → pagingIsUserAccessible (sbrkUserPage s a).2 a = true) := by
  by_cases hacc : pagingIsUserAccessible s a = true
  · rw [sbrkUserPage, if_pos hacc]
    exact ⟨.refl hs, fun _ => hacc⟩
  have hna := Bool.eq_false_of_not_eq_true hacc
  have hphys : pagingGetPhysicalAddress s a = 0 := by
    rw [pagingGetPhysicalAddress_eq, Mmu.translate, hs.pte_none h1 h2 hna]
    rfl
  rw [sbrkUserPage, if_neg hacc, hphys]
  simp only [if_true]
  by_cases hcan : Pfa.CanTake 1 s.pfa
  · obtain ⟨f, s₁, halloc, hm⟩ := mapsFresh_of_canTake userFlags hs.wf (by decide) (hc hna hcan)
    have hf0 : f * 4096 ≠ 0 := by
      have := hm.ne_zero
      omega
    obtain ⟨hg, ha⟩ := userGrows_of_mapsFresh hs hm hna
    rw [halloc, if_neg hf0]
    exact ⟨hg, fun _ => ha⟩
  · obtain ⟨h0, hext⟩ := pfaAllocFrame_fail hs.wf hcan
    rw [if_pos h0]
    exact ⟨userGrows_of_extends hs hext, fun h => Bool.noConfusion h⟩

/-! ## Calls -/

theorem sbrkUserLoop_spec : ∀ {n a : ℕ} {s : Mmu}, UserSpace s → heapStartStandard ≤ a →
    a + 4096 * n ≤ userEnd → UserTablesCovered s a n →
    UserGrows s (sbrkUserLoop s a n).2 ∧ ((sbrkUserLoop s a n).1 = true →
      ∀ i < n, pagingIsUserAccessible (sbrkUserLoop s a n).2 (a + 4096 * i) = true)
  | 0, _, _, hs, _, _, _ => ⟨.refl hs, fun _ i hi => absurd hi (Nat.not_lt_zero i)⟩
  | n + 1, a, s, hs, h1, h2, ⟨hc, hrest⟩ => by
    obtain ⟨hg, hacc⟩ := sbrkUserPage_spec hs h1 (by omega) hc
    rw [sbrkUserLoop]
    rcases hp : sbrkUserPage s a with ⟨_ | _, s'⟩
    all_goals rw [hp] at hg hacc hrest
    · exact ⟨hg, fun h => Bool.noConfusion h⟩
    have hle : a + 4096 + 4096 * n ≤ userEnd := by omega
    obtain ⟨hg', hall⟩ := sbrkUserLoop_spec hg.space (h1.trans (Nat.le_add_right a 4096)) hle (hrest rfl)
    refine ⟨hg.trans hs.wf hg', fun h i hi => ?_⟩
    cases i with
    | zero => exact hg'.accessible hg.space.wf (.inl (lt_of_lt_of_le (by omega) h2)) (hacc rfl)
    | succ i =>
      rw [show a + 4096 * (i + 1) = a + 4096 + 4096 * i by ring]
      exact hall h i (by omega)

structure UserHeap (s : Mmu) (t : Thread) : Prop where
  isUser : t.isUser = true
  base_le : heapStartStandard ≤ t.userHeapBreak
  le_end : t.userHeapBreak ≤ userEnd
  space : UserSpace s

/-- The new break is between the heap base and the end of the user half, with frames for the tables. -/
structure SbrkOkay (s : Mmu) (t : Thread) (increment : ℕ) : Prop where
  base_le : heapStartStandard ≤ add64 t.userHeapBreak increment
  le_end : add64 t.userHeapBreak increment ≤ userEnd
  covered : UserTablesCovered s (sbrkRange t.userHeapBreak increment).1
    (sbrkRange t.userHeapBreak increment).2

/-- The call fails, or maps all pages up to the new break on frames that were free. -/
def SbrkSafe (s : Mmu) (t : Thread) (increment : ℕ) : Prop :=
  ((sysSbrk s t increment).1 ≠ 2 ^ 64 - 1 → (sysSbrk s t increment).1 = t.userHeapBreak ∧
    ∀ a, t.userHeapBreak ≤ a → a < (sysSbrk s t increment).2.2.userHeapBreak →
      pagingIsUserAccessible (sysSbrk s t increment).2.1 a = true) ∧
  ∀ a, Canonical a → pagingIsUserAccessible s a = false →
    pagingIsUserAccessible (sysSbrk s t increment).2.1 a = true →
    ∃ f, (sysSbrk s t increment).2.1.translate a = some (4096 * f + a % 4096) ∧ s.pfa.isUsed f = false

theorem pagingIsUserAccessible_of_vpn (h : vpn w = vpn v) :
    pagingIsUserAccessible s w = pagingIsUserAccessible s v := by
  obtain ⟨h1, h2⟩ := idx_eq_iff.mpr h
  rw [pagingIsUserAccessible, pagingIsUserAccessible, h1, h2]

theorem sbrkRange_spec {b : ℕ} (h1 : heapStartStandard ≤ b) (h2 : b ≤ userEnd)
    (h3 : add64 b n ≤ userEnd) :
    heapStartStandard ≤ (sbrkRange b n).1 ∧ (sbrkRange b n).1 + 4096 * (sbrkRange b n).2 ≤ userEnd ∧
      ∀ a, b ≤ a → a < add64 b n → ∃ i < (sbrkRange b n).2,
        a / 4096 = ((sbrkRange b n).1 + 4096 * i) / 4096 := by
  have hu : userEnd = 2 ^ 47 := rfl
  have hb : heapStartStandard = 0x40000000 := rfl
  simp only [sbrkRange, alignUp64_of_lt (show add64 b n + (4096 - 1) < 2 ^ 64 by omega), alignUp,
    alignDown]
  refine ⟨by omega, by omega, fun a ha1 ha2 => ⟨a / 4096 - b / 4096, by omega, by omega⟩⟩

theorem sysSbrk_spec {t : Thread} (h : UserHeap s t) (hc : SbrkOkay s t n) :
    UserHeap (sysSbrk s t n).2.1 (sysSbrk s t n).2.2 ∧ SbrkSafe s t n := by
  obtain ⟨hr1, hr2, hr3⟩ := sbrkRange_spec h.base_le h.le_end hc.le_end
  obtain ⟨hg, hall⟩ := sbrkUserLoop_spec h.space hr1 hr2 hc.covered
  have hfresh : ∀ a, Canonical a → pagingIsUserAccessible s a = false →
      pagingIsUserAccessible s a = true → ∃ f,
      s.translate a = some (4096 * f + a % 4096) ∧ s.pfa.isUsed f = false := fun a _ h1 h2 => by
    rw [h1] at h2
    exact Bool.noConfusion h2
  by_cases hn : n = 0
  · have hcall : sysSbrk s t n = (t.userHeapBreak, s, t) := by
      rw [sysSbrk, if_neg (by rw [h.isUser]; exact Bool.noConfusion), if_pos hn]
    rw [SbrkSafe, hcall]
    exact ⟨h, fun _ => ⟨rfl, fun a h1 h2 => absurd h1 (not_le_of_gt h2)⟩, hfresh⟩
  rcases hl : sbrkUserLoop s (sbrkRange t.userHeapBreak n).1 (sbrkRange t.userHeapBreak n).2 with
    ⟨_ | _, s'⟩
  all_goals
    rw [hl] at hg hall
    dsimp only at hg hall
  · have hcall : sysSbrk s t n = (2 ^ 64 - 1, s', t) := by
      rw [sysSbrk, if_neg (by rw [h.isUser]; exact Bool.noConfusion), if_neg hn]
      dsimp only
      rw [hl]
    rw [SbrkSafe, hcall]
    exact ⟨⟨h.isUser, h.base_le, h.le_end, hg.space⟩, fun h => absurd rfl h, hg.fresh⟩
  have hcall : sysSbrk s t n = (t.userHeapBreak, s',
      { t with userHeapBreak := add64 t.userHeapBreak n }) := by
    rw [sysSbrk, if_neg (by rw [h.isUser]; exact Bool.noConfusion), if_neg hn]
    dsimp only
    rw [hl]
  rw [SbrkSafe, hcall]
  refine ⟨⟨h.isUser, hc.base_le, hc.le_end, hg.space⟩, fun _ => ⟨rfl, fun a h1 h2 => ?_⟩, hg.fresh⟩
  obtain ⟨i, hi, hai⟩ := hr3 a h1 h2
  rw [pagingIsUserAccessible_of_vpn (v := (sbrkRange t.userHeapBreak n).1 + 4096 * i)]
  · exact hall rfl i hi
  · rw [vpn, vpn, hai]

/-! ## Runs -/

/-- A call that meets the condition, as a step of the memory and the thread. -/
inductive SbrkStep : Mmu × Thread → Mmu × Thread → Prop
  | call {s : Mmu} {t : Thread} {n : ℕ} : SbrkOkay s t n → SbrkStep (s, t) (sysSbrk s t n).2

/-- **Isolation of `sys_sbrk`** in every run of calls that meet the condition. -/
theorem sys_sbrk_isolated {s₀ s : Mmu} {t₀ t : Thread} (h₀ : UserHeap s₀ t₀)
    (hs : ReflTransGen SbrkStep (s₀, t₀) (s, t)) {n : ℕ} (hn : SbrkOkay s t n) :
    SbrkSafe s t n := by
  have hinv : ∀ p, ReflTransGen SbrkStep (s₀, t₀) p → UserHeap p.1 p.2 := by
    intro p hp
    induction hp with
    | refl => exact h₀
    | tail _ hst ih =>
      obtain ⟨hok⟩ := hst
      exact (sysSbrk_spec ih hok).1
  exact (sysSbrk_spec (hinv (s, t) hs) hn).2

/-! ## A thread that takes over a page -/

/-- The page at `0x1000` is mapped for the kernel, to the frame of the root page table. -/
def kernelPage : Mmu := pagingMapPage emptyTables 0x1000 0x1000 (ptePresent ||| pteRw)

def emptyHeapThread : Thread where
  id := 2
  isUser := true
  userImageStart := 0x400000
  userImageEnd := 0x401000
  userHeapBreak := 0x40000000
  dynLibBreak := 0

theorem wellFormed_kernelPage : WellFormed kernelPage.root kernelPage :=
  (pagingMapPage_spec wellFormed_emptyTables (by norm_num) (by decide)).wf

theorem emptyTables_pte (a : ℕ) : emptyTables.pte a = none := by
  have h : emptyTables.walk emptyTables.root (tableIdx a) = none := by
    simp [tableIdx, Radix.walk, show emptyTables.root = 1 from rfl, emptyTables_entry, hasFlag]
  rw [Mmu.pte, Mmu.leaf, h, Option.bind_none]

theorem userHeap_kernelPage : UserHeap kernelPage emptyHeapThread where
  isUser := rfl
  base_le := le_rfl
  le_end := by decide
  space := by
    refine ⟨wellFormed_kernelPage, fun a e h1 h2 he => ?_⟩
    have hb : heapStartStandard = 0x40000000 := rfl
    have hu : userEnd = 2 ^ 47 := rfl
    have hm : MapsPage emptyTables kernelPage 0x1000 _ :=
      pagingMapPage_spec wellFormed_emptyTables (by norm_num) (by decide)
    rw [hm.other a, emptyTables_pte] at he
    · cases he
    · unfold vpn
      omega

/-- **A wrapping increment exposes the kernel**: the first call moves the break down to `0x1000`, the
second makes the kernel's page there user accessible. -/
theorem sys_sbrk_exposes_kernel : UserHeap kernelPage emptyHeapThread ∧
    let r₁ := sysSbrk kernelPage emptyHeapThread (2 ^ 64 - 0x3FFFF000)
    let r₂ := sysSbrk r₁.2.1 r₁.2.2 0x1000
    r₁.1 = 0x40000000 ∧ r₂.1 = 0x1000 ∧ pagingIsUserAccessible r₁.2.1 0x1000 = false ∧
      pagingIsUserAccessible r₂.2.1 0x1000 = true ∧
      r₂.2.1.translate 0x1000 = some 0x1000 ∧ r₁.2.1.pfa.isUsed 1 = true :=
  ⟨userHeap_kernelPage, by decide +kernel⟩

theorem sys_sbrk_isolated_kernelPage :
    SbrkOkay kernelPage emptyHeapThread 0x1000 ∧ SbrkSafe kernelPage emptyHeapThread 0x1000 := by
  have h : SbrkOkay kernelPage emptyHeapThread 0x1000 := ⟨by decide, by decide, by decide +kernel⟩
  exact ⟨h, sys_sbrk_isolated userHeap_kernelPage .refl h⟩

end KeonOS
