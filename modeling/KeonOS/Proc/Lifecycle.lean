import KeonOS.Exec.Progress
import KeonOS.Mm.Guard

/-!
# The life of user threads

All user threads share one address space, with the stack, the heap base and mostly the image at the
same addresses. When a thread has ended, `cleanup_zombies` translates the addresses it used and frees
what it finds there.

* `Frees`: what freeing a set of pages does; **`cleanupThread_spec`**.
-/

namespace KeonOS

open Word Function Option

/-- The body of the three loops of `cleanup_zombies`. -/
def freePage (s : Mmu) (addr : ℕ) : Mmu :=
  let phys := pagingGetPhysicalAddress s addr
  if phys = 0 then s
  else pagingUnmapPage { s with pfa := pfaFreeFrame s.pfa phys } addr

def freePages (s : Mmu) (addr : ℕ) : ℕ → Mmu
  | 0 => s
  | n + 1 => freePages (freePage s addr) (addr + 4096) n

/-- What `cleanup_zombies` does for one thread. A heap break in the last page would wrap the loop. -/
def cleanupThread (s : Mmu) (t : Thread) : Mmu :=
  if t.isUser = false then s
  else
    let s := freePages s userStack 4
    let s :=
      if t.userImageStart < t.userImageEnd then
        freePages s t.userImageStart ((t.userImageEnd - t.userImageStart + 4095) / 4096)
      else s
    if heapStartStandard < t.userHeapBreak then
      freePages s heapStartStandard ((t.userHeapBreak - heapStartStandard + 4095) / 4096)
    else s

def cleanupZombies (s : Mmu) (zombies : List Thread) : Mmu := zombies.foldl cleanupThread s

/-! ## Steps -/

/-- The frames that were allocated from `s` to `s'` other than for page tables. -/
def newFrames (s s' : Mmu) : Set ℕ := { g | s.pfa.isUsed g = false ∧ DataFrame s' g }

/-- The user threads, each with its frames, and all user frames that have not been freed. -/
structure Procs where
  mmu : Mmu
  live : List (Thread × Set ℕ)
  zombies : List (Thread × Set ℕ)
  outstanding : Set ℕ

inductive Event
  | load (id : ℕ) (f : KFile) (slack : Mem)
  | sbrk (i increment : ℕ)
  | exit (i : ℕ)
  | cleanup

/-- One step of the system. `thread_exit` and `thread_kill` both are `exit`. -/
inductive ProcStep : Procs → Event → Procs → Prop
  | loaded {p : Procs} {id : ℕ} {f : KFile} {slack : Mem} {s : LoadState} {t : Thread} :
    kexLoad p.mmu id f slack = .loaded s t →
    ProcStep p (.load id f slack) ⟨s.mmu, (t, newFrames p.mmu s.mmu) :: p.live, p.zombies,
      p.outstanding ∪ newFrames p.mmu s.mmu⟩
  | killed {p : Procs} {id : ℕ} {f : KFile} {slack : Mem} {s : LoadState} {t : Thread} :
    kexLoad p.mmu id f slack = .killed s t →
    ProcStep p (.load id f slack) ⟨s.mmu, p.live, (t, newFrames p.mmu s.mmu) :: p.zombies,
      p.outstanding ∪ newFrames p.mmu s.mmu⟩
  | error {p : Procs} {id : ℕ} {f : KFile} {slack : Mem} {s : LoadState} :
    kexLoad p.mmu id f slack = .error s →
    ProcStep p (.load id f slack) ⟨s.mmu, p.live, p.zombies, p.outstanding ∪ newFrames p.mmu s.mmu⟩
  | sbrk {p : Procs} {i n : ℕ} {t : Thread} {frames : Set ℕ} :
    p.live[i]? = some (t, frames) →
    ProcStep p (.sbrk i n) ⟨(sysSbrk p.mmu t n).2.1, p.live.set i ((sysSbrk p.mmu t n).2.2,
        frames ∪ newFrames p.mmu (sysSbrk p.mmu t n).2.1), p.zombies,
      p.outstanding ∪ newFrames p.mmu (sysSbrk p.mmu t n).2.1⟩
  | exit {p : Procs} {i : ℕ} {z : Thread × Set ℕ} :
    p.live[i]? = some z →
    ProcStep p (.exit i) ⟨p.mmu, p.live.eraseIdx i, z :: p.zombies, p.outstanding⟩
  | cleanup {p : Procs} :
    ProcStep p .cleanup ⟨cleanupZombies p.mmu (p.zombies.map Prod.fst), p.live, [],
      { g ∈ p.outstanding |
        (cleanupZombies p.mmu (p.zombies.map Prod.fst)).pfa.isUsed g = true }⟩

/-! ## Freeing pages -/

/-- From `s` to `s'` the pages `P` were freed, those that were owned, and unmapped. -/
structure Frees (P : ℕ → Prop) (s : Mmu) (own : ℕ → Option ℕ) (s' : Mmu)
    (own' : ℕ → Option ℕ) : Prop where
  owns : Owns s' own'
  mem : ∀ p, P p → own' p = none
  notMem : ∀ p, ¬ P p → own' p = own p
  unmapped : ∀ p, P p → s'.pte (4096 * p) = none
  other : ∀ w, Canonical w → ¬ P (w / 4096) → s'.pte w = s.pte w
  used : ∀ g, s'.pfa.isUsed g = true ↔ s.pfa.isUsed g = true ∧ ∀ p, P p → own p ≠ some g

section Frees

variable {P Q : ℕ → Prop} {s s' s'' : Mmu} {own own' own'' : ℕ → Option ℕ} {p n : ℕ}

theorem Frees.refl (h : Owns s own) : Frees (fun _ => False) s own s own :=
  ⟨h, fun _ hp => hp.elim, fun _ _ => rfl, fun _ hp => hp.elim, fun _ _ _ => rfl,
    fun _ => (and_iff_left fun _ hp => hp.elim).symm⟩

theorem Frees.trans (h : Frees P s own s' own') (h' : Frees Q s' own' s'' own'')
    (hP : ∀ p, P p → p < 2 ^ 35) : Frees (fun p => P p ∨ Q p) s own s'' own'' where
  owns := h'.owns
  mem p hp := by
    by_cases hq : Q p
    · exact h'.mem p hq
    · rw [h'.notMem p hq, h.mem p (hp.resolve_right hq)]
  notMem p hp := by
    rw [not_or] at hp
    rw [h'.notMem p hp.2, h.notMem p hp.1]
  unmapped p hp := by
    by_cases hq : Q p
    · exact h'.unmapped p hq
    · have hp := hp.resolve_right hq
      have hlt := hP p hp
      rw [h'.other _ (.inl (by omega)) (by rwa [Nat.mul_div_cancel_left _ (by norm_num)]),
        h.unmapped p hp]
  other w hc hw := by
    rw [not_or] at hw
    rw [h'.other w hc hw.2, h.other w hc hw.1]
  used g := by
    rw [h'.used, h.used, and_assoc]
    refine and_congr_right fun _ => ⟨fun ⟨h1, h2⟩ p hp hg => ?_, fun hall => ?_⟩
    · by_cases hpp : P p
      · exact h1 p hpp hg
      · exact h2 p (hp.resolve_left hpp) (by rw [h.notMem p hpp, hg])
    refine ⟨fun p hp => hall p (.inl hp), fun q hq hg => hall q (.inr hq) ?_⟩
    by_cases hpq : P q
    · rw [h.mem q hpq] at hg
      cases hg
    · rwa [← h.notMem q hpq]

theorem Frees.congr (h : Frees P s own s' own') (hPQ : ∀ p, P p ↔ Q p) :
    Frees Q s own s' own' := by
  obtain rfl : P = Q := funext fun p => propext (hPQ p)
  exact h

theorem Mmu.pte_withPfa (s : Mmu) (pfa : Pfa) (v : ℕ) :
    ({ s with pfa := pfa } : Mmu).pte v = s.pte v := by
  simp only [Mmu.pte, Mmu.leaf, Mmu.walk, Mmu.entry_withPfa]
  rfl

theorem userWalk_withPfa (s : Mmu) (pfa : Pfa) (is : List (Fin 512)) (t : ℕ) :
    userWalk { s with pfa := pfa } t is = userWalk s t is := by
  induction is generalizing t with
  | nil => rfl
  | cons i is ih => rw [userWalk, userWalk, Mmu.entry_withPfa, ih]

theorem WellFormed.withPfa {r : ℕ} {pfa : Pfa} (h : WellFormed r s)
    (hu : ∀ q t, q.length ≤ 3 → s.walk r q = some t → pfa.isUsed t = true) :
    WellFormed r { s with pfa := pfa } := by
  refine ⟨?_, fun q t hq ht => ?_, fun q t i hq ht hp => ?_, fun q i e hq hl he => ?_⟩
  · rw [Mmu.entry_withPfa]
    exact h.spread
  · rw [Mmu.walk, Mmu.entry_withPfa] at ht
    exact hu q t hq ht
  · rw [Mmu.walk, Mmu.entry_withPfa] at ht
    rw [Mmu.entry_withPfa] at hp ⊢
    exact h.noLarge q t i hq ht hp
  · rw [Mmu.leaf, Mmu.walk, Mmu.entry_withPfa] at hl
    rw [userWalk_withPfa]
    exact h.user q i e hq hl he

theorem frees_owned {g : ℕ} (h : Owns s own) (hg : own p = some g) : Frees (· = p) s own
      (pagingUnmapPage { s with pfa := pfaFreeFrame s.pfa (g * 4096) } (4096 * p))
      (Function.update own p none) := by
  have hp := h.lower p g hg
  obtain ⟨hg0, hglt⟩ := h.frame p g hg
  set s₁ : Mmu := { s with pfa := pfaFreeFrame s.pfa (g * 4096) } with hs₁
  -- clearing the bit of a frame that is no table keeps the tables well formed
  have hused₁ : ∀ f, s₁.pfa.isUsed f = true ↔ s.pfa.isUsed f = true ∧ f ≠ g := by
    intro f
    rw [hs₁, Pfa.isUsed_free, Nat.mul_div_cancel _ (by norm_num), Bool.and_eq_true,
      Bool.not_eq_true', decide_eq_false_iff_not, and_comm]
    refine and_congr_right fun _ => not_congr ⟨And.left, ?_⟩
    rintro rfl
    exact ⟨rfl, hglt⟩
  have hwf₁ : WellFormed s₁.root s₁ := by
    refine h.wf.withPfa fun q t hq ht => (hused₁ t).2 ⟨h.wf.used q t hq ht, ?_⟩
    rintro rfl
    exact h.notTable p t hg q hq ht
  have hpte₁ : ∀ v, s₁.pte v = s.pte v := s.pte_withPfa _
  have hwalk₁ : ∀ r, s₁.walk s₁.root r = s.walk s.root r := fun r => by
    rw [Mmu.walk, Mmu.entry_withPfa]
    rfl
  have hu := pagingUnmapPage_spec hwf₁ (4096 * p)
  have hcases : ∀ q f, Function.update own p none q = some f → q ≠ p ∧ own q = some f := by
    intro q f hf
    rw [update_apply] at hf
    split_ifs at hf with hq
    exact ⟨hq, hf⟩
  have hvpn : ∀ q, q < 2 ^ 35 → (vpn (4096 * q) = vpn (4096 * p) ↔ q = p) := by
    unfold vpn
    omega
  refine ⟨⟨hu.wf, fun q f hf => h.lower q f (hcases q f hf).2, fun q f hf => ?_, fun q f hf => ?_,
    fun q f hf => ?_, fun q f hf r hr => ?_, fun q q' f hf hf' => ?_⟩, fun q hq => ?_,
    fun q hq => update_of_ne hq _ _, fun q hq => ?_, fun w hc hw => ?_, fun f => ?_⟩
  · obtain ⟨hqp, hq⟩ := hcases q f hf
    rw [hu.pte, if_neg fun he => hqp ((hvpn q (h.lower q f hq)).1 he), hpte₁]
    exact h.mapped q f hq
  · obtain ⟨hqp, hq⟩ := hcases q f hf
    rw [hu.pfa, hused₁]
    refine ⟨h.used q f hq, ?_⟩
    rintro rfl
    exact hqp (h.inj q p f hq hg)
  · rw [hu.pfa, hs₁, Pfa.totalFrames_free]
    exact h.frame q f (hcases q f hf).2
  · rw [Mmu.root_congr hu.cr3, hu.walk r hr, hwalk₁]
    exact h.notTable q f (hcases q f hf).2 r hr
  · exact h.inj q q' f (hcases q f hf).2 (hcases q' f hf').2
  · rw [hq, update_self]
  · rw [hu.pte, if_pos (by rw [hq])]
  · rw [hu.pte, if_neg]
    · exact hpte₁ w
    · rwa [vpn_eq_iff (.inl (by omega)) hc, Nat.mul_div_cancel_left _ (by norm_num)]
  · rw [hu.pfa, hused₁]
    refine and_congr_right fun _ => ⟨fun hne q hq hf => hne ?_, fun hall hf => hall p rfl (by rw [hf, hg])⟩
    rw [hq, hg] at hf
    exact (Option.some.inj hf).symm

theorem freePage_spec (h : Owns s own) (hp : own p = none → s.pte (4096 * p) = none) :
    ∃ own', Frees (· = p) s own (freePage s (4096 * p)) own' := by
  have hphys := @pagingGetPhysicalAddress_eq s (4096 * p)
  rw [freePage]
  cases hg : own p with
  | none =>
    rw [Mmu.translate, hp hg, map_none, getD_none] at hphys
    simp only [hphys, if_true]
    refine ⟨own, h, fun q hq => by rw [hq, hg], fun _ _ => rfl, fun q hq => by rw [hq, hp hg],
      fun _ _ _ => rfl, fun g => (and_iff_left fun q hq => ?_).symm⟩
    rw [hq, hg]
    exact (some_ne_none g).symm
  | some g =>
    have hg0 := (h.frame p g hg).1
    rw [Mmu.translate, h.mapped p g hg, map_some, getD_some, alignDown,
      or_div_page (by decide), or_div_page (by decide), Nat.mul_div_cancel _ (by norm_num),
      Nat.mul_mod_right, Nat.add_zero] at hphys
    simp only [hphys, if_neg (show g * 4096 ≠ 0 by omega)]
    exact ⟨_, frees_owned h hg⟩

theorem freePages_spec : ∀ {n p : ℕ} {s : Mmu} {own : ℕ → Option ℕ}, Owns s own → p + n ≤ 2 ^ 35 →
    (∀ q, p ≤ q → q < p + n → own q = none → s.pte (4096 * q) = none) →
    ∃ own', Frees (fun q => p ≤ q ∧ q < p + n) s own (freePages s (4096 * p) n) own'
  | 0, p, s, own, h, _, _ => ⟨own, (Frees.refl h).congr fun q => by simp⟩
  | n + 1, p, s, own, h, hle, hall => by
    obtain ⟨own₁, h₁⟩ := freePage_spec h (hall p le_rfl (by omega))
    obtain ⟨own', h'⟩ := freePages_spec (n := n) (p := p + 1) h₁.owns (by omega) fun q hq1 hq2 hq => by
      have hne : q ≠ p := by omega
      rw [h₁.notMem q hne] at hq
      rw [h₁.other _ (.inl (by omega)) (by rwa [Nat.mul_div_cancel_left _ (by norm_num)])]
      exact hall q (by omega) (by omega) hq
    refine ⟨own', ?_⟩
    exact (h₁.trans h' fun q hq => by omega).congr fun q => by omega

theorem Frees.clean (h : Frees P s own s' own') (hlt : p < 2 ^ 35)
    (hp : own p = none → s.pte (4096 * p) = none) : own' p = none → s'.pte (4096 * p) = none := by
  intro ho
  by_cases hPp : P p
  · exact h.unmapped p hPp
  · rw [h.other _ (.inl (by omega)) (by rwa [Nat.mul_div_cancel_left _ (by norm_num)])]
    exact hp (by rw [← h.notMem p hPp, ho])

def UserPage (t : Thread) (p : ℕ) : Prop :=
  (StackPage p ∨ t.userImageStart / 4096 ≤ p ∧ p < t.userImageEnd / 4096) ∨
    heapStartStandard / 4096 ≤ p ∧ 4096 * p < t.userHeapBreak

/-- The recorded ranges of a user thread lie in the lower half. -/
structure UserRanges (t : Thread) : Prop where
  isUser : t.isUser = true
  start_mod : t.userImageStart % 4096 = 0
  end_mod : t.userImageEnd % 4096 = 0
  end_le : t.userImageEnd ≤ userEnd
  base_le : heapStartStandard ≤ t.userHeapBreak
  break_le : t.userHeapBreak ≤ userEnd

theorem UserRanges.page_lt {t : Thread} (h : UserRanges t) (hp : UserPage t p) : p < 2 ^ 35 := by
  have h1 := h.end_le
  have h2 := h.break_le
  have hu : userEnd = 2 ^ 47 := rfl
  have hs : stackPage = 0x700000000 := rfl
  rcases hp with (hp | hp) | hp
  · unfold StackPage at hp
    omega
  · omega
  · omega

theorem cleanupThread_spec {t : Thread} (h : Owns s own) (ht : UserRanges t)
    (hall : ∀ p, UserPage t p → own p = none → s.pte (4096 * p) = none) :
    ∃ own', Frees (UserPage t) s own (cleanupThread s t) own' := by
  have hu : userEnd = 2 ^ 47 := rfl
  have hb : heapStartStandard = 4096 * 0x40000 := rfl
  have hbrk := ht.break_le
  have hend := ht.end_le
  have hsm := ht.start_mod
  have hem := ht.end_mod
  rw [cleanupThread, if_neg (by rw [ht.isUser]; exact Bool.noConfusion)]
  obtain ⟨own₁, h₁⟩ := freePages_spec (n := 4) (p := stackPage) h (by decide)
    fun q h1 h2 => hall q (.inl (.inl ⟨h1, h2⟩))
  set s₁ := freePages s (4096 * stackPage) 4
  -- the image
  have himg : ∃ own₂, Frees (fun p => t.userImageStart / 4096 ≤ p ∧ p < t.userImageEnd / 4096) s₁
      own₁ (if t.userImageStart < t.userImageEnd then
        freePages s₁ t.userImageStart ((t.userImageEnd - t.userImageStart + 4095) / 4096)
        else s₁) own₂ := by
    by_cases hlt : t.userImageStart < t.userImageEnd
    · rw [if_pos hlt]
      obtain ⟨own₂, h₂⟩ := freePages_spec (p := t.userImageStart / 4096)
        (n := (t.userImageEnd - t.userImageStart + 4095) / 4096) h₁.owns (by omega)
        fun q hq1 hq2 => h₁.clean (by omega) (hall q (.inl (.inr ⟨hq1, by omega⟩)))
      rw [show 4096 * (t.userImageStart / 4096) = t.userImageStart by omega] at h₂
      exact ⟨own₂, h₂.congr fun q => by omega⟩
    · rw [if_neg hlt]
      exact ⟨own₁, (Frees.refl h₁.owns).congr fun q => iff_of_false id (by omega)⟩
  obtain ⟨own₂, h₂⟩ := himg
  have h₁₂ := h₁.trans h₂ fun p hp => ht.page_lt (.inl (.inl hp))
  revert h₁₂
  intro h₁₂
  -- the heap
  by_cases hlt : heapStartStandard < t.userHeapBreak
  · rw [if_pos hlt]
    obtain ⟨own₃, h₃⟩ := freePages_spec (p := 0x40000)
      (n := (t.userHeapBreak - heapStartStandard + 4095) / 4096) h₁₂.owns (by omega)
      fun q hq1 hq2 => h₁₂.clean (by omega) (hall q (.inr ⟨by omega, by omega⟩))
    refine ⟨own₃, (h₁₂.trans h₃ fun p hp => ht.page_lt (.inl hp)).congr fun q => ?_⟩
    refine or_congr Iff.rfl ?_
    omega
  · rw [if_neg hlt]
    refine ⟨own₂, h₁₂.congr fun q => (or_iff_left ?_).symm⟩
    omega

end Frees

/-! ## Growing the heap -/

section Heap

variable {s : Mmu} {own : ℕ → Option ℕ} {m p : ℕ}

theorem sbrkUserPage_grows (h : Owns s own) (hp : p < 2 ^ 35)
    (hc : own p = none → s.pte (4096 * p) = none) (hf : HasFrames (m + 4) s) :
    ∃ s' own', sbrkUserPage s (4096 * p) = (true, s') ∧ Grows s own s' own' ∧ HasFrames m s' ∧
      (∃ g, own' p = some g) ∧ ∀ q, q ≠ p → own' q = own q := by
  have hdiv : 4096 * p / 4096 = p := Nat.mul_div_cancel_left _ (by norm_num)
  rw [sbrkUserPage]
  cases hg : own p with
  | some g =>
    rw [if_pos (h.accessible (by rw [hdiv, hg]))]
    exact ⟨s, own, rfl, .refl h, hf.mono (by omega), ⟨g, hg⟩, fun _ _ => rfl⟩
  | none =>
    have hna : pagingIsUserAccessible s (4096 * p) = false := by
      rw [pagingIsUserAccessible_eq h.wf, hc hg, any_none]
    have hphys : pagingGetPhysicalAddress s (4096 * p) = 0 := by
      rw [pagingGetPhysicalAddress_eq, Mmu.translate, hc hg]
      rfl
    obtain ⟨g, s₁, halloc, hm, hf'⟩ := hf.mapsFresh h.wf (4096 * p)
    have hgr := Grows.of_mapsFresh h hm (by omega) (by rw [hdiv, hg])
    rw [hdiv] at hgr
    have hg0 : g * 4096 ≠ 0 := by
      have := hm.ne_zero
      omega
    rw [if_neg (by rw [hna]; exact Bool.noConfusion), hphys]
    simp only [if_true, halloc, if_neg hg0]
    exact ⟨_, _, rfl, hgr, hf', ⟨g, update_self ..⟩,
      fun q hq => update_of_ne hq _ _⟩

theorem sbrkUserLoop_grows : ∀ {n p : ℕ} {s : Mmu} {own : ℕ → Option ℕ}, Owns s own →
    p + n ≤ 2 ^ 35 → (∀ q, p ≤ q → q < p + n → own q = none → s.pte (4096 * q) = none) →
    HasFrames (m + 4 * n) s →
    ∃ s' own', sbrkUserLoop s (4096 * p) n = (true, s') ∧ Grows s own s' own' ∧ HasFrames m s' ∧
      (∀ q, p ≤ q → q < p + n → ∃ g, own' q = some g) ∧
      ∀ q, ¬ (p ≤ q ∧ q < p + n) → own' q = own q
  | 0, p, s, own, h, _, _, hf => ⟨s, own, rfl, .refl h, hf, fun q h1 h2 => by omega, fun _ _ => rfl⟩
  | n + 1, p, s, own, h, hle, hc, hf => by
    obtain ⟨s₁, own₁, hs₁, hg₁, hf₁, hin₁, hout₁⟩ := sbrkUserPage_grows (m := m + 4 * n) h
      (by omega) (hc p le_rfl (by omega)) hf
    obtain ⟨s', own', hs', hg', hf', hin', hout'⟩ := sbrkUserLoop_grows (n := n) (p := p + 1)
      hg₁.owns (by omega) (fun q h1 h2 hq => by
        have hcan : Canonical (4096 * q) := .inl (by omega)
        have hdiv : 4096 * q / 4096 = q := Nat.mul_div_cancel_left _ (by norm_num)
        rw [hg₁.other _ hcan (by rw [hdiv, hq])]
        exact hc q (by omega) (by omega) (by rw [← hout₁ q (by omega), hq])) hf₁
    refine ⟨s', own', ?_, hg₁.trans hg', hf', fun q h1 h2 => ?_, fun q hq => ?_⟩
    · rw [sbrkUserLoop, hs₁]
      dsimp only
      rw [show 4096 * p + 4096 = 4096 * (p + 1) by ring, hs']
    · by_cases hqp : q = p
      · obtain ⟨g, hg⟩ := hin₁
        exact ⟨g, hg'.keep q g (by rw [hqp, hg])⟩
      · exact hin' q (by omega) (by omega)
    · rw [hout' q (by omega), hout₁ q (by omega)]

end Heap

end KeonOS
