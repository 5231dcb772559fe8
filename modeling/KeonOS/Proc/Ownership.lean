import KeonOS.Proc.Lifecycle
import KeonOS.Exec.Image

/-!
# Frame ownership

With one user thread at a time, `cleanup_zombies` frees exactly the frames of the dead thread. With two,
it frees the stack of the other one.

* **`frame_ownership`**: in every run of such steps cleaning up is safe, and no frame is lost;
* **`programs_load_in_turn`**: programs can be run one after another;
* `cleanup_frees_live_stack`: a second thread loses its stack.
-/

namespace KeonOS

open Word Relation List

/-! ## The property -/

/-- What is freed was allocated for the dead thread, and the pages of running threads stay mapped. -/
def CleanupSafe (live : List (Thread × Set ℕ)) : List (Thread × Set ℕ) → Mmu → Prop
  | [], _ => True
  | z :: zs, s =>
    (∀ g, s.pfa.isUsed g = true → (cleanupThread s z.1).pfa.isUsed g = false → g ∈ z.2) ∧
    (∀ w e, Canonical w → s.pte w = some e → (cleanupThread s z.1).pte w ≠ some e → e / 4096 ∈ z.2) ∧
    (∀ l ∈ live, ∀ w e, Canonical w → s.pte w = some e → e / 4096 ∈ l.2 →
      (cleanupThread s z.1).pte w = some e ∧ (cleanupThread s z.1).pfa.isUsed (e / 4096) = true) ∧
    CleanupSafe live zs (cleanupThread s z.1)

/-! ## The condition -/

/-- Segments in the lower half and in the file, on pages of their own and off the stack, with four free
frames for every page. -/
structure LoadOkay (s : Mmu) (f : KFile) (phs : List Phdr) : Prop where
  good : ∀ ph ∈ phs, Loadable ph → GoodSegment f ph
  disjoint : PagesDisjoint phs
  offStack : ∀ p, ImagePage phs p → ¬ StackPage p
  gaps : ∀ p, (imageBounds phs).1 / 4096 ≤ p → p < ((imageBounds phs).2 + 4095) / 4096 →
    ImagePage phs p ∨ s.pte (4096 * p) = none
  frames : HasFrames (4 * (4 + imagePages phs)) s

def Okay (p : Procs) : Event → Prop
  | .load _ f slack => p.live = [] ∧ p.zombies = [] ∧
      ∀ phs, kexCheck f slack = some phs → LoadOkay p.mmu f phs
  | .sbrk i n => ∀ t frames, p.live[i]? = some (t, frames) → t.userHeapBreak + n ≤ userEnd ∧
      HasFrames (4 * (sbrkRange t.userHeapBreak n).2) p.mmu
  | .exit _ => True
  | .cleanup => True

/-! ## The invariant -/

/-- Above the heap base, only owned pages are mapped. -/
def HighClear (s : Mmu) (own : ℕ → Option ℕ) : Prop :=
  ∀ p, heapStartStandard / 4096 ≤ p → p < 2 ^ 35 → own p = none → s.pte (4096 * p) = none

/-- No user thread: the lower half is free above the heap base. -/
structure Idle (s : Mmu) : Prop where
  wf : WellFormed s.root s
  high : HighClear s fun _ => none

structure Busy (s : Mmu) (t : Thread) (frames : Set ℕ) (own : ℕ → Option ℕ) : Prop where
  owns : Owns s own
  ranges : UserRanges t
  inRange : ∀ p g, own p = some g → UserPage t p
  clear : ∀ p, UserPage t p → own p = none → s.pte (4096 * p) = none
  high : HighClear s own
  frames : ∀ g, g ∈ frames ↔ ∃ p, own p = some g

/-- At most one user thread is running or dead, and the outstanding frames are its frames. -/
def ProcInv (p : Procs) : Prop := p.live = [] ∧ p.zombies = [] ∧ p.outstanding = ∅ ∧ Idle p.mmu ∨
  ∃ t frames own, (p.live = [(t, frames)] ∧ p.zombies = [] ∨
    p.live = [] ∧ p.zombies = [(t, frames)]) ∧ p.outstanding = frames ∧ Busy p.mmu t frames own

section Lemmas

variable {s s' : Mmu} {own own' : ℕ → Option ℕ} {t : Thread} {frames : Set ℕ} {p : ℕ}

theorem newFrames_self (s : Mmu) : newFrames s s = ∅ := by
  refine Set.eq_empty_of_forall_notMem ?_
  rintro g ⟨h1, h2, -⟩
  rw [h1] at h2
  exact Bool.noConfusion h2

theorem mem_newFrames_of_grows (h : Grows s own s' own') (g : ℕ) :
    (∃ p, own p = some g) ∨ g ∈ newFrames s s' ↔ ∃ p, own' p = some g := by
  constructor
  · rintro (⟨p, hp⟩ | ⟨hfree, hused, hnt⟩)
    · exact ⟨p, h.keep p g hp⟩
    rcases h.tables g hused with hu | hp | ⟨q, hq, ht⟩
    · rw [hfree] at hu
      exact Bool.noConfusion hu
    · exact hp
    · exact absurd ht (hnt q hq)
  · rintro ⟨p, hp⟩
    rcases h.fresh p g hp with hp' | hfree
    · exact .inl ⟨p, hp'⟩
    · exact .inr ⟨hfree, h.owns.used p g hp, h.owns.notTable p g hp⟩

theorem Grows.clean (h : Grows s own s' own') (hlt : p < 2 ^ 35)
    (hp : own p = none → s.pte (4096 * p) = none) : own' p = none → s'.pte (4096 * p) = none := by
  intro ho
  have hcan : Canonical (4096 * p) := .inl (by omega)
  rw [h.other _ hcan (by rw [Nat.mul_div_cancel_left _ (by norm_num), ho])]
  refine hp ?_
  cases hg : own p with
  | none => rfl
  | some g =>
    rw [h.keep p g hg] at ho
    cases ho

theorem HighClear.grows (h : HighClear s own) (hg : Grows s own s' own') : HighClear s' own' :=
  fun p h1 h2 => hg.clean h2 (h p h1 h2)

/-! ## Steps -/

theorem Idle.load {f : KFile} {slack : Mem} {phs : List Phdr} (h : Idle s) (id : ℕ)
    (hc : kexCheck f slack = some phs) (hok : LoadOkay s f phs) :
    ∃ s' t own, kexLoad s id f slack = .loaded s' t ∧ Busy s'.mmu t (newFrames s s'.mmu) own := by
  have hu : userEnd = 2 ^ 47 := rfl
  have hb : heapStartStandard = 0x40000000 := rfl
  have hv : ∀ ph ∈ phs, ph.pVaddr < 2 ^ 64 := fun ph hph => kexCheck_vaddr_lt hc hph
  obtain ⟨s', t, own, hl, -, hp⟩ := @kexLoad_total s id 0 f slack phs h.wf hc
    (fun ph hph => ⟨hv ph hph, hok.good ph hph⟩) (hok.frames.mono (by omega))
  have hg := hp.grows hok.disjoint hok.offStack
  have hle := hp.le_user
  have hst : t.userImageStart / 4096 = (imageBounds phs).1 / 4096 := by
    rw [hp.imageStart, alignDown]
    omega
  have hen : t.userImageEnd = ((imageBounds phs).2 + 4095) / 4096 * 4096 := hp.imageEnd
  have hbr : t.userHeapBreak =
      (max (imageBounds phs).2 heapStartStandard + 4095) / 4096 * 4096 := hp.heapBreak
  have hranges : UserRanges t := by
    refine ⟨hp.isUser, ?_, ?_, ?_, ?_, ?_⟩
    · rw [hp.imageStart, alignDown]
      omega
    · omega
    · omega
    · omega
    · omega
  refine ⟨s', t, own, hl, hp.owns, hranges, fun p g hpg => ?_, fun p hpu => ?_, h.high.grows hg,
    fun g => ?_⟩
  · rcases (hp.mem p).2 ⟨g, hpg⟩ with hstack | ⟨ph, hph, hl, hpage⟩
    · exact .inl (.inl hstack)
    · obtain ⟨h1, h2⟩ := hp.bounds ph hph hl
      unfold HasPage at hpage
      exact .inl (.inr ⟨by omega, by omega⟩)
  · intro ho
    have hno : ¬ (StackPage p ∨ ImagePage phs p) := fun hsp => by
      obtain ⟨g, hpg⟩ := (hp.mem p).1 hsp
      rw [ho] at hpg
      cases hpg
    rw [not_or] at hno
    have hs : s.pte (4096 * p) = none := by
      rcases hpu with (hpu | hpu) | hpu
      · exact absurd hpu hno.1
      · exact (hok.gaps p (by omega) (by omega)).resolve_left hno.2
      · exact h.high p hpu.1 (hranges.page_lt (.inr hpu)) rfl
    exact hg.clean (hranges.page_lt hpu) (fun _ => hs) ho
  · rw [← mem_newFrames_of_grows hg g]
    exact ⟨.inr, fun h => h.resolve_left (by simp)⟩

theorem Busy.sbrk {n : ℕ} (h : Busy s t frames own) (hle : t.userHeapBreak + n ≤ userEnd)
    (hf : HasFrames (4 * (sbrkRange t.userHeapBreak n).2) s) :
    ∃ own', Busy (sysSbrk s t n).2.1 (sysSbrk s t n).2.2
      (frames ∪ newFrames s (sysSbrk s t n).2.1) own' := by
  have hu : userEnd = 2 ^ 47 := rfl
  have hbase := h.ranges.base_le
  by_cases hn : n = 0
  · have hcall : sysSbrk s t n = (t.userHeapBreak, s, t) := by
      rw [sysSbrk, if_neg (by rw [h.ranges.isUser]; exact Bool.noConfusion), if_pos hn]
    rw [hcall]
    refine ⟨own, ?_⟩
    rwa [newFrames_self, Set.union_empty]
  -- the pages of the call
  have hsum : add64 t.userHeapBreak n = t.userHeapBreak + n := add64_of_lt (by omega)
  have hstart : (sbrkRange t.userHeapBreak n).1 = 4096 * (t.userHeapBreak / 4096) := by
    rw [sbrkRange, alignDown, Nat.mul_comm]
  have hcount : (sbrkRange t.userHeapBreak n).2 =
      (t.userHeapBreak + n + 4095) / 4096 - t.userHeapBreak / 4096 := by
    rw [sbrkRange, hsum, alignUp64_of_lt (by omega), alignUp, alignDown, alignDown]
    omega
  obtain ⟨s', own', hloop, hg, -, hin, hout⟩ := @sbrkUserLoop_grows 0
    (sbrkRange t.userHeapBreak n).2 (t.userHeapBreak / 4096) s own h.owns (by omega)
    (fun q h1 h2 => h.high q (by omega) (by omega)) (hf.mono (by omega))
  have hcall : sysSbrk s t n = (t.userHeapBreak, s',
      { t with userHeapBreak := t.userHeapBreak + n }) := by
    rw [sysSbrk, if_neg (by rw [h.ranges.isUser]; exact Bool.noConfusion), if_neg hn]
    dsimp only
    rw [hstart, hloop, hsum]
  rw [hcall]
  have hranges : UserRanges { t with userHeapBreak := t.userHeapBreak + n } :=
    { h.ranges with
      base_le := by dsimp only; omega
      break_le := hle }
  have hmono : ∀ p, UserPage t p → UserPage { t with userHeapBreak := t.userHeapBreak + n } p := by
    rintro p (hp | hp)
    · exact .inl hp
    · exact .inr ⟨hp.1, by dsimp only; omega⟩
  refine ⟨own', hg.owns, hranges, fun p g hpg => ?_, fun p hpu => ?_, h.high.grows hg, fun g => ?_⟩
  · by_cases hp : t.userHeapBreak / 4096 ≤ p ∧
        p < t.userHeapBreak / 4096 + (sbrkRange t.userHeapBreak n).2
    · exact .inr ⟨by omega, by dsimp only; omega⟩
    · exact hmono p (h.inRange p g (by rw [← hout p hp, hpg]))
  · refine hg.clean (hranges.page_lt hpu) fun ho => ?_
    rcases hpu with hpu | hpu
    · exact h.clear p (.inl hpu) ho
    · exact h.high p hpu.1 (hranges.page_lt (.inr hpu)) ho
  · rw [Set.mem_union, h.frames g]
    exact mem_newFrames_of_grows hg g

theorem Busy.cleanup (h : Busy s t frames own) :
    Idle (cleanupThread s t) ∧ (∀ g ∈ frames, (cleanupThread s t).pfa.isUsed g = false) ∧
      CleanupSafe [] [(t, frames)] s := by
  obtain ⟨own', hfr⟩ := cleanupThread_spec h.owns h.ranges h.clear
  have hnone : own' = fun _ => none := by
    funext p
    by_cases hp : UserPage t p
    · exact hfr.mem p hp
    · rw [hfr.notMem p hp]
      cases hg : own p with
      | none => rfl
      | some g => exact absurd (h.inRange p g hg) hp
  have hhigh : HighClear (cleanupThread s t) own' := fun p h1 h2 =>
    hfr.clean h2 (h.high p h1 h2)
  rw [hnone] at hhigh
  refine ⟨⟨hfr.owns.wf, hhigh⟩, fun g hg => ?_, fun g hu hfree => ?_, fun w e hc hw hne => ?_,
    fun l hl => absurd hl not_mem_nil, trivial⟩
  · obtain ⟨p, hp⟩ := (h.frames g).1 hg
    refine Bool.eq_false_of_not_eq_true fun hu => ?_
    exact ((hfr.used g).1 hu).2 p (h.inRange p g hp) hp
  · -- a frame that is freed was owned
    by_contra hno
    have hused := (hfr.used g).2 ⟨hu, fun p _ hp => hno ((h.frames g).2 ⟨p, hp⟩)⟩
    rw [hused] at hfree
    exact Bool.noConfusion hfree
  -- a page that is unmapped was owned
  have hpage : UserPage t (w / 4096) := by
    by_contra hno
    exact hne (by rw [hfr.other w hc hno, hw])
  have hvpn : vpn w = vpn (4096 * (w / 4096)) := by
    unfold vpn
    omega
  rw [Mmu.pte_of_vpn hvpn] at hw
  cases hg : own (w / 4096) with
  | none =>
    rw [h.clear _ hpage hg] at hw
    cases hw
  | some g =>
    rw [h.owns.mapped _ g hg, Option.some.injEq] at hw
    rw [← hw, or_div_page (by decide), or_div_page (by decide), Nat.mul_div_cancel _ (by norm_num)]
    exact (h.frames g).2 ⟨_, hg⟩

end Lemmas

/-! ## Runs -/

section Runs

variable {p p' : Procs} {e : Event}

theorem Busy.used {s : Mmu} {t : Thread} {frames : Set ℕ} {own : ℕ → Option ℕ}
    (h : Busy s t frames own) {g : ℕ} (hg : g ∈ frames) : s.pfa.isUsed g = true := by
  obtain ⟨p, hp⟩ := (h.frames g).1 hg
  exact h.owns.used p g hp

theorem procInv_load {id : ℕ} {f : KFile} {slack : Mem} (h : ProcInv p)
    (hok : Okay p (.load id f slack)) (hst : ProcStep p (.load id f slack) p') : ProcInv p' := by
  obtain ⟨hlive, hzombies, hall⟩ := hok
  rcases h with ⟨-, -, hout, hidle⟩ | ⟨t, frames, own, hthread, -, -⟩
  · cases hc : kexCheck f slack with
    | none =>
      have hk : kexLoad p.mmu id f slack = .error ⟨p.mmu, []⟩ := by rw [kexLoad, hc]
      cases hst with
      | loaded hl => rw [hk] at hl; cases hl
      | killed hl => rw [hk] at hl; cases hl
      | error hl =>
        rw [hk] at hl
        cases hl
        refine .inl ⟨hlive, hzombies, ?_, hidle⟩
        rw [newFrames_self, hout, Set.union_empty]
    | some phs =>
      obtain ⟨s', t, own, hk, hbusy⟩ := hidle.load id hc (hall phs hc)
      cases hst with
      | loaded hl =>
        rw [hk] at hl
        cases hl
        refine .inr ⟨t, _, own, .inl ⟨by rw [hlive], hzombies⟩, ?_, hbusy⟩
        rw [hout, Set.empty_union]
      | killed hl => rw [hk] at hl; cases hl
      | error hl => rw [hk] at hl; cases hl
  · rcases hthread with ⟨hl, -⟩ | ⟨-, hz⟩
    · rw [hlive] at hl
      cases hl
    · rw [hzombies] at hz
      cases hz

theorem procInv_step (h : ProcInv p) (hok : Okay p e) (hst : ProcStep p e p') : ProcInv p' := by
  cases e with
  | load id f slack => exact procInv_load h hok hst
  | sbrk i n =>
    obtain ⟨t, frames, hi, rfl⟩ : ∃ t frames, p.live[i]? = some (t, frames) ∧
        p' = ⟨(sysSbrk p.mmu t n).2.1, p.live.set i ((sysSbrk p.mmu t n).2.2,
          frames ∪ newFrames p.mmu (sysSbrk p.mmu t n).2.1), p.zombies,
          p.outstanding ∪ newFrames p.mmu (sysSbrk p.mmu t n).2.1⟩ := by
      cases hst with
      | sbrk hi => exact ⟨_, _, hi, rfl⟩
    obtain ⟨hle, hf⟩ := hok t frames hi
    rcases h with ⟨hlive, -⟩ | ⟨t', frames', own, ⟨hlive, hz⟩ | ⟨hlive, -⟩, hout, hbusy⟩
    · rw [hlive] at hi
      cases hi
    · rw [hlive, getElem?_singleton] at hi
      split_ifs at hi with hi0
      cases hi
      subst hi0
      obtain ⟨own', hbusy'⟩ := hbusy.sbrk hle hf
      refine .inr ⟨_, _, own', .inl ⟨?_, hz⟩, ?_, hbusy'⟩
      · rw [hlive, set_cons_zero]
      · rw [hout]
    · rw [hlive] at hi
      cases hi
  | exit i =>
    obtain ⟨z, hi, rfl⟩ : ∃ z, p.live[i]? = some z ∧
        p' = ⟨p.mmu, p.live.eraseIdx i, z :: p.zombies, p.outstanding⟩ := by
      cases hst with
      | exit hi => exact ⟨_, hi, rfl⟩
    rcases h with ⟨hlive, -⟩ | ⟨t, frames, own, ⟨hlive, hz⟩ | ⟨hlive, -⟩, hout, hbusy⟩
    · rw [hlive] at hi
      cases hi
    · rw [hlive, getElem?_singleton] at hi
      split_ifs at hi with hi0
      cases hi
      subst hi0
      refine .inr ⟨t, frames, own, .inr ⟨?_, ?_⟩, hout, hbusy⟩
      · rw [hlive, eraseIdx_cons_zero]
      · rw [hz]
    · rw [hlive] at hi
      cases hi
  | cleanup =>
    cases hst
    rcases h with ⟨hlive, hz, hout, hidle⟩ | ⟨t, frames, own, ⟨hlive, hz⟩ | ⟨hlive, hz⟩, hout, hbusy⟩
    · refine .inl ⟨hlive, rfl, ?_, ?_⟩
      · rw [hout]
        exact Set.sep_empty _
      · rwa [hz]
    · refine .inr ⟨t, frames, own, .inl ⟨hlive, rfl⟩, ?_, ?_⟩
      · rw [hz, hout]
        exact Set.sep_eq_self_iff_mem_true.2 fun g hg => hbusy.used hg
      · rwa [hz]
    · obtain ⟨hidle, hfree, -⟩ := hbusy.cleanup
      refine .inl ⟨hlive, rfl, ?_, ?_⟩
      · rw [hz, hout]
        refine Set.eq_empty_of_forall_notMem ?_
        rintro g ⟨hg, hu⟩
        rw [show cleanupZombies p.mmu ([(t, frames)].map Prod.fst) = cleanupThread p.mmu t from rfl,
          hfree g hg] at hu
        exact Bool.noConfusion hu
      · rwa [hz]

def OkayStep (p p' : Procs) : Prop := ∃ e, Okay p e ∧ ProcStep p e p'

/-- **Frame ownership.** Cleaning up is safe, and once every user thread has been cleaned up all their
frames are free. -/
theorem frame_ownership {s : Mmu} (h : Idle s) (hrun : ReflTransGen OkayStep ⟨s, [], [], ∅⟩ p) :
    CleanupSafe p.live p.zombies p.mmu ∧ (p.live = [] → p.zombies = [] → p.outstanding = ∅) := by
  have hinv : ProcInv p := by
    induction hrun with
    | refl => exact .inl ⟨rfl, rfl, rfl, h⟩
    | tail _ hst ih =>
      obtain ⟨e, hok, hst⟩ := hst
      exact procInv_step ih hok hst
  rcases hinv with ⟨-, hz, hout, -⟩ | ⟨t, frames, own, ⟨hlive, hz⟩ | ⟨hlive, hz⟩, -, hbusy⟩
  · rw [hz]
    exact ⟨trivial, fun _ _ => hout⟩
  · rw [hz]
    refine ⟨trivial, fun hl => ?_⟩
    rw [hlive] at hl
    cases hl
  · rw [hz, hlive]
    exact ⟨hbusy.cleanup.2.2, fun _ hz' => by cases hz'⟩

end Runs

/-! ## Two programs -/

def noSegments : KFile where
  size := 139
  byte k := (programBytes etExec [⟨ptNote, 120, 0, 19, 19⟩]).getD k 0
  size_lt := by norm_num

theorem kexCheck_noSegments : kexCheck noSegments (fun _ => 0) = some [⟨ptNote, 120, 0, 19, 19⟩] := by
  decide +kernel

theorem idle_emptyTables : Idle emptyTables := ⟨wellFormed_emptyTables, fun _ _ _ _ => emptyTables_pte _⟩

theorem not_imagePage_noSegments (p : ℕ) : ¬ ImagePage [⟨ptNote, 120, 0, 19, 19⟩] p := by
  rintro ⟨ph, hph, hl, -⟩
  rw [mem_singleton] at hph
  subst hph
  exact absurd hl (by decide)

theorem loadOkay_noSegments : LoadOkay emptyTables noSegments [⟨ptNote, 120, 0, 19, 19⟩] where
  good ph hph hl := by
    rw [mem_singleton] at hph
    subst hph
    exact absurd hl (by decide)
  disjoint := pairwise_singleton _ _
  offStack p hp := absurd hp (not_imagePage_noSegments p)
  gaps p _ _ := .inr (emptyTables_pte _)
  frames := by decide +kernel

theorem frame_ownership_noSegments :
    ∃ p, ReflTransGen OkayStep ⟨emptyTables, [], [], ∅⟩ p ∧ p.live = [] ∧ p.zombies = [] ∧
      p.outstanding = ∅ := by
  obtain ⟨s', t, own, hk, -⟩ := idle_emptyTables.load 2 kexCheck_noSegments loadOkay_noSegments
  have h₁ : OkayStep ⟨emptyTables, [], [], ∅⟩ _ := ⟨.load 2 noSegments fun _ => 0, ⟨rfl, rfl,
    fun phs hc => by
      rw [kexCheck_noSegments, Option.some.injEq] at hc
      exact hc ▸ loadOkay_noSegments⟩, .loaded hk⟩
  have h₂ : OkayStep _ _ := ⟨.exit 0, trivial, .exit (p := ⟨s'.mmu,
    [(t, newFrames emptyTables s'.mmu)], [], ∅ ∪ newFrames emptyTables s'.mmu⟩) rfl⟩
  have h₃ : OkayStep _ _ := ⟨.cleanup, trivial, .cleanup (p := ⟨s'.mmu, [],
    [(t, newFrames emptyTables s'.mmu)], ∅ ∪ newFrames emptyTables s'.mmu⟩)⟩
  have hrun := ((ReflTransGen.single h₁).tail h₂).tail h₃
  exact ⟨_, hrun, rfl, rfl, (frame_ownership idle_emptyTables hrun).2 rfl rfl⟩

theorem kexLoad_noSegments {s : Mmu} {m : ℕ} (id : ℕ) (hw : WellFormed s.root s)
    (hf : HasFrames (m + 16) s) :
    ∃ s' t own, kexLoad s id noSegments (fun _ => 0) = .loaded s' t ∧ HasFrames m s'.mmu ∧
      Grows s (fun _ => none) s'.mmu own ∧ (∀ p, StackPage p ↔ ∃ g, own p = some g) ∧
      UserRanges t ∧ ∀ p, UserPage t p → StackPage p := by
  obtain ⟨s', t, own, hl, hf', hp⟩ := @kexLoad_total s id m _ _ _ hw kexCheck_noSegments
    (fun ph hph => ⟨kexCheck_vaddr_lt kexCheck_noSegments hph, loadOkay_noSegments.good ph hph⟩) hf
  have hstart : t.userImageStart = 2 ^ 64 - 4096 := hp.imageStart
  have hend : t.userImageEnd = 0 := hp.imageEnd
  have hbrk : t.userHeapBreak = 0x40000000 := hp.heapBreak
  have hb : heapStartStandard = 0x40000000 := rfl
  refine ⟨s', t, own, hl, hf', hp.grows (pairwise_singleton _ _) loadOkay_noSegments.offStack,
    fun p => ?_, ⟨hp.isUser, by omega, by omega, ?_, by omega, ?_⟩, ?_⟩
  · rw [← hp.mem p, or_iff_left (not_imagePage_noSegments p)]
  · rw [hend]
    exact Nat.zero_le _
  · rw [hbrk]
    decide
  · rintro p ((hp | hp) | hp)
    · exact hp
    · omega
    · omega

/-- **Cleaning up frees the stack of a running thread**: two programs are loaded and the first is killed. -/
theorem cleanup_frees_live_stack :
    ∃ p, ReflTransGen (fun p p' => ∃ e, ProcStep p e p') ⟨emptyTables, [], [], ∅⟩ p ∧
      (∃ l ∈ p.live, ∃ g ∈ l.2, p.mmu.translate userStack = some (4096 * g) ∧
        (cleanupZombies p.mmu (p.zombies.map Prod.fst)).translate userStack = none ∧
        (cleanupZombies p.mmu (p.zombies.map Prod.fst)).pfa.isUsed g = false) ∧
      ¬ CleanupSafe p.live p.zombies p.mmu := by
  obtain ⟨s₁, t₁, own₁, hl₁, hf₁, hg₁, -, hr₁, hpage₁⟩ := @kexLoad_noSegments emptyTables 16 2
    wellFormed_emptyTables (by decide +kernel)
  obtain ⟨s₂, t₂, own₂, hl₂, -, hg₂, hown₂, -, -⟩ := @kexLoad_noSegments s₁.mmu 0 3 hg₁.owns.wf hf₁
  -- the first page of the stack belongs to the second thread
  have hstack : StackPage stackPage := ⟨le_rfl, by decide⟩
  obtain ⟨g, hg⟩ := (hown₂ stackPage).1 hstack
  have hgF : g ∈ newFrames s₁.mmu s₂.mmu :=
    ((mem_newFrames_of_grows hg₂ g).2 ⟨_, hg⟩).resolve_left fun ⟨_, h⟩ => by cases h
  have hpte : s₂.mmu.pte userStack = some (g * 4096 ||| userFlags ||| ptePresent) :=
    hg₂.owns.mapped stackPage g hg
  have hdiv : (g * 4096 ||| userFlags ||| ptePresent) / 4096 = g := by
    rw [or_div_page (by decide), or_div_page (by decide), Nat.mul_div_cancel _ (by norm_num)]
  -- cleaning up after the first thread frees it
  obtain ⟨own', hfr⟩ := cleanupThread_spec hg₂.owns hr₁ fun p hp ho => by
    obtain ⟨g', hg'⟩ := (hown₂ p).1 (hpage₁ p hp)
    rw [ho] at hg'
    cases hg'
  have hup : UserPage t₁ stackPage := .inl (.inl hstack)
  have hgone : (cleanupThread s₂.mmu t₁).pte userStack = none := hfr.unmapped stackPage hup
  have hfreed : (cleanupThread s₂.mmu t₁).pfa.isUsed g = false :=
    Bool.eq_false_of_not_eq_true fun hu => ((hfr.used g).1 hu).2 _ hup hg
  refine ⟨⟨s₂.mmu, [(t₂, newFrames s₁.mmu s₂.mmu)], [(t₁, newFrames emptyTables s₁.mmu)],
    ∅ ∪ newFrames emptyTables s₁.mmu ∪ newFrames s₁.mmu s₂.mmu⟩, ?_,
    ⟨_, mem_singleton_self _, g, hgF, ?_, ?_, hfreed⟩, fun hsafe => ?_⟩
  · refine ((ReflTransGen.single ⟨.load 2 noSegments fun _ => 0, .loaded hl₁⟩).tail
      ⟨.load 3 noSegments fun _ => 0, .loaded hl₂⟩).tail ⟨.exit 1, ?_⟩
    exact .exit (p := ⟨s₂.mmu, [(t₂, newFrames s₁.mmu s₂.mmu), (t₁, newFrames emptyTables s₁.mmu)],
      [], _⟩) rfl
  · rw [Mmu.translate, hpte, Option.map_some, alignDown, hdiv, Nat.mul_comm]
    rfl
  · rw [Mmu.translate, show cleanupZombies s₂.mmu ([(t₁, newFrames emptyTables s₁.mmu)].map
      Prod.fst) = cleanupThread s₂.mmu t₁ from rfl, hgone, Option.map_none]
  · have h := (hsafe.2.2.1 _ (mem_singleton_self _) userStack _ (by decide) hpte
      (by rw [hdiv]; exact hgF)).1
    rw [hgone] at h
    cases h

end KeonOS
