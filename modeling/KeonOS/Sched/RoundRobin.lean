import KeonOS.Sched.Queue

/-!
# Round robin

What a sequence of `yield` calls dispatches, when nothing else happens in between.

* **`RunQueue.yield_eq`**: `yield` dispatches the first runnable thread after its start, or else the
  idle thread;
* **`round_robin`**: once round the ring every runnable thread is dispatched once, in ring order, and
  no thread that cannot run ever is.
-/

namespace KeonOS

open Option

def Tcb.Ready (c : Tcb) : Prop := c.state = .ready ∨ c.state = .sleeping ∧ c.sleepTicks = 0

instance (c : Tcb) : Decidable c.Ready := inferInstanceAs (Decidable (_ ∨ _))

theorem wakeSleeper_ready_iff (c : Tcb) : (wakeSleeper c).state = .ready ↔ c.Ready := by
  unfold wakeSleeper Tcb.Ready
  split_ifs with h
  · simp [h]
  · simp [h]

theorem wakeSleeper_Ready (c : Tcb) : (wakeSleeper c).Ready ↔ c.Ready := by
  unfold wakeSleeper
  split_ifs with h
  · simp [Tcb.Ready, h]
  · rfl

namespace Sched

def Runnable (s : Sched) (a : ℕ) : Prop := a ≠ s.idleThread ∧ ∃ c ∈ s.tcb a, c.Ready

instance (s : Sched) (a : ℕ) : Decidable (s.Runnable a) :=
  decidable_of_iff (a ≠ s.idleThread ∧ (s.tcb a).any (fun c => decide c.Ready) = true) <| by
    unfold Runnable
    cases s.tcb a <;> simp

variable {s : Sched} {ring : List ℕ} {a cur : ℕ}

theorem afterWalk_next : (s.afterWalk ring wakeSleeper cur).next = s.next :=
  mapOn_next fun c => by unfold wakeSleeper; split_ifs <;> rfl

theorem afterWalk_runnable : (s.afterWalk ring wakeSleeper cur).Runnable a ↔ s.Runnable a := by
  unfold Runnable
  simp only [afterWalk, mapOn]
  split_ifs
  · cases s.tcb a <;> simp [wakeSleeper_Ready]
  · rfl

theorem afterWalk_canRun (ha : a ∈ s.idleThread :: ring) :
    (s.mapOn (s.idleThread :: ring) wakeSleeper).CanRun s.idleThread a ↔ s.Runnable a := by
  unfold CanRun Runnable
  simp only [mapOn, if_pos ha]
  cases s.tcb a <;> simp [wakeSleeper_ready_iff, and_comm]

end Sched

/-! ## One call -/

/-- A ring through the idle thread, and a current thread that is on it or exiting. -/
structure RunQueue (s : Sched) (ring : List ℕ) : Prop where
  cycle : LinkRing s.next s.idleThread ring
  valid : ∀ a ∈ s.idleThread :: ring, (s.tcb a).isSome
  idle : (s.tcb s.idleThread).map Tcb.state = some .ready
  ne_zero : ∀ a ∈ s.idleThread :: ring, a ≠ 0
  current_ne : s.currentThread ≠ 0
  current : s.currentThread ∈ s.idleThread :: ring ∨ s.Exiting

namespace RunQueue

variable {s : Sched} {ring order xs ys : List ℕ} {a b : ℕ}

/-- The node at which the scans of `yield` start. -/
def start (s : Sched) : ℕ :=
  if (s.tcb s.currentThread).map Tcb.state = some .zombie then s.idleThread else s.currentThread

theorem exists_current (h : RunQueue s ring) : ∃ c, s.tcb s.currentThread = some c := by
  rcases h.current with hc | ⟨c, hc, -⟩
  · exact isSome_iff_exists.mp (h.valid _ hc)
  · exact ⟨c, hc⟩

theorem start_mem (h : RunQueue s ring) : start s ∈ s.idleThread :: ring := by
  unfold start
  split_ifs with hz
  · exact List.mem_cons_self
  · refine h.current.resolve_right ?_
    rintro ⟨c, hc, hcz⟩
    exact hz (by rw [hc, map_some, hcz])

theorem mem_order (h : RunQueue s ring) (ho : LinkRing s.next (start s) order) :
    ∀ x, x ∈ order ++ [start s] ↔ x ∈ s.idleThread :: ring := by
  obtain ⟨ys, hys, hmem⟩ := h.cycle.exists_rotate h.start_mem
  intro x
  rw [← hmem, ho.unique hys, List.mem_append, List.mem_singleton, List.mem_cons, or_comm]

theorem ready_current (h : RunQueue s ring) (hno : ∀ x ∈ s.idleThread :: ring, ¬ s.Runnable x)
    {c : Tcb} (hc : s.tcb s.currentThread = some c) (hready : c.Ready) :
    s.currentThread = s.idleThread := by
  rcases h.current with hm | ⟨d, hd, hz⟩
  · by_contra hne
    exact hno _ hm ⟨hne, c, hc, hready⟩
  · rw [Option.some.inj (hc.symm.trans hd), Tcb.Ready, hz] at hready
    simp at hready

theorem yield_eq (h : RunQueue s ring) (ho : LinkRing s.next (start s) order) :
    Ends (fun k => schedYield k s) (s.afterWalk ring wakeSleeper
      (((order ++ [start s]).find? fun a => s.Runnable a).getD s.idleThread)) := by
  obtain ⟨prev, hprev⟩ := h.exists_current
  obtain ⟨st, hst⟩ := isSome_iff_exists.mp (h.valid _ h.start_mem)
  obtain ⟨l, hl, hnodes⟩ := ho.from_next
  have hmem : ∀ x, x ∈ s.next (start s) :: l ↔ x ∈ s.idleThread :: ring := fun x => by
    rw [hnodes]
    exact h.mem_order ho x
  have hnext : st.next = s.next (start s) := (Sched.next_eq hst).symm
  have hstart : (if prev.state = .zombie then s.idleThread else s.currentThread) = start s := by
    simp only [start, hprev, map_some, Option.some.injEq]
  have h0 : ¬ (s.currentThread = 0 ∨ s.idleThread = 0) := not_or.mpr 
    ⟨h.current_ne, h.ne_zero _ List.mem_cons_self⟩
  -- the two loops
  have hwalk : Ends (fun k => walkLoop wakeSleeper st.next k st.next s)
      (s.mapOn (s.idleThread :: ring) wakeSleeper) := by
    refine ⟨l.length + 1, fun k hk => ?_⟩
    rw [← Sched.mapOn_congr wakeSleeper hmem, hnext]
    exact walkLoop_ends (fun c => (wakeSleeper_keeps c).next) hl hl.notMem
      (fun a ha => h.valid a ((hmem a).mp ha)) hk
  set s₁ := s.mapOn (s.idleThread :: ring) wakeSleeper with hs₁
  have hlinks : SameLinks s s₁ :=
    Sched.sameLinks_mapOn (fun _ _ c _ => wakeSleeper_keeps c) s.currentThread
  have hscan : Ends (fun k => findReady s₁.idleThread st.next k st.next s₁)
      ((s.next (start s) :: l).find? fun a => s₁.CanRun s.idleThread a) := by
    refine ⟨l.length + 1, fun k hk => ?_⟩
    rw [hnext]
    refine findReady_ends (by rw [hlinks.next]; exact hl) (fun a ha => ?_) hk
    rw [hlinks.isSome]
    exact h.valid a ((hmem a).mp ha)
  have hfind : ((s.next (start s) :: l).find? fun a => decide (s₁.CanRun s.idleThread a)) =
      (order ++ [start s]).find? fun a => decide (s.Runnable a) := by
    rw [← hnodes]
    refine List.find?_congr fun a ha => ?_
    rw [decide_eq_decide]
    exact Sched.afterWalk_canRun ((hmem a).mp ha)
  rw [hfind] at hscan
  have hprev₁ : s₁.tcb s.currentThread = some (wakeSleeper prev) ∨
      s₁.tcb s.currentThread = some prev := by
    simp only [hs₁, Sched.mapOn, hprev]
    split_ifs
    · exact .inl rfl
    · exact .inr rfl
  obtain ⟨prev₁, hp₁⟩ : ∃ c, s₁.tcb s.currentThread = some c :=
    hprev₁.elim (fun h => ⟨_, h⟩) fun h => ⟨_, h⟩
  have hready₁ : prev₁.state = .ready → prev.Ready := by
    intro hr
    rcases hprev₁ with hp | hp
    · rw [hp] at hp₁
      exact (wakeSleeper_ready_iff prev).mp (Option.some.inj hp₁ ▸ hr)
    · rw [hp] at hp₁
      exact .inl (Option.some.inj hp₁ ▸ hr)
  simp only [schedYield, if_neg h0, hprev, bind_some, hstart, hst]
  refine hwalk.bind (hscan.bind (Ends.of_eq fun k => ?_))
  rw [show s₁.currentThread = s.currentThread from rfl, hp₁]
  simp only [map_some, Option.some.injEq]
  cases hr : (order ++ [start s]).find? fun a => decide (s.Runnable a) with
  | some b => rfl
  | none =>
    have hno : ∀ x ∈ s.idleThread :: ring, ¬ s.Runnable x := by
      intro x hx
      have := List.find?_eq_none.mp hr x ((h.mem_order ho x).mpr hx)
      simpa using this
    unfold nextToRun
    split_ifs with hrdy
    · rw [show s₁.currentThread = s.currentThread from rfl, h.ready_current hno hprev (hready₁ hrdy)]
      rfl
    · rfl

theorem afterWalk (h : RunQueue s ring) (hcur : a ∈ s.idleThread :: ring) :
    RunQueue (s.afterWalk ring wakeSleeper a) ring where
  cycle := by
    rw [Sched.afterWalk_next]
    exact h.cycle
  valid b hb := by
    have := h.valid b hb
    simp only [Sched.afterWalk, Sched.mapOn]
    split_ifs
    · simpa using this
    · exact this
  idle := by
    have hidle := h.idle
    change Option.map Tcb.state (if s.idleThread ∈ s.idleThread :: ring then
      (s.tcb s.idleThread).map wakeSleeper else s.tcb s.idleThread) = _
    rw [if_pos List.mem_cons_self]
    cases hc : s.tcb s.idleThread with
    | none => simp [hc] at hidle
    | some c =>
      rw [hc] at hidle
      simp only [map_some, Option.some.injEq] at hidle ⊢
      exact (wakeSleeper_ready_iff c).mpr (.inl hidle)
  ne_zero := h.ne_zero
  current_ne := h.ne_zero a hcur
  current := .inl hcur

theorem dispatch_mem (h : RunQueue s ring) (ho : LinkRing s.next (start s) order) :
    ((order ++ [start s]).find? fun a => s.Runnable a).getD s.idleThread ∈ s.idleThread :: ring := by
  cases hr : (order ++ [start s]).find? fun a => decide (s.Runnable a) with
  | none => exact List.mem_cons_self
  | some a => exact (h.mem_order ho a).mp (List.mem_of_find?_eq_some hr)

end RunQueue

/-! ## Calls in a row -/

/-- Calls of `yield` from `s` to `s'`, with the threads they dispatch. -/
inductive YieldRun : Sched → List ℕ → Sched → Prop
  | nil (s : Sched) : YieldRun s [] s
  | cons {s s₁ s' : Sched} {ts : List ℕ} : Ends (fun k => schedYield k s) s₁ → YieldRun s₁ ts s' →
      YieldRun s (s₁.currentThread :: ts) s'

theorem YieldRun.unique {s s' s'' : Sched} {ts us : List ℕ} (h : YieldRun s ts s')
    (h' : YieldRun s us s'') (hlen : ts.length = us.length) : ts = us ∧ s' = s'' := by
  induction h generalizing us with
  | nil s =>
    cases h' with
    | nil => exact ⟨rfl, rfl⟩
    | cons => simp at hlen
  | cons hy _ ih =>
    cases h' with
    | nil => simp at hlen
    | cons hy' hrun =>
      obtain rfl := hy.unique hy'
      obtain ⟨h1, h2⟩ := ih hrun (by simpa using hlen)
      exact ⟨by rw [h1], h2⟩

namespace RunQueue

variable {s s' : Sched} {ring order xs ys us vs ts : List ℕ} {a b c : ℕ}

theorem start_of_runnable (hrun : s.Runnable s.currentThread) : start s = s.currentThread := by
  obtain ⟨-, c, hc, hready⟩ := hrun
  refine if_neg fun hz => ?_
  rw [mem_def.mp hc, map_some, Option.some.injEq] at hz
  rw [Tcb.Ready, hz] at hready
  simp at hready

theorem yield_to (h : RunQueue s ring) (hrun : s.Runnable s.currentThread)
    (ho : LinkRing s.next s.currentThread order) (hord : order ++ [s.currentThread] = xs ++ b :: ys)
    (hxs : ∀ x ∈ xs, ¬ s.Runnable x) (hb : s.Runnable b) :
    Ends (fun k => schedYield k s) (s.afterWalk ring wakeSleeper b) ∧
      RunQueue (s.afterWalk ring wakeSleeper b) ring := by
  rw [← start_of_runnable hrun] at ho
  have hfind : (order ++ [start s]).find? (fun a => decide (s.Runnable a)) = some b := by
    rw [start_of_runnable hrun, hord]
    exact List.find?_eq_some_iff_append.mpr ⟨by simpa using hb, xs, ys, rfl, by simpa using hxs⟩
  have hy := h.yield_eq ho
  have hm := h.dispatch_mem ho
  rw [hfind] at hy hm
  exact ⟨hy, h.afterWalk hm⟩

theorem yields_to (vs : List ℕ) : ∀ {s : Sched} {xs us : List ℕ}, RunQueue s ring →
    s.Runnable s.currentThread → LinkRing s.next s.currentThread (xs ++ (vs ++ a :: us)) →
    (∀ x ∈ xs, ¬ s.Runnable x) → s.Runnable a →
    ∃ s', YieldRun s (vs.filter s.Runnable ++ [a]) s' ∧ s'.currentThread = a := by
  induction vs with
  | nil =>
    intro s xs us h hrun ho hxs ha
    have hord : xs ++ a :: us ++ [s.currentThread] = xs ++ a :: (us ++ [s.currentThread]) := by simp
    obtain ⟨hy, -⟩ := h.yield_to hrun ho hord hxs ha
    exact ⟨_, .cons hy (.nil _), rfl⟩
  | cons v vs ih =>
    intro s xs us h hrun ho hxs ha
    by_cases hv : s.Runnable v
    · -- `v` is dispatched, and the ring is seen from there
      have hord : xs ++ (v :: vs ++ a :: us) ++ [s.currentThread] =
          xs ++ v :: (vs ++ a :: us ++ [s.currentThread]) := by simp
      obtain ⟨hy, h'⟩ := h.yield_to hrun ho hord hxs hv
      have hrot : LinkRing s.next v ([] ++ (vs ++ a :: (us ++ s.currentThread :: xs))) := by
        have := ho.rotate
        simpa using this
      obtain ⟨s', hrun', hcur⟩ := @ih (s.afterWalk ring wakeSleeper v) [] _ h'
        (Sched.afterWalk_runnable.mpr hv) (by rw [Sched.afterWalk_next]; exact hrot) (by simp)
        (Sched.afterWalk_runnable.mpr ha)
      refine ⟨s', ?_, hcur⟩
      simp only [Sched.afterWalk_runnable] at hrun'
      rw [List.filter_cons_of_pos (by simpa using hv)]
      exact .cons hy hrun'
    · obtain ⟨s', hrun', hcur⟩ := @ih s (xs ++ [v]) us h hrun (by simpa using ho)
        (by simpa [or_imp, forall_and] using ⟨hxs, hv⟩) ha
      refine ⟨s', ?_, hcur⟩
      rwa [List.filter_cons_of_neg (by simpa using hv)]

theorem yields_round (h : RunQueue s ring) (hrun : s.Runnable s.currentThread)
    (ho : LinkRing s.next s.currentThread order) :
    ∃ s', YieldRun s (order.filter s.Runnable ++ [s.currentThread]) s' ∧
      s'.currentThread = s.currentThread := by
  cases hf : order.find? fun x => decide (s.Runnable x) with
  | none =>
    have hno : ∀ x ∈ order, ¬ s.Runnable x := fun x hx => by
      simpa using List.find?_eq_none.mp hf x hx
    obtain ⟨hy, -⟩ := h.yield_to hrun ho rfl hno hrun
    have hnil : order.filter s.Runnable = [] :=
      List.filter_eq_nil_iff.mpr fun x hx => by simpa using hno x hx
    rw [hnil]
    exact ⟨_, @YieldRun.cons s (s.afterWalk ring wakeSleeper s.currentThread) _ [] hy (.nil _), rfl⟩
  | some v =>
    obtain ⟨hv, xs, vs, rfl, hxs⟩ := List.find?_eq_some_iff_append.mp hf
    have hv : s.Runnable v := by simpa using hv
    have hxs : ∀ x ∈ xs, ¬ s.Runnable x := by simpa using hxs
    have hord : xs ++ v :: vs ++ [s.currentThread] = xs ++ v :: (vs ++ [s.currentThread]) := by simp
    obtain ⟨hy, h'⟩ := h.yield_to hrun ho hord hxs hv
    have hrot : LinkRing (s.afterWalk ring wakeSleeper v).next v
        ([] ++ (vs ++ s.currentThread :: xs)) := by
      rw [Sched.afterWalk_next]
      exact ho.rotate
    obtain ⟨s', hrun', hcur⟩ := yields_to (a := s.currentThread) vs h'
      (Sched.afterWalk_runnable.mpr hv) hrot (by simp) (Sched.afterWalk_runnable.mpr hrun)
    refine ⟨s', ?_, hcur⟩
    simp only [Sched.afterWalk_runnable] at hrun'
    have hnil : xs.filter s.Runnable = [] :=
      List.filter_eq_nil_iff.mpr fun x hx => by simpa using hxs x hx
    rw [List.filter_append, hnil, List.nil_append, List.filter_cons_of_pos (by simpa using hv)]
    exact .cons hy hrun'

theorem yields_dispatch (h : YieldRun s ts s') (hq : RunQueue s ring) :
    ∀ t ∈ ts, t = s.idleThread ∨ s.Runnable t := by
  induction h with
  | nil => simp
  | @cons s s₁ s' ts hy hrun ih =>
    obtain ⟨order, ho, -⟩ := hq.cycle.exists_rotate hq.start_mem
    obtain rfl := hy.unique (hq.yield_eq ho)
    have hrest := ih (hq.afterWalk (hq.dispatch_mem ho))
    rw [List.forall_mem_cons]
    refine ⟨?_, fun t ht => (hrest t ht).imp_right Sched.afterWalk_runnable.mp⟩
    change Option.getD _ _ = _ ∨ s.Runnable (Option.getD _ _)
    cases hr : (order ++ [start s]).find? fun a => decide (s.Runnable a) with
    | none => exact .inl rfl
    | some a => exact .inr (by simpa using List.find?_some hr)

end RunQueue

/-- **Round robin.** With `k` threads that can run: `k` calls of `yield` dispatch the others in ring
order, each once, and then the current thread again; if there is none, the idle thread runs; and no call
ever dispatches a thread that sleeps with ticks left, is blocked or has ended. -/
theorem round_robin {s : Sched} {ring : List ℕ} (h : RunQueue s ring) :
    (s.Runnable s.currentThread → ∃ order ds, LinkRing s.next s.currentThread order ∧
      ds = order.filter s.Runnable ++ [s.currentThread] ∧
      ds.Nodup ∧ ds.Perm (ring.filter fun x => s.Runnable x) ∧ (∃ s', YieldRun s ds s') ∧
      ∀ ts s', YieldRun s ts s' → ts.length = (ring.filter fun x => s.Runnable x).length →
        ts = ds ∧ s'.currentThread = s.currentThread) ∧
    ((∀ x ∈ ring, ¬ s.Runnable x) → ∃ s', YieldRun s [s.idleThread] s' ∧
      (∀ c, s.tcb s.currentThread = some c → c.state = .ready → s.currentThread = s.idleThread)) ∧
    ∀ ts s', YieldRun s ts s' → ∀ t ∈ ts, ∃ c, s.tcb t = some c ∧
      (c.state = .ready ∨ c.state = .sleeping ∧ c.sleepTicks = 0) := by
  refine ⟨fun hrun => ?_, fun hno => ?_, fun ts s' hts t ht => ?_⟩
  · have hm := h.start_mem
    rw [RunQueue.start_of_runnable hrun] at hm
    obtain ⟨order, ho, hmem⟩ := h.cycle.exists_rotate hm
    obtain ⟨s', hy, hcur⟩ := h.yields_round hrun ho
    have hnd : (order.filter s.Runnable ++ [s.currentThread]).Nodup := by
      refine List.Nodup.append (ho.nodup.of_cons.filter _) (List.nodup_singleton _) ?_
      rw [List.disjoint_singleton]
      exact fun hc => ho.notMem (List.mem_filter.mp hc).1
    have hperm : (order.filter s.Runnable ++ [s.currentThread]).Perm
        (ring.filter fun x => s.Runnable x) := by
      refine (List.perm_ext_iff_of_nodup hnd (h.cycle.nodup.of_cons.filter _)).mpr fun x => ?_
      have hx := hmem x
      simp only [List.mem_cons] at hx
      simp only [List.mem_append, List.mem_filter, List.mem_singleton, decide_eq_true_eq]
      constructor
      · rintro (⟨h1, h2⟩ | rfl)
        · exact ⟨(hx.mp (.inr h1)).resolve_left h2.1, h2⟩
        · exact ⟨(hx.mp (.inl rfl)).resolve_left hrun.1, hrun⟩
      · rintro ⟨h1, h2⟩
        exact (hx.mpr (.inr h1)).symm.imp (fun h => ⟨h, h2⟩) id
    refine ⟨order, _, ho, rfl, hnd, hperm, ⟨s', hy⟩, fun ts s'' hts hlen => ?_⟩
    obtain ⟨rfl, rfl⟩ := hts.unique hy (hlen.trans hperm.length_eq.symm)
    exact ⟨rfl, hcur⟩
  · have hno' : ∀ x ∈ s.idleThread :: ring, ¬ s.Runnable x :=
      List.forall_mem_cons.mpr ⟨fun hr => hr.1 rfl, hno⟩
    obtain ⟨order, ho, -⟩ := h.cycle.exists_rotate h.start_mem
    have hy := h.yield_eq ho
    have hfind : (order ++ [RunQueue.start s]).find? (fun a => decide (s.Runnable a)) = none :=
      List.find?_eq_none.mpr fun x hx => by simpa using hno' x ((h.mem_order ho x).mp hx)
    rw [hfind] at hy
    exact ⟨_, .cons hy (.nil _), fun c hc hr => h.ready_current hno' hc (.inl hr)⟩
  · rcases RunQueue.yields_dispatch hts h t ht with rfl | ⟨-, c, hc, hr⟩
    · obtain ⟨c, hc, hst⟩ := map_eq_some_iff.mp h.idle
      exact ⟨c, hc, .inl hst⟩
    · exact ⟨c, hc, hr⟩

/-- The kernel thread and two threads more, one of them asleep; the idle thread is at `2`. -/
def fourThreads : Sched where
  tcb a :=
    if a = 1 then some ⟨0, .ready, 0, 0, 3⟩ else if a = 2 then some ⟨0, .ready, 0, 0, 1⟩
    else if a = 3 then some ⟨1, .sleeping, 5, 0, 4⟩ else if a = 4 then some ⟨2, .sleeping, 0, 0, 2⟩
    else none
  currentThread := 1
  idleThread := 2
  nextThreadId := 3
  zombieListHead := 0
  released := []

theorem round_robin_four : ∃ order ds, LinkRing fourThreads.next 1 order ∧
    ds = order.filter fourThreads.Runnable ++ [1] ∧ ds.Perm [1, 4] := by
  have h : RunQueue fourThreads [1, 3, 4] := by
    refine ⟨?_, by decide, rfl, by decide, by decide, .inl (by decide)⟩
    simp [LinkRing, Chain, Sched.next, fourThreads]
  obtain ⟨order, ds, ho, hds, -, hperm, -⟩ := (round_robin h).1 (by decide)
  exact ⟨order, ds, ho, hds, hperm⟩

end KeonOS
