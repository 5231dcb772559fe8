import KeonOS.Exec.Segments

/-!
# What the loaders map and write

The log of a load against the accesses that the headers ask for: nothing else is in the log, and after
a load that ends well all of them are.

* **`kexSegments_logsIn`**, **`kdlSegments_logsIn`**, `relocate_logsIn`: that condition for the loops of
  the loaders.
-/

namespace KeonOS

open Word

def InRange (lo hi : ℕ) : Access → Prop
  | .map page => lo ≤ page ∧ page + 4096 ≤ hi
  | .write addr len => len = 0 ∨ lo ≤ addr ∧ addr + len ≤ hi

instance (lo hi : ℕ) : DecidablePred (InRange lo hi)
  | .map _ => inferInstanceAs (Decidable (_ ∧ _))
  | .write _ _ => inferInstanceAs (Decidable (_ ∨ _ ∧ _))

def LoadState.InRange (s : LoadState) (lo hi : ℕ) : Prop := ∀ x ∈ s.log, KeonOS.InRange lo hi x

/-- A part of a loader stays in the range if `c` holds, and `c` holds if it does and ends well. -/
structure LogsIn (lo hi : ℕ) (c : Prop) (s : LoadState) (st : Status) (s' : LoadState) : Prop where
  before : s'.InRange lo hi → s.InRange lo hi
  sound : s.InRange lo hi → c → s'.InRange lo hi
  complete : st = .ok → s'.InRange lo hi → c

section Logs

variable {lo hi a n : ℕ} {c d : Prop} {s s' s'' : LoadState} {st st' : Status}

theorem LogsIn.refl (s : LoadState) (st : Status) : LogsIn lo hi True s st s :=
  ⟨id, fun h _ => h, fun _ _ => trivial⟩

theorem LogsIn.trans (h : LogsIn lo hi c s .ok s') (h' : LogsIn lo hi d s' st s'') :
    LogsIn lo hi (c ∧ d) s st s'' where
  before := h.before ∘ h'.before
  sound hs hcd := h'.sound (h.sound hs hcd.1) hcd.2
  complete hst hs := ⟨h.complete rfl (h'.before hs), h'.complete hst hs⟩

theorem LogsIn.stop (h : LogsIn lo hi c s st s') (hst : st ≠ .ok) : LogsIn lo hi (c ∧ d) s st s' where
  before := h.before
  sound hs hcd := h.sound hs hcd.1
  complete hok := absurd hok hst

theorem LogsIn.congr (h : LogsIn lo hi c s st s') (hcd : c ↔ d) : LogsIn lo hi d s st s' where
  before := h.before
  sound hs hd := h.sound hs (hcd.2 hd)
  complete hst hs := hcd.1 (h.complete hst hs)

theorem inRange_note {x : Access} : (s.note x).InRange lo hi ↔ s.InRange lo hi ∧ InRange lo hi x := by
  simp only [LoadState.InRange, LoadState.note, List.forall_mem_append, List.forall_mem_singleton]

theorem store_logsIn (byte : ℕ → UInt8) :
    LogsIn lo hi (InRange lo hi (.write a n)) s (s.store byte a n).1 (s.store byte a n).2 := by
  have hlog : (s.store byte a n).2.log = s.log ++ [.write a n] := by
    rw [LoadState.store]
    cases s.mmu.storeBytes byte a n <;> rfl
  have hiff : (s.store byte a n).2.InRange lo hi ↔ s.InRange lo hi ∧ InRange lo hi (.write a n) := by
    rw [← inRange_note, LoadState.InRange, hlog]
    rfl
  exact ⟨fun h => (hiff.1 h).1, fun h hc => hiff.2 ⟨h, hc⟩, fun _ h => (hiff.1 h).2⟩

theorem loadPage_logsIn : LogsIn lo hi (lo ≤ a ∧ a + 4096 ≤ hi) s (loadPage s a).1 (loadPage s a).2 := by
  rw [loadPage]
  rcases pfaAllocFrame s.mmu with ⟨phys, mmu⟩
  dsimp only
  split_ifs
  · exact ⟨id, fun h _ => h, fun h => Status.noConfusion h⟩
  set s₁ : LoadState := { s.note (.map a) with mmu := pagingMapPage mmu a phys userFlags }
  have h : LogsIn lo hi (InRange lo hi (.write a 4096)) s₁ _ _ := store_logsIn fun _ => 0
  have h₁ : s₁.InRange lo hi ↔ s.InRange lo hi ∧ (lo ≤ a ∧ a + 4096 ≤ hi) := inRange_note (x := .map a)
  exact ⟨fun hs => (h₁.1 (h.before hs)).1, fun hs hc => h.sound (h₁.2 ⟨hs, hc⟩) (.inr hc),
    fun _ hs => (h₁.1 (h.before hs)).2⟩

def PagesIn (lo hi a n : ℕ) : Prop := n = 0 ∨ lo ≤ a ∧ a + 4096 * n ≤ hi

theorem loadPages_logsIn :
    LogsIn lo hi (PagesIn lo hi a n) s (loadPages s a n).1 (loadPages s a n).2 := by
  induction n generalizing s a with
  | zero => exact (LogsIn.refl s .ok).congr (by simp [PagesIn])
  | succ n ih =>
    have hiff : (lo ≤ a ∧ a + 4096 ≤ hi) ∧ PagesIn lo hi (a + 4096) n ↔ PagesIn lo hi a (n + 1) := by
      unfold PagesIn
      omega
    have h := @loadPage_logsIn lo hi a s
    refine LogsIn.congr ?_ hiff
    rw [loadPages]
    rcases hp : loadPage s a with ⟨st, s₁⟩
    rw [hp] at h
    cases st
    case ok => exact h.trans ih
    all_goals exact h.stop Status.noConfusion

/-- The pages of a segment and its file bytes stay in the range. -/
def SegBounded (lo hi : ℕ) (f : KFile) (vaddrStart vaddrEnd fileOffset fileSize : ℕ) : Prop :=
  PagesIn lo hi (segPages vaddrStart vaddrEnd).1 (segPages vaddrStart vaddrEnd).2 ∧
  (0 < fileSize → InRange lo hi (.write vaddrStart (f.readLen fileOffset fileSize)))

instance (lo hi : ℕ) (f : KFile) (vs ve off size : ℕ) : Decidable (SegBounded lo hi f vs ve off size) :=
  inferInstanceAs (Decidable ((_ ∨ _ ∧ _) ∧ (_ → _)))

theorem loadSegment_logsIn {f : KFile} {vs ve off size : ℕ} :
    LogsIn lo hi (SegBounded lo hi f vs ve off size) s (loadSegment f s vs ve off size).1
      (loadSegment f s vs ve off size).2 := by
  have h := @loadPages_logsIn lo hi (segPages vs ve).1 (segPages vs ve).2 s
  rw [loadSegment]
  rcases hp : loadPages s (segPages vs ve).1 (segPages vs ve).2 with ⟨st, s₁⟩
  rw [hp] at h
  cases st
  case ok =>
    split_ifs with hsize
    · exact (h.trans (store_logsIn _)).congr (and_congr_right fun _ => ⟨fun h _ => h, fun h => h hsize⟩)
    · exact (h.trans (LogsIn.refl s₁ .ok)).congr
        (and_congr_right fun _ => (iff_true_left trivial).2 fun hs => absurd hs hsize)
  all_goals exact h.stop Status.noConfusion

/-! ## `kex_load` -/

/-- A header that `kex_load` maps, with the 64-bit sum of the source. -/
def Mapped (ph : Phdr) : Prop := ph.pType = ptLoad ∧ add64 ph.pVaddr ph.pMemsz ≠ ph.pVaddr

instance : DecidablePred Mapped := fun _ => inferInstanceAs (Decidable (_ ∧ _))

def KexBounded (lo hi : ℕ) (f : KFile) (phs : List Phdr) : Prop := ∀ ph ∈ phs, Mapped ph →
    SegBounded lo hi f ph.pVaddr (add64 ph.pVaddr ph.pMemsz) ph.pOffset ph.pFilesz

instance (lo hi : ℕ) (f : KFile) (phs : List Phdr) : Decidable (KexBounded lo hi f phs) :=
  inferInstanceAs (Decidable (∀ ph ∈ phs, _ → _))

theorem kexBounded_cons {f : KFile} {ph : Phdr} {phs : List Phdr} :
    KexBounded lo hi f (ph :: phs) ↔ (Mapped ph →
      SegBounded lo hi f ph.pVaddr (add64 ph.pVaddr ph.pMemsz) ph.pOffset ph.pFilesz) ∧
      KexBounded lo hi f phs :=
  List.forall_mem_cons

theorem kexSegments_logsIn {f : KFile} {phs : List Phdr} {minV maxV : ℕ} :
    LogsIn lo hi (KexBounded lo hi f phs) s (kexSegments f phs s minV maxV).1
      (kexSegments f phs s minV maxV).2.1 := by
  induction phs generalizing s minV maxV with
  | nil => exact (LogsIn.refl s .ok).congr (by simp [KexBounded])
  | cons ph phs ih =>
    refine LogsIn.congr ?_ kexBounded_cons.symm
    rw [kexSegments]
    by_cases hm : Mapped ph
    · rw [if_neg (not_not.2 hm.1), if_neg hm.2]
      have h := @loadSegment_logsIn lo hi s f ph.pVaddr (add64 ph.pVaddr ph.pMemsz) ph.pOffset ph.pFilesz
      refine LogsIn.congr ?_ (and_congr_left fun _ => (forall_prop_of_true hm).symm)
      rcases hseg : loadSegment f s ph.pVaddr (add64 ph.pVaddr ph.pMemsz) ph.pOffset ph.pFilesz
        with ⟨st, s₁⟩
      rw [hseg] at h
      cases st
      case ok => exact h.trans ih
      all_goals exact h.stop Status.noConfusion
    · refine LogsIn.congr ?_ (iff_and_self.2 fun _ h => absurd h hm)
      by_cases ht : ph.pType = ptLoad
      · rw [if_neg (not_not.2 ht), if_pos (by_contra fun h => hm ⟨ht, h⟩)]
        exact ih
      · rw [if_pos ht]
        exact ih

theorem stackPages_logsIn {i : ℕ} (h : i + n ≤ 4) :
    LogsIn 0 userEnd True s (stackPages s i n).1 (stackPages s i n).2 := by
  have hu : userEnd = 2 ^ 47 := rfl
  have hs : userStack = 0x700000000000 := rfl
  induction n generalizing s i with
  | zero => exact .refl s .ok
  | succ n ih =>
    rw [stackPages]
    rcases pfaAllocFrame s.mmu with ⟨phys, mmu⟩
    dsimp only
    split_ifs
    · exact ⟨id, fun hs' _ => hs', fun _ _ => trivial⟩
    have h₁ := @ih { s.note (.map (userStack + i * 4096)) with
      mmu := pagingMapPage mmu (userStack + i * 4096) phys userFlags } (i + 1) (by omega)
    have hn : ∀ m : Mmu, ({ s.note (.map (userStack + i * 4096)) with mmu := m } :
        LoadState).InRange 0 userEnd ↔ s.InRange 0 userEnd ∧
        (0 ≤ userStack + i * 4096 ∧ userStack + i * 4096 + 4096 ≤ userEnd) :=
      fun m => inRange_note (x := .map (userStack + i * 4096))
    exact ⟨fun hs' => ((hn _).1 (h₁.before hs')).1,
      fun hs' _ => h₁.sound ((hn _).2 ⟨hs', by omega, by omega⟩) trivial, fun _ _ => trivial⟩

/-! ## `kdl_load` -/

def KdlBounded (lo hi base : ℕ) (f : KFile) (phs : List Phdr) : Prop := ∀ ph ∈ phs, ph.pType = ptLoad →
    add64 (add64 base ph.pVaddr) ph.pMemsz ≠ add64 base ph.pVaddr →
    SegBounded lo hi f (add64 base ph.pVaddr) (add64 (add64 base ph.pVaddr) ph.pMemsz) ph.pOffset
      ph.pFilesz

theorem kdlSegments_logsIn {f : KFile} {phs : List Phdr} {base dyn : ℕ} :
    LogsIn lo hi (KdlBounded lo hi base f phs) s (kdlSegments f base phs s dyn).1
      (kdlSegments f base phs s dyn).2.1 := by
  induction phs generalizing s dyn with
  | nil => exact (LogsIn.refl s .ok).congr (by simp [KdlBounded])
  | cons ph phs ih =>
    refine LogsIn.congr ?_ List.forall_mem_cons.symm
    rw [kdlSegments]
    by_cases ht : ph.pType = ptLoad
    · rw [if_pos ht]
      by_cases hz : add64 (add64 base ph.pVaddr) ph.pMemsz = add64 base ph.pVaddr
      · rw [if_pos hz]
        exact ih.congr (iff_and_self.2 fun _ _ h => absurd hz h)
      rw [if_neg hz]
      have h := @loadSegment_logsIn lo hi s f (add64 base ph.pVaddr)
        (add64 (add64 base ph.pVaddr) ph.pMemsz) ph.pOffset ph.pFilesz
      refine LogsIn.congr ?_ (and_congr_left fun _ => ⟨fun h _ _ => h, fun h => h ht hz⟩)
      rcases hseg : loadSegment f s (add64 base ph.pVaddr)
        (add64 (add64 base ph.pVaddr) ph.pMemsz) ph.pOffset ph.pFilesz with ⟨st, s₁⟩
      rw [hseg] at h
      cases st
      case ok => exact h.trans ih
      all_goals exact h.stop Status.noConfusion
    · refine LogsIn.congr ?_ (iff_and_self.2 fun _ h => absurd h ht)
      split_ifs
      · exact ih
      · exact ih

/-- The relocation at `a`, if it is applied, has its target in the range. -/
def RelocIn (lo hi base a : ℕ) (s : LoadState) : Prop :=
  match readRela s.mmu base a with
  | some (some (target, _)) => lo ≤ target ∧ target + 8 ≤ hi
  | _ => True

theorem relocateOne_logsIn {base : ℕ} :
    LogsIn lo hi (RelocIn lo hi base a s) s (relocateOne base a s).1 (relocateOne base a s).2 := by
  unfold relocateOne RelocIn
  rcases readRela s.mmu base a with _ | _ | ⟨target, value⟩
  · exact .refl s .fault
  · exact .refl s .ok
  · have h : LogsIn lo hi (InRange lo hi (.write target 8)) s (s.store64 target value).1
      (s.store64 target value).2 := store_logsIn _
    exact h.congr (or_iff_right (by norm_num))

def RelocsIn (lo hi base : ℕ) : ℕ → ℕ → LoadState → Prop
  | 0, _, _ => True
  | n + 1, a, s =>
    RelocIn lo hi base a s ∧
      match relocateOne base a s with
      | (.ok, s) => RelocsIn lo hi base n (add64 a 24) s
      | _ => True

theorem relocate_logsIn {base : ℕ} :
    LogsIn lo hi (RelocsIn lo hi base n a s) s (relocate base n a s).1 (relocate base n a s).2 := by
  induction n generalizing s a with
  | zero => exact .refl s .ok
  | succ n ih =>
    have h := @relocateOne_logsIn lo hi a s base
    rw [relocate, RelocsIn]
    rcases hst : relocateOne base a s with ⟨st, s₁⟩
    rw [hst] at h
    cases st
    case ok => exact h.trans ih
    all_goals exact h.stop Status.noConfusion

/-- The same for the relocations that the dynamic table at `dyn` asks for. -/
def KdlRelocsIn (lo hi fuel base dyn : ℕ) (s : LoadState) : Prop :=
  if dyn = 0 then True
  else
    match scanDyn s.mmu base fuel dyn ⟨0, 0, 0⟩ with
    | (.ok, r) =>
      if r.rela ≠ 0 ∧ 0 < r.relaEnt then RelocsIn lo hi base (r.relaSz / r.relaEnt) r.rela s
      else True
    | _ => True

theorem kdlRelocate_logsIn {fuel base dyn : ℕ} :
    LogsIn lo hi (KdlRelocsIn lo hi fuel base dyn s) s (kdlRelocate fuel base dyn s).1
      (kdlRelocate fuel base dyn s).2 := by
  rw [kdlRelocate, KdlRelocsIn]
  split_ifs
  · exact .refl s .ok
  rcases scanDyn s.mmu base fuel dyn ⟨0, 0, 0⟩ with ⟨st, r⟩
  cases st
  case ok =>
    dsimp only
    split_ifs
    · exact relocate_logsIn
    · exact .refl s .ok
  all_goals exact .refl s _

end Logs

end KeonOS
