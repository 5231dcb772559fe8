import KeonOS.Ext4.Journal
import KeonOS.Ext4.Returns

/-!
# The commit of a transaction

`JBD2::commit_transaction` for every log: the descriptor, the logged blocks and the commit block go to the
next positions of a ring in the journal file, and each logged block also to its place. The journal file is
looked up anew for each of them, while the blocks in their places may change what is looked up.

* `Ext4.Committed`, **`Ext4.commit_transaction`**: what the commit writes.
-/

namespace KeonOS

open List Function Option

namespace Jbd2

/-! ## The ring -/

/-- A position of the ring: not the superblock of the journal, and below `max_blocks`. -/
def InRing (l : ℕ) : Prop := 1 ≤ l ∧ l < 1024

def ringPos (head i : ℕ) : ℕ := getNextBlockWrapper^[i] head

theorem ringPos_succ_apply (head i : ℕ) :
    ringPos head (i + 1) = getNextBlockWrapper (ringPos head i) :=
  iterate_succ_apply' _ _ _

variable {head i k : ℕ}

theorem InRing.next (h : InRing head) : InRing (getNextBlockWrapper head) := by
  unfold InRing getNextBlockWrapper at *
  split_ifs <;> omega

theorem InRing.ringPos_eq (h : InRing head) (i : ℕ) : ringPos head i = (head - 1 + i) % 1023 + 1 := by
  induction i with
  | zero =>
    unfold InRing at h
    change head = _
    omega
  | succ i ih =>
    rw [ringPos_succ_apply, ih, getNextBlockWrapper]
    split_ifs <;> omega

theorem InRing.ringPos (h : InRing head) (i : ℕ) : InRing (ringPos head i) := by
  rw [h.ringPos_eq, InRing]
  omega

theorem ringPos_inj (h : InRing head) (hi : i < 1023) (hk : k < 1023)
    (heq : Jbd2.ringPos head i = Jbd2.ringPos head k) : i = k := by
  rw [h.ringPos_eq, h.ringPos_eq] at heq
  omega

end Jbd2

namespace Ext4

open Jbd2

variable (fs : Ext4) (jino : ℕ)

/-! ## The states of the journal -/

/-- What happens to the journal: `log_block`, `commit_transaction`, `start_transaction`, and blocks that
are written at once. -/
inductive JournalStep : Journaled ℕ Mem Ext4Event Jbd2 → Journaled ℕ Mem Ext4Event Jbd2 → Prop
  | log {s s' : Journaled ℕ Mem Ext4Event Jbd2} (b : ℕ) (v : Mem)
      (h : (fs.jbd2 jino).append b v s = some s') : JournalStep s s'
  | commit {s s' : Journaled ℕ Mem Ext4Event Jbd2} (h : (fs.jbd2 jino).commit s = some s') :
      JournalStep s s'
  | start (s : Journaled ℕ Mem Ext4Event Jbd2) :
      JournalStep s { s with trans := [], journal := (fs.jbd2 jino).start s.journal }
  | write (s : Journaled ℕ Mem Ext4Event Jbd2) (d : ℕ → Mem) :
      JournalStep s { s with store := { s.store with disk := d } }

def JournalReachable (s : Journaled ℕ Mem Ext4Event Jbd2) : Prop :=
  ∃ d, Relation.ReflTransGen (JournalStep fs jino) (mounted d) s

/-- Where logical block `l` of the journal file is: `read_inode` and `extent_get_block`. -/
def journalBlock (d : ℕ → Mem) (l : ℕ) : Option ℕ :=
  ((do let inode ← fs.readInode jino; fs.extentGetBlock inode l).exec ⟨d, []⟩).map Prod.fst

/-- The disk `d`, with some of the blocks `t` in their places and some positions of the ring written. -/
def During (t : List (ℕ × Mem)) (d : ℕ → Mem) (map : ℕ → ℕ) (d' : ℕ → Mem) : Prop :=
  ∀ b, d' b = d b ∨ (∃ l, InRing l ∧ b = map l) ∨ (b, d' b) ∈ t

/-- **Where the journal file is**: at different blocks, none of them in the transaction `t`, also during
the commit. -/
structure JournalMap (t : List (ℕ × Mem)) (d : ℕ → Mem) (map : ℕ → ℕ) : Prop where
  inj : ∀ l l', InRing l → InRing l' → map l = map l' → l = l'
  ne_zero : ∀ l, InRing l → map l ≠ 0
  home : ∀ l, InRing l → ∀ e ∈ t, e.1 ≠ map l
  stable : ∀ d', During t d map d' → ∀ l, InRing l → fs.journalBlock jino d' l = some (map l)

/-- **What a commit should do.** -/
structure Committed (map : ℕ → ℕ) (s s' : Journaled ℕ Mem Ext4Event Jbd2) : Prop where
  places : ∀ pre b v post, s.trans = pre ++ (b, v) :: post → (∀ e ∈ post, e.1 ≠ b) → s'.store.disk b = v
  others : ∀ b, (∀ e ∈ s.trans, e.1 ≠ b) →
    (∀ i < s.trans.length + 2, b ≠ map (ringPos s.journal.headBlock i)) →
    s'.store.disk b = s.store.disk b
  descriptor : s'.store.disk (map s.journal.headBlock) = s.journal.header jbd2DescriptorBlock
  data : ∀ i e, s.trans[i]? = some e → s'.store.disk (map (ringPos s.journal.headBlock (i + 1))) = e.2
  commit : s'.store.disk (map (ringPos s.journal.headBlock (s.trans.length + 1))) =
    s.journal.header jbd2CommitBlock
  positions : ∀ i, InRing (ringPos s.journal.headBlock i)
  head : s'.journal.headBlock = ringPos s.journal.headBlock (s.trans.length + 2)
  empty : s'.trans = []

variable {fs jino} {s s' : Journaled ℕ Mem Ext4Event Jbd2} {t t' : List (ℕ × Mem)} {d d' : ℕ → Mem}
  {map : ℕ → ℕ} {j : Jbd2}

theorem jbd2_put (e : LogEntry Mem) (j : Jbd2) (d : ℕ → Mem) :
    (fs.jbd2 jino).put e j d = (fs.journalBlock jino d j.headBlock).map fun b =>
      ({ j with headBlock := getNextBlockWrapper j.headBlock },
        if b ≠ 0 then Function.update d b (j.entryBlock e) else d) := by
  simp only [jbd2, writeJournalBlock, journalBlock, BlockM.exec_bind, exec_readInode, bind_some]
  cases hr : (fs.extentGetBlock (fs.inodeOf d jino) j.headBlock).exec ⟨d, []⟩ with
  | none => rfl
  | some r =>
    obtain ⟨b, s'⟩ := r
    obtain rfl : s' = ⟨d, []⟩ := extentGetBlock_state hr
    simp only [bind_some, map_some]
    split_ifs <;> rfl

/-- The journal is somewhere in the ring, and at most sixteen blocks are pending. -/
structure JournalOk (s : Journaled ℕ Mem Ext4Event Jbd2) : Prop where
  head : InRing s.journal.headBlock
  pending : s.trans.length ≤ 16

variable {r : Jbd2 × (ℕ → Mem)} {l b h i : ℕ} {v : Mem}

theorem put_head {e : LogEntry Mem} (h : (fs.jbd2 jino).put e j d = some r)
    (hj : InRing j.headBlock) : InRing r.1.headBlock := by
  obtain ⟨b, -, rfl⟩ := map_eq_some_iff.mp h
  exact hj.next

theorem checkpoint_head (h : (fs.jbd2 jino).checkpoint t j d = some r)
    (hj : InRing j.headBlock) : InRing r.1.headBlock := by
  induction t generalizing j d with
  | nil =>
    cases h
    exact hj
  | cons e t ih =>
    obtain ⟨r', hput, hrest⟩ := bind_eq_some_iff.mp h
    exact ih hrest (put_head hput hj)

theorem JournalOk.commit (h : JournalOk s) (hs : (fs.jbd2 jino).commit s = some s') : JournalOk s' := by
  rw [Wal.commit] at hs
  split_ifs at hs
  · cases hs
    exact h
  · obtain ⟨r₁, h₁, hs⟩ := bind_eq_some_iff.mp hs
    obtain ⟨r₂, h₂, hs⟩ := bind_eq_some_iff.mp hs
    obtain ⟨r₃, h₃, rfl⟩ := map_eq_some_iff.mp hs
    exact ⟨put_head h₃ (checkpoint_head h₂ (put_head h₁ h.head)), Nat.zero_le _⟩

theorem JournalOk.step (h : JournalOk s) (hs : JournalStep fs jino s s') : JournalOk s' := by
  cases hs with
  | log b v happend =>
    obtain ⟨s₁, hs₁, rfl⟩ := map_eq_some_iff.mp happend
    split_ifs at hs₁ with hcap
    · obtain ⟨s₂, hs₂, rfl⟩ := map_eq_some_iff.mp hs₁
      exact ⟨(h.commit hs₂).head, by norm_num⟩
    cases hs₁
    refine ⟨h.head, ?_⟩
    have hlt : s.trans.length < 16 := not_le.mp hcap
    rw [length_append, length_singleton]
    omega
  | commit hcommit => exact h.commit hcommit
  | start => exact ⟨h.head, Nat.zero_le _⟩
  | write => exact ⟨h.head, h.pending⟩

theorem JournalReachable.ok (h : fs.JournalReachable jino s) : JournalOk s := by
  obtain ⟨d, hrun⟩ := h
  induction hrun with
  | refl => exact ⟨⟨le_rfl, by norm_num [mounted, Jbd2.init]⟩, Nat.zero_le _⟩
  | tail _ hstep ih => exact ih.step hstep

/-! ## One commit -/

/-- The disk after the blocks `t` have been written from position `h` on, each one also to its place. -/
def checkpointed (map : ℕ → ℕ) : List (ℕ × Mem) → ℕ → (ℕ → Mem) → ℕ → Mem
  | [], _, d => d
  | (b, v) :: t, h, d =>
    checkpointed map t (getNextBlockWrapper h) (Function.update (Function.update d (map h) v) b v)

theorem During.refl (t : List (ℕ × Mem)) (d : ℕ → Mem) (map : ℕ → ℕ) : During t d map d :=
  fun _ => .inl rfl

theorem During.ring (h : During t d map d') (hl : InRing l) (v : Mem) :
    During t d map (Function.update d' (map l) v) := by
  intro b
  by_cases hb : b = map l
  · exact .inr (.inl ⟨l, hl, hb⟩)
  · rw [update_of_ne hb]
    exact h b

theorem During.place (h : During t d map d') (hmem : (b, v) ∈ t) :
    During t d map (Function.update d' b v) := by
  intro c
  by_cases hc : c = b
  · rw [hc, update_self]
    exact .inr (.inr hmem)
  · rw [update_of_ne hc]
    exact h c

namespace JournalMap

variable (hm : fs.JournalMap jino t d map)
include hm

theorem put (e : LogEntry Mem) (hd : During t d map d') (hj : InRing j.headBlock) :
    (fs.jbd2 jino).put e j d' = some ({ j with headBlock := getNextBlockWrapper j.headBlock },
      Function.update d' (map j.headBlock) (j.entryBlock e)) := by
  rw [jbd2_put, hm.stable d' hd _ hj, map_some, if_pos (hm.ne_zero _ hj)]

theorem checkpoint (ht : t' ⊆ t) (hd : During t d map d') (hj : InRing j.headBlock) :
    (fs.jbd2 jino).checkpoint t' j d' = some ({ j with headBlock := ringPos j.headBlock t'.length },
          checkpointed map t' j.headBlock d') ∧
      During t d map (checkpointed map t' j.headBlock d') := by
  induction t' generalizing j d' with
  | nil => exact ⟨rfl, hd⟩
  | cons e t' ih =>
    rw [Wal.checkpoint, hm.put _ hd hj, bind_some]
    exact ih (fun x hx => ht (mem_cons_of_mem e hx)) ((hd.ring hj _).place (ht mem_cons_self)) hj.next

end JournalMap

theorem checkpointed_of_ne (hb : ∀ e ∈ t, e.1 ≠ b)
    (hr : ∀ i < t.length, b ≠ map (ringPos h i)) : checkpointed map t h d b = d b := by
  induction t generalizing h d with
  | nil => rfl
  | cons e t ih =>
    rw [checkpointed, ih (fun x hx => hb x (mem_cons_of_mem e hx))
      fun i hi => hr (i + 1) (Nat.succ_lt_succ hi),
      update_of_ne (hb e mem_cons_self).symm,
      update_of_ne (show b ≠ map h from hr 0 (Nat.succ_pos _))]

theorem checkpointed_place {pre post : List (ℕ × Mem)} (hh : InRing h)
    (hb : ∀ l, InRing l → b ≠ map l) (hlast : ∀ e ∈ post, e.1 ≠ b) :
    checkpointed map (pre ++ (b, v) :: post) h d b = v := by
  induction pre generalizing h d with
  | nil =>
    rw [nil_append, checkpointed,
      checkpointed_of_ne hlast fun i _ => hb _ (hh.next.ringPos i), update_self]
  | cons e pre ih => exact ih hh.next

theorem JournalMap.checkpointed_data (hm : fs.JournalMap jino t d map) (ht : t' ⊆ t)
    (hlen : t'.length < 1023) {e : ℕ × Mem} (hh : InRing h) (he : t'[i]? = some e) :
    checkpointed map t' h d' (map (ringPos h i)) = e.2 := by
  induction t' generalizing h i d' with
  | nil => cases he
  | cons x t' ih =>
    have ht' : t' ⊆ t := fun y hy => ht (mem_cons_of_mem x hy)
    have hlen' : t'.length + 1 < 1023 := hlen
    cases i with
    | zero =>
      obtain rfl : x = e := Option.some.inj he
      have hfree : ∀ i < t'.length, map h ≠ map (ringPos (getNextBlockWrapper h) i) := by
        intro i hi heq
        have hpos : ringPos h 0 = ringPos h (i + 1) := hm.inj _ _ hh (hh.next.ringPos i) heq
        have := ringPos_inj hh (by omega) (by omega) hpos
        omega
      change checkpointed map t' _ _ (map h) = _
      rw [checkpointed_of_ne (fun y hy => hm.home h hh y (ht' hy)) hfree,
        update_of_ne (hm.home h hh x (ht mem_cons_self)).symm, update_self]
    | succ i => exact ih ht' (by omega) hh.next he

def committedDisk (map : ℕ → ℕ) (s : Journaled ℕ Mem Ext4Event Jbd2) : ℕ → Mem := Function.update
    (checkpointed map s.trans (ringPos s.journal.headBlock 1)
      (Function.update s.store.disk (map s.journal.headBlock) (s.journal.header jbd2DescriptorBlock)))
    (map (ringPos s.journal.headBlock (s.trans.length + 1))) (s.journal.header jbd2CommitBlock)

def committedState (map : ℕ → ℕ) (s : Journaled ℕ Mem Ext4Event Jbd2) :
    Journaled ℕ Mem Ext4Event Jbd2 where
  store := { s.store with disk := committedDisk map s }
  trans := []
  journal := { s.journal with headBlock := ringPos s.journal.headBlock (s.trans.length + 2) }

section Commit

variable (hm : fs.JournalMap jino s.trans s.store.disk map) (hj : JournalOk s)
include hm hj

theorem JournalMap.exec_commit (hne : s.trans ≠ []) :
    (fs.jbd2 jino).commit s = some (committedState map s) := by
  have hdesc := hm.put .descriptor (During.refl _ _ _) hj.head
  obtain ⟨hcheck, hd⟩ := hm.checkpoint (List.Subset.refl _)
    ((During.refl s.trans s.store.disk map).ring hj.head (s.journal.header jbd2DescriptorBlock))
    (j := { s.journal with headBlock := getNextBlockWrapper s.journal.headBlock }) hj.head.next
  have hcommit := hm.put .commit hd (hj.head.ringPos (s.trans.length + 1))
    (j := { s.journal with headBlock := ringPos s.journal.headBlock (s.trans.length + 1) })
  have hsome : s.trans.isEmpty = false := by
    rwa [isEmpty_eq_false_iff]
  rw [Wal.commit, hsome, if_neg (by decide), hdesc, bind_some]
  refine (congrArg (Option.bind · _) hcheck).trans ?_
  refine (congrArg (Option.map _) hcommit).trans ?_
  rw [map_some, committedState, committedDisk, ringPos_succ_apply _ (s.trans.length + 1)]
  rfl

theorem JournalMap.apart {k : ℕ} (hi : i < 18) (hk : k < 18) (hik : i ≠ k) :
    map (ringPos s.journal.headBlock i) ≠ map (ringPos s.journal.headBlock k) := by
  intro heq
  have hpos := hm.inj _ _ (hj.head.ringPos i) (hj.head.ringPos k) heq
  exact hik (ringPos_inj hj.head (by omega) (by omega) hpos)

theorem JournalMap.committed : Committed map s (committedState map s) := by
  have hlen := hj.pending
  constructor
  case places =>
    intro pre b v post htrans hlast
    have hb : ∀ l, InRing l → b ≠ map l := fun l hl =>
      hm.home l hl (b, v) (by rw [htrans]; exact mem_append_right _ mem_cons_self)
    refine (update_of_ne (hb _ (hj.head.ringPos _)) _ _).trans ?_
    rw [htrans]
    exact checkpointed_place (hj.head.ringPos 1) hb hlast
  case others =>
    intro b hb hr
    refine (update_of_ne (hr _ (by omega)) _ _).trans ?_
    refine (checkpointed_of_ne hb fun i hi => hr (i + 1) (by omega)).trans ?_
    exact update_of_ne (hr 0 (by omega)) _ _
  case descriptor =>
    have hne : ∀ k, 0 < k → k < 18 → map s.journal.headBlock ≠ map (ringPos s.journal.headBlock k) :=
      fun k hk hk' => hm.apart hj (i := 0) (by omega) hk' (by omega)
    refine (update_of_ne (hne _ (by omega) (by omega)) _ _).trans ?_
    refine (checkpointed_of_ne (hm.home _ hj.head) fun i hi =>
      hne (i + 1) (by omega) (by omega)).trans ?_
    exact update_self _ _ _
  case data =>
    intro i e he
    have hi : i < s.trans.length := (List.getElem?_eq_some_iff.mp he).1
    refine (update_of_ne (hm.apart hj (by omega) (by omega) (by omega)) _ _).trans ?_
    exact hm.checkpointed_data (List.Subset.refl _) (by omega) (hj.head.ringPos 1) he
  case commit => exact update_self _ _ _
  case positions => exact hj.head.ringPos
  case head => rfl
  case empty => rfl

end Commit

/-- **The commit of a transaction** returns; each pending block has what was logged last for it, the next
positions of the ring hold the descriptor, the blocks and the commit block, and nothing else has changed. -/
theorem commit_transaction (hr : fs.JournalReachable jino s) (hne : s.trans ≠ [])
    (hm : fs.JournalMap jino s.trans s.store.disk map) :
    ∃ s', (fs.jbd2 jino).commit s = some s' ∧ Committed map s s' :=
  ⟨_, hm.exec_commit hr.ok hne, hm.committed hr.ok⟩

/-! ## Files that stay where they are -/

theorem journalBlock_of_nodes (hmagic : ehMagic (fs.inodeOf d jino) iBlock = extentMagic)
    (hnodes : usesExtents (fs.inodeOf d jino) = true →
      fs.NodesOk d (ehDepth (fs.inodeOf d jino) iBlock) (fs.inodeOf d jino) iBlock) (l : ℕ) :
    fs.journalBlock jino d l = some (fs.mapOf d (fs.inodeOf d jino) l) := by
  have hget : (fs.extentGetBlock (fs.inodeOf d jino) l).exec ⟨d, []⟩ =
      some (fs.mapOf d (fs.inodeOf d jino) l, ⟨d, []⟩) :=
    exec_extentGetBlock_of_nodes (fun _ => hmagic) hnodes
  rw [journalBlock, BlockM.exec_bind, exec_readInode, bind_some, hget, map_some]

/-! ## A volume with a journal of 1024 blocks -/

def wide : Ext4 := { small with blocksPerGroup := 8192 }

/-- The volume `smallDisk` with a journal file at the blocks from 100 on. -/
def wideDisk : ℕ → Mem := Function.update smallDisk 6
  (Mem.copy (fun _ => 0) 768 inodeBytes (addExtent (newInode 0x8180 1 (2 ^ 20) none) 0 1024 100))

theorem wide_journalBlock {d' : ℕ → Mem} (h2 : d' 2 = wideDisk 2) (h6 : d' 6 = wideDisk 6)
    (hl : InRing l) : wide.journalBlock 8 d' l = some (100 + l) := by
  have hplace : ∀ d : ℕ → Mem, d 2 = wideDisk 2 → wide.inodePlace d 8 = 6 := by
    intro d h
    rw [inodePlace, inodeTableOf, show wide.descBlock (wide.inodeGroup 8) = 2 from rfl, h]
    decide +kernel
  have hinode : wide.inodeOf d' 8 = wide.inodeOf wideDisk 8 := by
    rw [inodeOf, hplace d' h2, h6, inodeOf, hplace _ rfl]
  have hhead : ehMagic (wide.inodeOf wideDisk 8) iBlock = extentMagic ∧
      ehDepth (wide.inodeOf wideDisk 8) iBlock = 0 ∧ ehEntries (wide.inodeOf wideDisk 8) iBlock = 1 ∧
      usesExtents (wide.inodeOf wideDisk 8) = true := by
    decide +kernel
  have hentry : eeBlock (wide.inodeOf wideDisk 8) (entryAt iBlock 0) = 0 ∧
      eeLen (wide.inodeOf wideDisk 8) (entryAt iBlock 0) = 1024 ∧
      eeStart (wide.inodeOf wideDisk 8) (entryAt iBlock 0) = 100 := by
    decide +kernel
  obtain ⟨hmagic, hdepth, hone, huses⟩ := hhead
  rw [journalBlock_of_nodes (by rw [hinode, hmagic]) (fun _ => by rw [hinode, hdepth]; trivial), hinode,
    mapOf, if_pos huses, hdepth, lookupNode, findExtent, hone, firstBelow_succ]
  simp [firstBelow, hentry, hl.2]

/-- The journal after `log_block` for the blocks `t`. -/
def wideLogged (t : List (ℕ × Mem)) : Journaled ℕ Mem Ext4Event Jbd2 := ⟨⟨wideDisk, []⟩, t, .init⟩

theorem wide_reachable (t : List (ℕ × Mem)) (ht : t.length ≤ 16) :
    wide.JournalReachable 8 (wideLogged t) := by
  refine ⟨wideDisk, ?_⟩
  induction t using List.reverseRecOn with
  | nil => exact .refl
  | append_singleton t e ih =>
    rw [length_append, length_singleton] at ht
    have hroom : ¬(wide.jbd2 8).cap ≤ (wideLogged t).trans.length := not_le.mpr ht
    refine (ih (by omega)).tail (.log e.1 e.2 ?_)
    rw [Wal.append, if_neg hroom]
    rfl

theorem commit_transaction_wide : wide.JournalReachable 8 (wideLogged [(20, fun _ => 7)]) ∧
    ∃ s', (wide.jbd2 8).commit (wideLogged [(20, fun _ => 7)]) = some s' ∧
      Committed (100 + ·) (wideLogged [(20, fun _ => 7)]) s' := by
  have hr := wide_reachable [(20, fun _ => 7)] (by decide)
  refine ⟨hr, commit_transaction hr (cons_ne_nil _ _) ⟨?_, ?_, ?_, fun d' hd l hl => ?_⟩⟩
  · exact fun l l' _ _ h => Nat.add_left_cancel h
  · exact fun l _ => by omega
  · intro l _ e he
    rw [mem_singleton.mp he]
    change 20 ≠ 100 + l
    omega
  · have hkeep : ∀ b < 20, d' b = wideDisk b := by
      intro b hb
      rcases hd b with hsame | ⟨k, -, hk⟩ | hmem
      · exact hsame
      · change b = 100 + k at hk
        omega
      · have h20 : b = 20 := congrArg Prod.fst (mem_singleton.mp hmem)
        omega
    exact wide_journalBlock (hkeep 2 (by decide)) (hkeep 6 (by decide)) hl

/-- **A logged block that moves the journal**: a copy of the group descriptors with nothing in it comes
before a block of a file, which is then missing from the ring. -/
theorem commit_loses_entry : wide.JournalReachable 8 (wideLogged [(2, fun _ => 0), (20, fun _ => 7)]) ∧
    (∀ l, InRing l → wide.journalBlock 8 wideDisk l = some (100 + l)) ∧
    (∀ l, InRing l → ∀ b ∈ [2, 20, wide.inodePlace wideDisk 8], b ≠ 100 + l) ∧
    wide.inodePlace wideDisk 8 ∉ [2, 20] ∧
    ∃ s', (wide.jbd2 8).commit (wideLogged [(2, fun _ => 0), (20, fun _ => 7)]) = some s' ∧
      s'.store.disk 103 0 = 0 ∧
      ¬Committed (100 + ·) (wideLogged [(2, fun _ => 0), (20, fun _ => 7)]) s' := by
  have hplace : wide.inodePlace wideDisk 8 = 6 := by decide +kernel
  have hrun : ((wide.jbd2 8).commit (wideLogged [(2, fun _ => 0), (20, fun _ => 7)])).map
      (fun s' => s'.store.disk 103 0) = some 0 := by
    decide +kernel
  obtain ⟨s', hcommit, hbyte⟩ := map_eq_some_iff.mp hrun
  refine ⟨wide_reachable _ (by decide), fun l hl => wide_journalBlock rfl rfl hl, ?_, ?_, s', hcommit,
    hbyte, fun h => ?_⟩
  · intro l _ b hb
    simp only [mem_cons, not_mem_nil, or_false] at hb
    omega
  · decide
  · have hdata : s'.store.disk 103 = fun _ => 7 := h.data 1 (20, fun _ => 7) rfl
    rw [hdata] at hbyte
    cases hbyte

end Ext4

end KeonOS
