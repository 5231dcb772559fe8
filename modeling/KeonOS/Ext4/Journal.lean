import KeonOS.Ext4.Footprint
import KeonOS.Ext4.Handles

/-!
# The journal of the ext4 driver

`JBD2` in `ext4_journal.cpp`: blocks are kept in memory until they are committed, sixteen at most. The
commit writes them to the journal file and to their places. A read of the driver goes to the disk, so
that it misses what is still in memory.

* `Jbd2`, **`Ext4.jbd2`**: the journal, a write-ahead log in the file `journal_inode_num`;
* **`Ext4.journal_transparent`**: while no step meets an older copy of a block, the runs with and without
  the journal agree;
* **`Ext4.no_double_allocation`**: nothing is handed out twice in such runs.
-/

namespace KeonOS

def bswap32 (x : ℕ) : ℕ :=
  x % 256 * 2 ^ 24 + x / 2 ^ 8 % 256 * 2 ^ 16 + x / 2 ^ 16 % 256 * 2 ^ 8 + x / 2 ^ 24 % 256

/-- `JBD2`, as far as it changes. -/
structure Jbd2 where
  headBlock : ℕ
  currentSeq : ℕ
deriving DecidableEq, Repr

abbrev jbd2DescriptorBlock : ℕ := 1
abbrev jbd2CommitBlock : ℕ := 2

namespace Jbd2

/-- The state after `JBD2::init` and the `start_transaction` of the mount. -/
def init : Jbd2 := ⟨1, 2⟩

def getNextBlockWrapper (current : ℕ) : ℕ := if 1024 ≤ current + 1 then 1 else current + 1

def header (j : Jbd2) (blocktype : ℕ) : Mem :=
  ((Mem.writeLE (fun _ => 0) 0 4 0xC03B3998).writeLE 4 4 (bswap32 blocktype)).writeLE 8 4
    (bswap32 j.currentSeq)

def entryBlock (j : Jbd2) : LogEntry Mem → Mem
  | .descriptor => j.header jbd2DescriptorBlock
  | .data v => v
  | .commit => j.header jbd2CommitBlock

end Jbd2

namespace Ext4

variable (fs : Ext4) (jino : ℕ)

def writeJournalBlock (offset : ℕ) (data : Mem) : Ext4M Unit := do
  let inode ← fs.readInode jino
  let physical ← fs.extentGetBlock inode offset
  if physical ≠ 0 then writeBlock physical data else pure ()

/-- The journal in the file `jino`: `log_block` and `commit_transaction`. -/
def jbd2 : Wal ℕ Mem Jbd2 where
  cap := 16
  put e j d := ((fs.writeJournalBlock jino j.headBlock (j.entryBlock e)).exec ⟨d, []⟩).map fun r =>
    ({ j with headBlock := Jbd2.getNextBlockWrapper j.headBlock }, r.2.disk)
  start j := { j with currentSeq := (j.currentSeq + 1) % 2 ^ 32 }

def runJournaled (ops : List Ext4Op) (nodes : List Ext4Node) (s : Journaled ℕ Mem Ext4Event Jbd2) :
    Option ((List Ext4Result × List Ext4Node) × Journaled ℕ Mem Ext4Event Jbd2) :=
  ((fs.run ops nodes).execJ (fs.jbd2 jino) s).bind fun r =>
    ((fs.jbd2 jino).commit r.2).map fun s' => (r.1, s')

/-- The volume after the mount, with an empty transaction. -/
def mounted (d : ℕ → Mem) : Journaled ℕ Mem Ext4Event Jbd2 := ⟨⟨d, []⟩, [], .init⟩

/-- **The journal file**: an inode in use that no directory names and for which there is no object. -/
structure JournalFile (d : ℕ → Mem) (live : ℕ → Prop) (nodes : List Ext4Node) : Prop where
  isLive : live jino
  hidden : fs.Hidden d live jino nodes

variable {fs jino} {use : ℕ → BlockUse} {live : ℕ → Prop} {d d' : ℕ → Mem}

/-! ## The journal stays in its file -/

section Within

variable (h : fs.Consistent d use live) (hj : live jino)
include h hj

theorem keepsFile_of_mem {b : ℕ} (hb : b ∈ fileBlocks use jino) (v : Mem) :
    fs.KeepsFile d use jino b v := by
  obtain ⟨l, hl⟩ := hb
  refine (Guarded.init h hj).keepsFile (fun k => ?_) (fun g k => ?_) ?_
  all_goals rw [hl]; exact BlockUse.noConfusion

theorem journal_place (hd : ∀ b, fs.KeepsFile d use jino b (d' b)) :
    fs.inodeOf d' jino = fs.inodeOf d jino ∧ fs.InodeOk d' use jino (fs.inodeOf d jino) := by
  obtain ⟨h0, hg⟩ := h.live_pos jino hj
  have hplace : fs.inodePlace d' jino = fs.inodePlace d jino := by
    rw [inodePlace, inodeTableOf, (hd _).desc _ hg rfl, inodePlace, inodeTableOf]
  refine ⟨?_, (h.inodes jino hj).congr (fun b hb => (hd b).tree hb) fun _ _ => rfl⟩
  rw [inodeOf, hplace]
  exact (hd _).inode rfl

theorem jbd2_within : (fs.jbd2 jino).Within (fileBlocks use jino) (fs.KeepsFile d use jino) := by
  refine ⟨fun e j d' hd => ?_, fun b hb v => keepsFile_of_mem h hj hb v⟩
  obtain ⟨hinode, hok⟩ := journal_place h hj hd
  simp only [jbd2, writeJournalBlock, BlockM.exec_bind, exec_readInode, Option.bind_some, hinode,
    exec_extentGetBlock (s := ⟨d', []⟩) hok]
  split_ifs with hmap
  · refine ⟨_, rfl, fun b hb => Store.put_disk_of_ne ?_⟩
    rintro rfl
    exact hb ⟨_, hok.use_mapOf hmap⟩
  · exact ⟨_, rfl, fun _ _ => rfl⟩

end Within

/-! ## Runs -/

section Runs

variable {nodes : List Ext4Node} {ops : List Ext4Op} (hw : fs.WellFormed) (hf : fs.DirsFit)
  (hv : fs.Volume d use live) (hn : ∀ n ∈ nodes, fs.NodeOk d use live n)

include hv hn in
theorem runOk_mounted : fs.RunOk use live ⟨d, []⟩ nodes :=
  ⟨hv, hn, ⟨fun _ hb => hb.elim, trivial⟩, fun _ hk => absurd hk List.not_mem_nil,
    fun _ hk => absurd hk List.not_mem_nil⟩

include hw hf hv hn in
theorem run_fresh (ops : List Ext4Op) :
    ∃ r t, (fs.run ops nodes).exec ⟨d, []⟩ = some (r, t) ∧ FreshAllocs t.events := by
  obtain ⟨rs, nodes', t, use', live', hexec, hrun, -⟩ := run_keeps hw hf
    (I := fun _ _ _ _ => True) (fun _ _ _ _ => trivial) (runOk_mounted hv hn) trivial
    (runAlong_trivial ops nodes ⟨d, []⟩)
  exact ⟨_, t, hexec, hrun.allocs.blocks.fresh⟩

variable (hj : fs.JournalFile jino d live nodes)
  (hcur : (fs.run ops nodes).Along (fs.jbd2 jino) BlockStep.Current (mounted d))
include hw hf hv hn hj hcur

theorem run_sim : ∃ r s' t, (fs.run ops nodes).execJ (fs.jbd2 jino) (mounted d) = some (r, s') ∧
    (fs.run ops nodes).exec ⟨d, []⟩ = some (r, t) ∧
    Sim (fileBlocks use jino) (fs.KeepsFile d use jino) s' t := by
  have hguard : Guarded fs d use jino use live d := .init hv.consistent hj.isLive
  have hvis : (fs.run ops nodes).Visits (fs.Clear d use jino) ⟨d, []⟩ :=
    visits_run hw hf hguard (runOk_mounted hv hn) hj.hidden ops
  have hstart : Sim (fileBlocks use jino) (fs.KeepsFile d use jino) (mounted d) ⟨d, []⟩ :=
    ⟨hguard.keepsFile_disk, fun _ he => absurd he List.not_mem_nil, fun _ _ => rfl, rfl⟩
  obtain ⟨r, t, hexec, -⟩ := run_fresh hw hf hv hn ops
  rcases (jbd2_within hv.consistent hj.isLive).sim hstart hcur hvis with
    ⟨-, hnone⟩ | ⟨r', s', t', hrun, hexec', hsim⟩
  · rw [hexec] at hnone
    cases hnone
  · exact ⟨r', s', t', hrun, hexec', hsim⟩

/-- **The journal is transparent** while no step reads a block of which the log holds another copy, or
writes at once a block that is in the log. -/
theorem journal_transparent : ∃ r s' t, fs.runJournaled jino ops nodes (mounted d) = some (r, s') ∧
      (fs.run ops nodes).exec ⟨d, []⟩ = some (r, t) ∧
      ∀ b, b ∉ fileBlocks use jino → s'.store.disk b = t.disk b := by
  obtain ⟨r, s₁, t, hrun, hexec, hsim⟩ := run_sim hw hf hv hn hj hcur
  obtain ⟨s', hcommit, htrans, hsim'⟩ := (jbd2_within hv.consistent hj.isLive).commit hsim
  refine ⟨r, s', t, ?_, hexec, fun b hb => ?_⟩
  · rw [runJournaled, hrun, Option.bind_some, hcommit]
    rfl
  · have hview := hsim'.view b hb
    rwa [Journaled.view, htrans] at hview

end Runs

/-- **Nothing is handed out twice**, without a journal, and with one when no step meets an older copy of a
block than the log holds. -/
theorem no_double_allocation {nodes : List Ext4Node} (hw : fs.WellFormed) (hf : fs.DirsFit)
    (hv : fs.Volume d use live) (hn : ∀ n ∈ nodes, fs.NodeOk d use live n) (ops : List Ext4Op) :
    (∃ r t, (fs.run ops nodes).exec ⟨d, []⟩ = some (r, t) ∧ FreshAllocs t.events) ∧
    ∀ jino, fs.JournalFile jino d live nodes →
      (fs.run ops nodes).Along (fs.jbd2 jino) BlockStep.Current (mounted d) →
      ∃ r s', (fs.run ops nodes).execJ (fs.jbd2 jino) (mounted d) = some (r, s') ∧
        FreshAllocs s'.store.events := by
  refine ⟨run_fresh hw hf hv hn ops, fun jino hj hcur => ?_⟩
  obtain ⟨r, t, hexec, hfresh⟩ := run_fresh hw hf hv hn ops
  obtain ⟨r', s', t', hrun, hexec', hsim⟩ := run_sim hw hf hv hn hj hcur
  rw [hexec] at hexec'
  cases hexec'
  refine ⟨r, s', hrun, ?_⟩
  rwa [hsim.events]

/-! ## Runs on a small volume -/

theorem small_files : ∀ n ∈ [smallFile, smallEmpty], small.NodeOk smallDisk smallUse smallLive n := by
  have h12 := small_volume.nodeOk (show smallLive 12 by unfold smallLive; decide)
  have h13 := small_volume.nodeOk (show smallLive 13 by unfold smallLive; decide)
  intro n hn
  rcases List.mem_cons.mp hn with rfl | hn
  · exact h12
  · rwa [List.mem_singleton.mp hn]

theorem small_journalFile : small.JournalFile 8 smallDisk smallLive [smallFile, smallEmpty] := by
  refine ⟨by unfold smallLive; decide, fun i hi hmode x hx => ?_, fun n hn => ?_⟩
  · have hroot : ∀ i ∈ [2, 8, 12, 13], isDirectoryMode (small.inodeOf smallDisk i) = true → i = 2 := by
      decide +kernel
    rw [hroot i hi hmode, small_rootOk.2] at hx
    revert x
    decide
  · revert n
    simp [smallFile, smallEmpty]

theorem small_current_write : (small.run [.write 0 0 [1]] [smallFile, smallEmpty]).Along (small.jbd2 8)
    BlockStep.Current (mounted smallDisk) := by
  have h : (small.run [.write 0 0 [1]] [smallFile, smallEmpty]).Along (small.jbd2 8) BlockStep.Unlogged
      (mounted smallDisk) := by
    decide +kernel
  exact h.mono fun _ _ => BlockStep.Unlogged.current

theorem journal_transparent_small :
    ∃ r s' t, small.runJournaled 8 [.write 0 0 [1]] [smallFile, smallEmpty] (mounted smallDisk) =
        some (r, s') ∧
      (small.run [.write 0 0 [1]] [smallFile, smallEmpty]).exec ⟨smallDisk, []⟩ = some (r, t) ∧
      ∀ b, b ∉ fileBlocks smallUse 8 → s'.store.disk b = t.disk b :=
  journal_transparent small_wellFormed small_dirsFit small_volume small_files small_journalFile
    small_current_write

/-- **Two writes to one block**: the second one reads the block from the disk, where the first is missing. -/
theorem journal_loses_write : (10 ∉ fileBlocks smallUse 8) ∧
    (small.runJournaled 8 [.write 0 0 [1], .write 0 1 [2]] [smallFile, smallEmpty]
      (mounted smallDisk)).map (fun r => (r.2.store.disk 10 0, r.2.store.disk 10 1)) = some (0, 2) ∧
    ((small.run [.write 0 0 [1], .write 0 1 [2]] [smallFile, smallEmpty]).exec ⟨smallDisk, []⟩).map
      (fun r => (r.2.disk 10 0, r.2.disk 10 1)) = some (1, 2) := by
  refine ⟨?_, by decide +kernel, by decide +kernel⟩
  rintro ⟨l, hl⟩
  cases hl

theorem no_double_allocation_small :
    (∃ r t, (small.run [.write 0 0 [1]] [smallFile, smallEmpty]).exec ⟨smallDisk, []⟩ = some (r, t) ∧
      FreshAllocs t.events) ∧
    small.JournalFile 8 smallDisk smallLive [smallFile, smallEmpty] ∧
    ∃ r s', (small.run [.write 0 0 [1]] [smallFile, smallEmpty]).execJ (small.jbd2 8)
        (mounted smallDisk) = some (r, s') ∧ FreshAllocs s'.store.events := by
  have h := no_double_allocation small_wellFormed small_dirsFit small_volume small_files [.write 0 0 [1]]
  exact ⟨h.1, small_journalFile, h.2 8 small_journalFile small_current_write⟩

/-- **Two files get the same block**: the bitmap is still in the log when the second one reads it. -/
theorem journal_allocates_twice :
    ∃ r s', (small.run [.write 0 1024 [1], .write 1 0 [2]] [smallFile, smallEmpty]).execJ (small.jbd2 8)
        (mounted smallDisk) = some (r, s') ∧
      s'.store.events = [.allocBlock 17, .allocBlock 17] ∧ ¬FreshAllocs s'.store.events := by
  have h : ((small.run [.write 0 1024 [1], .write 1 0 [2]] [smallFile, smallEmpty]).execJ
      (small.jbd2 8) (mounted smallDisk)).map (fun r => r.2.store.events) =
      some [.allocBlock 17, .allocBlock 17] := by
    decide +kernel
  obtain ⟨⟨r, s'⟩, hrun, hev⟩ := Option.map_eq_some_iff.mp h
  refine ⟨r, s', hrun, hev, ?_⟩
  rw [hev]
  exact fun hfresh => hfresh.1 (.inl rfl)

end Ext4

end KeonOS
