import KeonOS.Ext4.Journal

/-!
# What the runs of the ext4 driver keep

Runs of calls with any objects, names and offsets, from a consistent volume.

* **`Ext4.runs_keep_volume`**: the volume stays well formed, and an inode in use stays what it is;
* **`Ext4.runs_keep_names`**: the names of a directory stay distinct;
* **`Ext4.runs_keep_file`**: a file that is not written keeps its bytes.
-/

namespace KeonOS

open List

namespace Ext4

variable {fs : Ext4} {use use' : ℕ → BlockUse} {live live' : ℕ → Prop} {s s' : Ext4Store} {i : ℕ}
  {nodes nodes' : List Ext4Node} {op : Ext4Op} {r : Ext4Result}

/-! ## Volumes -/

section Runs

variable {d : ℕ → Mem} (hw : fs.WellFormed) (hf : fs.DirsFit) (hv : fs.Volume d use live)
  (hn : ∀ n ∈ nodes, fs.NodeOk d use live n)

include hw hf hv hn in
/-- **No run damages a volume**: it returns, the volume and the open objects are well formed after it, and
every inode in use stays in use, as a file or as a directory. -/
theorem runs_keep_volume (ops : List Ext4Op) :
    ∃ rs nodes' s' use' live', (fs.run ops nodes).exec ⟨d, []⟩ = some ((rs, nodes'), s') ∧
      fs.Volume s'.disk use' live' ∧ (∀ n ∈ nodes', fs.NodeOk s'.disk use' live' n) ∧ ∀ i, live i →
        live' i ∧ isDirectoryMode (fs.inodeOf s'.disk i) = isDirectoryMode (fs.inodeOf d i) := by
  obtain ⟨rs, nodes', s', use', live', hexec, hrun, hkinds⟩ := run_keeps hw hf
    (I := fun _ live' s' _ => ∀ i, live i →
      live' i ∧ isDirectoryMode (fs.inodeOf s'.disk i) = isDirectoryMode (fs.inodeOf d i))
    (by
      intro _ _ _ _ _ _ _ _ _ _ hrun hinv _ hstep i hi
      have hg := hstep.grows hrun
      exact ⟨hg.lives i (hinv i hi).1, (hg.kinds i (hinv i hi).1).trans (hinv i hi).2⟩)
    (runOk_mounted hv hn) (fun _ hi => ⟨hi, rfl⟩) (runAlong_trivial ops nodes ⟨d, []⟩)
  exact ⟨rs, nodes', s', use', live', hexec, hrun.volume, hrun.nodes, hkinds⟩

theorem runs_keep_volume_small :
    ∃ rs nodes' s' use' live', (small.run [.write 0 0 [1]] [smallFile, smallEmpty]).exec ⟨smallDisk, []⟩ =
        some ((rs, nodes'), s') ∧ small.Volume s'.disk use' live' := by
  obtain ⟨rs, nodes', s', use', live', hexec, hv, -⟩ :=
    runs_keep_volume small_wellFormed small_dirsFit small_volume small_files [.write 0 0 [1]]
  exact ⟨rs, nodes', s', use', live', hexec, hv⟩

/-! ## Names -/

variable (fs s nodes) in
/-- A name that is given to a new file or directory is not in its directory. -/
def NewName (op : Ext4Op) : Prop :=
  ∀ h name dir, op = .create h name ∨ op = .mkdir h name → nodes[h]? = some dir →
    shortName name ∉ (fs.entriesOf s.disk dir.ino).map Prod.fst

variable (fs live s) in
def NamesDistinct : Prop :=
  ∀ i, live i → isDirectoryMode (fs.inodeOf s.disk i) = true → ((fs.entriesOf s.disk i).map Prod.fst).Nodup

theorem CallStep.names (hrun : fs.RunOk use live s nodes) (hnames : fs.NamesDistinct live s)
    (hop : fs.NewName s nodes op) (hstep : CallStep fs use live s nodes op r nodes' s' use' live') :
    fs.NamesDistinct live' s' := by
  intro i hi hmode
  cases hstep.dirs hrun hi hmode with
  | same hlive hdir hentries => exact hentries ▸ hnames i hlive hdir
  | added hcall hnode hdir hid _ hold hnew =>
    have hn := hrun.node hnode
    have hfresh := hop _ _ _ hcall hnode
    have hnd := hnames i (hid ▸ hn.live) (by rw [hid, hn.kind, hdir])
    rw [← hid, hold] at hfresh
    rw [hold] at hnd
    rw [hnew, perm_middle.map Prod.fst |>.nodup_iff, map_cons, nodup_cons]
    exact ⟨hfresh, hnd⟩
  | removed _ hnode hdir hid hold hnew =>
    have hn := hrun.node hnode
    have hnd := hnames i (hid ▸ hn.live) (by rw [hid, hn.kind, hdir])
    rw [hold, perm_middle.map Prod.fst |>.nodup_iff, map_cons, nodup_cons] at hnd
    rw [hnew]
    exact hnd.2
  | fresh _ _ _ _ hnew =>
    rw [hnew]
    exact (by decide : [[0x2E], ([0x2E, 0x2E] : List UInt8)].Nodup)

include hw hf hv hn in
/-- **The names of every directory stay distinct** in a run that makes only names that are not there. -/
theorem runs_keep_names (hnames : fs.NamesDistinct live ⟨d, []⟩) {ops : List Ext4Op}
    (hnew : fs.RunAlong (fun op nodes s => fs.NewName s nodes op) ops nodes ⟨d, []⟩) :
    ∃ rs nodes' s' use' live', (fs.run ops nodes).exec ⟨d, []⟩ = some ((rs, nodes'), s') ∧
      fs.Volume s'.disk use' live' ∧ fs.NamesDistinct live' s' := by
  obtain ⟨rs, nodes', s', use', live', hexec, hrun, hnames'⟩ := run_keeps hw hf
    (I := fun _ live s _ => fs.NamesDistinct live s)
    (fun hrun hnames hop hstep => hstep.names hrun hnames hop) (runOk_mounted hv hn) hnames hnew
  exact ⟨rs, nodes', s', use', live', hexec, hrun.volume, hnames'⟩

theorem runs_keep_names_small :
    ∃ rs nodes' s' use' live', (small.run [.create 0 [0x67]] [smallRoot]).exec ⟨smallDisk, []⟩ =
        some ((rs, nodes'), s') ∧ small.Volume s'.disk use' live' ∧ small.NamesDistinct live' s' := by
  refine runs_keep_names small_wellFormed small_dirsFit small_volume
    (fun n hn => mem_singleton.mp hn ▸ small_root) (fun i hi hmode => ?_)
    ⟨fun h name dir hop hnode => ?_, fun _ _ _ _ => trivial⟩
  · have hroot : ∀ i ∈ [2, 8, 12, 13], isDirectoryMode (small.inodeOf smallDisk i) = true → i = 2 := by
      decide +kernel
    rw [hroot i hi hmode, small_rootOk.2]
    decide
  · obtain ⟨rfl, rfl⟩ : h = 0 ∧ name = [0x67] := by simpa [eq_comm] using hop
    cases hnode
    change shortName [0x67] ∉ (small.entriesOf smallDisk 2).map Prod.fst
    rw [small_rootOk.2]
    decide

/-! ## Files -/

variable (fs) in
/-- The size and the bytes of the file `i` are as before. -/
def SameFile (d d' : ℕ → Mem) (i : ℕ) : Prop :=
  inodeSizeOf (fs.inodeOf d' i) = inodeSizeOf (fs.inodeOf d i) ∧
    ∀ x, fs.fileByte d' (fs.inodeOf d' i) x = fs.fileByte d (fs.inodeOf d i) x

theorem sameFile_of_blocks {d d' : ℕ → Mem} (hok : fs.InodeOk d use i (fs.inodeOf d i))
    (hinode : SameDir (fs.inodeOf d i) (fs.inodeOf d' i))
    (hblocks : ∀ b, (use b = .tree i ∨ ∃ l, use b = .data i l) → d' b = d b) : fs.SameFile d d' i := by
  have hmap : ∀ l, fs.mapOf d' (fs.inodeOf d' i) l = fs.mapOf d (fs.inodeOf d i) l := fun l =>
    (hinode.node.mapOf_eq (fun hu => (hok.entries hu).1) l).trans
      (hok.mapOf_congr fun b hb => hblocks b (.inl hb))
  refine ⟨hinode.size, fun x => ?_⟩
  rw [fileByte, hmap, fileByte]
  split_ifs with h0
  · rfl
  · rw [hblocks _ (.inr ⟨_, hok.use_mapOf h0⟩)]

variable (nodes) in
def WritesOther (op : Ext4Op) (i : ℕ) : Prop :=
  ∀ h offset data f, op = .write h offset data → nodes[h]? = some f → f.ino ≠ i

theorem CallStep.sameFile (hrun : fs.RunOk use live s nodes) (hi : live i)
    (hfile : isDirectoryMode (fs.inodeOf s.disk i) = false) (hop : WritesOther nodes op i)
    (hstep : CallStep fs use live s nodes op r nodes' s' use' live') : fs.SameFile s.disk s'.disk i := by
  have hv := hrun.volume
  have hok := hv.consistent.inodes i hi
  have huntouched : fs.Untouched s.disk use i s'.disk → fs.SameFile s.disk s'.disk i :=
    fun h => sameFile_of_blocks hok (h.inode ▸ .refl _) h.blocks
  -- a file is not the directory of the call
  have hne : ∀ {k : ℕ} {dir : Ext4Node}, nodes[k]? = some dir → dir.isDir = true → i ≠ dir.ino := by
    rintro k dir hk hdir rfl
    rw [(hrun.node hk).kind, hdir] at hfile
    cases hfile
  cases hstep with
  | idle => exact ⟨rfl, fun _ => rfl⟩
  | found => exact ⟨rfl, fun _ => rfl⟩
  | created hk hdir hmade => exact huntouched (hmade.untouched hi (hne hk hdir))
  | leaked _ _ ht => exact huntouched (ht.untouched hv hi)
  | madeDir hk hdir hmade => exact huntouched (hmade.untouched hi (hne hk hdir))
  | @unlinked _ t _ dir _ hk hdir hgone =>
    refine sameFile_of_blocks hok ?_ fun b hb =>
      hgone.blocks b (BlockUse.isTable_file hb) (BlockUse.file_ne_data hb (hne hk hdir))
    rw [hgone.inodes i hi fun _ => hne hk hdir]
    split_ifs with ht
    · rw [ht.1]
      exact sameDir_dropLink _
    · exact .refl _
  | wrote hk _ hwrote => exact huntouched (hwrote.untouched hv hi (hop _ _ _ _ rfl hk).symm)

include hw hf hv hn in
/-- **A file that is not written keeps its bytes**, also when it is unlinked. -/
theorem runs_keep_file (hi : live i) (hfile : isDirectoryMode (fs.inodeOf d i) = false) {ops : List Ext4Op}
    (hops : fs.RunAlong (fun op nodes _ => WritesOther nodes op i) ops nodes ⟨d, []⟩) :
    ∃ rs nodes' s', (fs.run ops nodes).exec ⟨d, []⟩ = some ((rs, nodes'), s') ∧
      fs.SameFile d s'.disk i := by
  obtain ⟨rs, nodes', s', use', live', hexec, -, -, -, hsame⟩ := run_keeps hw hf
    (I := fun _ live' s' _ => live' i ∧ isDirectoryMode (fs.inodeOf s'.disk i) = false ∧
      fs.SameFile d s'.disk i)
    (by
      intro _ _ _ _ _ _ _ _ _ _ hrun ⟨hlive, hmode, hsame⟩ hop hstep
      have hg := hstep.grows hrun
      have hstep' := hstep.sameFile hrun hlive hmode hop
      exact ⟨hg.lives i hlive, (hg.kinds i hlive).trans hmode, hstep'.1.trans hsame.1,
        fun x => (hstep'.2 x).trans (hsame.2 x)⟩)
    (runOk_mounted hv hn) ⟨hi, hfile, rfl, fun _ => rfl⟩ hops
  exact ⟨rs, nodes', s', hexec, hsame⟩

theorem runs_keep_file_small :
    ∃ rs nodes' s', (small.run [.write 1 0 [1]] [smallFile, smallEmpty]).exec ⟨smallDisk, []⟩ =
      some ((rs, nodes'), s') ∧ small.SameFile smallDisk s'.disk 12 := by
  refine runs_keep_file small_wellFormed small_dirsFit small_volume small_files
    (by unfold smallLive; decide) (by decide +kernel)
    ⟨fun h offset data f hop hnode => ?_, fun _ _ _ _ => trivial⟩
  cases hop
  cases hnode
  exact (by decide : (13 : ℕ) ≠ 12)

end Runs

end Ext4

end KeonOS
