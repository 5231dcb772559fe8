import KeonOS.Ext4.Operations

/-!
# A directory is a map

The entries of a directory, seen through `finddir`, are a map from names to inodes: `create` and `mkdir`
add a name that was absent, `unlink` removes one, and neither changes what another name gives.

* **`Ext4.directory_is_map`**: the three calls on a directory.
-/

namespace KeonOS

open List

namespace Ext4

variable {fs : Ext4} {use : ℕ → BlockUse} {live : ℕ → Prop} {d d' : ℕ → Mem} {m : Mem} {ino i : ℕ}
  {s s' : Ext4Store} {dir n : Ext4Node} {name : List UInt8}

/-! ## Objects after a call -/

theorem InodeTaken.grows (h : InodeTaken fs use live ino s s') (hv : fs.Volume s.disk use live) :
    fs.Grows s.disk use live s'.disk use live := by
  have hinodes : ∀ i, live i → fs.inodeOf s'.disk i = fs.inodeOf s.disk i := by
    intro i hi
    obtain ⟨h0, hg⟩ := hv.consistent.live_pos i hi
    exact h.inodes i h0 hg
  refine ⟨fun _ hi => hi, fun _ _ => rfl, fun b i hb => h.blocks b (by rw [hb]; rfl), fun i hi => ?_,
    fun i hi _ => ?_⟩
  · rw [hinodes i hi]
  · rw [hinodes i hi]
    exact .refl _

theorem InodeTaken.untouched (h : InodeTaken fs use live ino s s') (hv : fs.Volume s.disk use live)
    (hi : live i) : fs.Untouched s.disk use i s'.disk := by
  obtain ⟨h0, hg⟩ := hv.consistent.live_pos i hi
  exact ⟨h.inodes i h0 hg, fun b hb => h.blocks b (BlockUse.isTable_file hb)⟩

theorem InodeTaken.volume (h : InodeTaken fs use live ino s s') (hv : fs.Volume s.disk use live) :
    fs.Volume s'.disk use live := by
  refine hv.of_untouched h.consistent (fun i hi => ?_) (fun _ hi => hi) fun i hi _ =>
    .inl ⟨hi, h.untouched hv hi⟩
  obtain ⟨h0, hg⟩ := hv.consistent.live_pos i hi
  exact (h.marks i h0 hg).mpr (.inl (hv.marked i hi))

theorem Created.grows (h : Created fs use live dir name s s' n) :
    fs.Grows s.disk use live s'.disk use fun i => live i ∨ i = n.ino := by
  refine ⟨fun i hi => .inl hi, fun _ _ => rfl, fun b i hb => h.blocks b (by rw [hb]; rfl) ?_,
    fun i hi => ?_, fun i hi _ => ?_⟩
  · intro l heq
    rw [hb] at heq
    cases heq
  · rw [h.inodes i hi]
  · rw [h.inodes i hi]
    exact .refl _

theorem Created.nodeOk (h : Created fs use live dir name s s' n) :
    fs.NodeOk s'.disk use (fun i => live i ∨ i = n.ino) n := by
  have hopen := h.volume.nodeOk (.inr rfl : live n.ino ∨ n.ino = n.ino)
  rwa [h.inode, isDirectoryMode_newFile, inodeSizeOf_newInode _ _ (by norm_num), ← h.node] at hopen

variable {b t v : ℕ} {A B : List (List UInt8 × ℕ)}

theorem MadeDir.grows (h : MadeDir fs use live dir name s s' ino b)
    (hn : fs.NodeOk s.disk use live dir) (hdir : dir.isDir = true) :
    fs.Grows s.disk use live s'.disk (Function.update use b (.data ino 0)) fun i => live i ∨ i = ino := by
  have hsame : ∀ i, live i → SameDir (fs.inodeOf s.disk i) (fs.inodeOf s'.disk i) := by
    intro i hi
    by_cases hid : i = dir.ino
    · rw [hid, h.parent]
      exact (hn.dir hdir).trans (sameDir_addLink _)
    · rw [h.inodes i hi hid]
      exact .refl _
  refine ⟨fun i hi => .inl hi, fun c hc => update_use h.free _ hc,
    fun c i hc => h.blocks c (by rw [hc]; rfl) ?_ ?_, fun i hi => (hsame i hi).mode,
    fun i hi _ => hsame i hi⟩
  · rintro rfl
    rw [h.free] at hc
    cases hc
  · intro l heq
    rw [hc] at heq
    cases heq

theorem MadeDir.nodeOk (h : MadeDir fs use live dir name s s' ino b)
    (hn : fs.NodeOk s.disk use live dir) (hdir : dir.isDir = true) :
    fs.NodeOk s'.disk (Function.update use b (.data ino 0)) (fun i => live i ∨ i = ino)
      { dir with inode := addLink dir.inode } := by
  have hgrown := hn.grows (h.grows hn hdir)
  have hsame := sameDir_addLink dir.inode
  exact ⟨hgrown.live, hgrown.inode.writeLinks _, hgrown.kind, hsame.mode.trans hn.mode,
    hn.size.trans hsame.size.symm, fun hd => (hgrown.dir hd).trans hsame⟩

theorem Unlinked.grows (h : Unlinked fs use live dir name s s' t)
    (hn : fs.NodeOk s.disk use live dir) (hdir : dir.isDir = true) :
    fs.Grows s.disk use live s'.disk use live := by
  have hsame : ∀ i, live i → SameDir (fs.inodeOf s.disk i) (fs.inodeOf s'.disk i) := by
    intro i hi
    by_cases hparent : isDirectoryMode (fs.inodeOf s.disk t) = true ∧ i = dir.ino
    · rw [hparent.2, h.parent hparent.1]
      exact (hn.dir hdir).trans (sameDir_dropLink _)
    rw [h.inodes i hi fun hmode hid => hparent ⟨hmode, hid⟩]
    split_ifs with hit
    · rw [hit.1]
      exact sameDir_dropLink _
    · exact .refl _
  refine ⟨fun _ hi => hi, fun _ _ => rfl, fun b i hb => h.blocks b (by rw [hb]; rfl) ?_,
    fun i hi => (hsame i hi).mode, fun i hi _ => hsame i hi⟩
  intro l heq
  rw [hb] at heq
  cases heq

@[simp]
theorem afterUnlink_ino (dir : Ext4Node) (target : Mem) : (afterUnlink dir target).ino = dir.ino := by
  rw [afterUnlink]
  split_ifs <;> rfl

@[simp]
theorem afterUnlink_isDir (dir : Ext4Node) (target : Mem) :
    (afterUnlink dir target).isDir = dir.isDir := by
  rw [afterUnlink]
  split_ifs <;> rfl

theorem Unlinked.nodeOk (h : Unlinked fs use live dir name s s' t)
    (hn : fs.NodeOk s.disk use live dir) (hdir : dir.isDir = true) (target : Mem) :
    fs.NodeOk s'.disk use live (afterUnlink dir target) := by
  have hgrown := hn.grows (h.grows hn hdir)
  have hsame := sameDir_dropLink dir.inode
  rw [afterUnlink]
  split_ifs
  · exact ⟨hgrown.live, hgrown.inode.writeLinks _, hgrown.kind, hsame.mode.trans hn.mode,
      hn.size.trans hsame.size.symm, fun hd => (hgrown.dir hd).trans hsame⟩
  · exact hgrown

/-! ## Looking in a list -/

theorem lookup_insert (habsent : (A ++ B).lookup name = none) (v : ℕ) (x : List UInt8) :
    (A ++ (name, v) :: B).lookup x = if x = name then some v else (A ++ B).lookup x := by
  rw [lookup_append, lookup_append, lookup_cons]
  by_cases hx : x = name
  · rw [lookup_append, Option.or_eq_none_iff] at habsent
    rw [if_pos hx, hx, habsent.1, beq_self_eq_true]
    rfl
  · rw [if_neg hx, beq_false_of_ne hx]

theorem lookup_remove {x : List UInt8} (hx : x ≠ name) :
    (A ++ B).lookup x = (A ++ (name, v) :: B).lookup x := by
  rw [lookup_append, lookup_append, lookup_cons, beq_false_of_ne hx]

theorem lookup_remove_self
    (honce : ((A ++ (name, v) :: B).map Prod.fst).count name = 1) : (A ++ B).lookup name = none := by
  have hcount : ((A ++ B).map Prod.fst).count name = 0 := by
    simp only [map_append, map_cons, count_append, count_cons_self] at honce ⊢
    omega
  rw [lookup_eq_none_iff_forall_ne]
  rintro x hx rfl
  exact count_eq_zero.mp hcount (mem_map_of_mem hx)

/-! ## The calls -/

/-- `dir` is an object of a well-formed directory on a consistent volume. -/
def OpenDir (fs : Ext4) (s : Ext4Store) (dir : Ext4Node) : Prop :=
  ∃ use live, fs.Volume s.disk use live ∧ fs.NodeOk s.disk use live dir ∧ dir.isDir = true

def Finds (fs : Ext4) (s : Ext4Store) (dir : Ext4Node) (name : List UInt8) (r : Option ℕ) : Prop :=
  ∃ n, (fs.finddir dir name).exec s = some (n, s) ∧ n.map Ext4Node.ino = r

/-- `dir'` is the well-formed directory after a call on `dir`, and names other than `name` give what they
gave. -/
structure MapKept (fs : Ext4) (s s' : Ext4Store) (dir dir' : Ext4Node) (name : List UInt8) : Prop where
  isOpen : fs.OpenDir s' dir'
  wellFormed : fs.DirOk s'.disk dir'.inode
  others : ∀ x, x ≠ name → ∀ r, fs.Finds s dir x r ↔ fs.Finds s' dir' x r

theorem NodeOk.finds_iff (hw : fs.WellFormed) (hv : fs.Volume s.disk use live)
    (hn : fs.NodeOk s.disk use live dir) (hdir : dir.isDir = true) {r : Option ℕ} :
    fs.Finds s dir name r ↔ (fs.entriesOf s.disk dir.ino).lookup name = r := by
  have hexec : (fs.finddir dir name).exec s = _ :=
    exec_finddir hw.blockSize_pos hn.inode.mapReads (hn.dirOk hv hdir) hn.size
  rw [hn.dirEntries_eq hv hdir] at hexec
  unfold Finds
  simp only [hexec, Option.some.injEq, Prod.mk.injEq, and_true, exists_eq_left', Option.map_map]
  rw [show (Ext4Node.ino ∘ fun ino => (⟨isDirectoryMode (fs.inodeOf s.disk ino), ino,
    fs.inodeOf s.disk ino, inodeSizeOf (fs.inodeOf s.disk ino)⟩ : Ext4Node)) = id from rfl,
    Option.map_id, id_eq]

theorem MapKept.of_entries (hw : fs.WellFormed) {use' : ℕ → BlockUse} {live' : ℕ → Prop}
    {dir' : Ext4Node} (hv : fs.Volume s.disk use live) (hn : fs.NodeOk s.disk use live dir)
    (hdir : dir.isDir = true) (hv' : fs.Volume s'.disk use' live')
    (hn' : fs.NodeOk s'.disk use' live' dir') (hdir' : dir'.isDir = true)
    (h : ∀ x, x ≠ name → (fs.entriesOf s.disk dir.ino).lookup x =
      (fs.entriesOf s'.disk dir'.ino).lookup x) : MapKept fs s s' dir dir' name := by
  refine ⟨⟨use', live', hv', hn', hdir'⟩, hn'.dirOk hv' hdir', fun x hx r => ?_⟩
  rw [hn.finds_iff hw hv hdir, hn'.finds_iff hw hv' hdir', h x hx]

def HasRoom (fs : Ext4) (s : Ext4Store) (dir : Ext4Node) (name : List UInt8) : Prop :=
  ∃ place, (fs.findFreeEntrySpace dir (entryLen name.length) (dir.size + 1) 0).exec s =
    some (some place, s)

theorem NodeOk.hasRoom_iff (hw : fs.WellFormed) (hv : fs.Volume s.disk use live)
    (hn : fs.NodeOk s.disk use live dir) (hdir : dir.isDir = true) :
    fs.HasRoom s dir name ↔ fs.freeSpace s.disk dir.inode (entryLen name.length) ≠ none := by
  unfold HasRoom
  rw [exec_findFreeEntrySpace hw.blockSize_pos hn.inode.mapReads (hn.dirOk hv hdir) hn.size,
    Option.ne_none_iff_exists']
  simp only [Option.some.injEq, Prod.mk.injEq, and_true]

section Calls

variable (hw : fs.WellFormed) (hf : fs.DirsFit) (hv : fs.Volume s.disk use live)
  (hn : fs.NodeOk s.disk use live dir) (hdir : dir.isDir = true)
include hw hf hv hn hdir

theorem create_map (hname : name.length < 256) (habsent : fs.Finds s dir name none) :
    ∃ r s', (fs.create dir name).exec s = some (r, s') ∧ MapKept fs s s' dir dir name ∧
      ∀ n, r = some n → fs.Finds s' dir name (some n.ino) := by
  rw [hn.finds_iff hw hv hdir] at habsent
  rcases exec_create hw hf hv hn hdir hname with hnone | ⟨n, s', hexec, h⟩
  · exact ⟨none, s, hnone, .of_entries hw hv hn hdir hv hn hdir fun _ _ => rfl, fun n hr => by cases hr⟩
  have hn' := hn.grows h.grows
  obtain ⟨A, B, hA, hB⟩ := h.entries
  rw [hA] at habsent
  refine ⟨some n, s', hexec, .of_entries hw hv hn hdir h.volume hn' hdir fun x hx => ?_, ?_⟩
  · rw [hA, hB, lookup_insert habsent, if_neg hx]
  · intro n' heq
    cases heq
    rw [hn'.finds_iff hw h.volume hdir, hB, lookup_insert habsent, if_pos rfl]

theorem mkdir_map (hname : name.length < 256) (habsent : fs.Finds s dir name none)
    (hroom : fs.HasRoom s dir name) :
    ∃ ok dir' s', (fs.mkdir dir name).exec s = some ((ok, dir'), s') ∧ MapKept fs s s' dir dir' name ∧
      (ok = true → ∃ ino b, s'.events = .allocBlock b :: .allocInode ino :: s.events ∧
        fs.Finds s' dir' name (some ino)) := by
  rw [hn.finds_iff hw hv hdir] at habsent
  rw [hn.hasRoom_iff hw hv hdir] at hroom
  rcases exec_mkdir hw hf hv hn hdir hname with hnone | ⟨ino, s', hexec, h⟩ | ⟨ino, b, s', hexec, h⟩
  · exact ⟨false, dir, s, hnone, .of_entries hw hv hn hdir hv hn hdir fun _ _ => rfl,
      fun hok => by cases hok⟩
  · refine ⟨false, dir, s', hexec, .of_entries hw hv hn hdir (h.volume hv) (hn.grows (h.grows hv)) hdir
      fun x _ => ?_, fun hok => by cases hok⟩
    rw [(h.untouched hv hn.live).entriesOf (hv.consistent.inodes _ hn.live)]
  · have hn' := h.nodeOk hn hdir
    obtain ⟨A, B, hA, hB⟩ := h.entries hroom
    rw [hA] at habsent
    refine ⟨true, _, s', hexec, .of_entries hw hv hn hdir h.volume hn' hdir fun x hx => ?_,
      fun _ => ⟨ino, b, h.events, ?_⟩⟩
    · rw [hA, hB, lookup_insert habsent, if_neg hx]
    · rw [hn'.finds_iff hw h.volume hdir, hB, lookup_insert habsent, if_pos rfl]

theorem unlink_map (name : List UInt8) :
    ∃ ok dir' s', (fs.unlink dir name).exec s = some ((ok, dir'), s') ∧ MapKept fs s s' dir dir' name ∧
      (ok = true → ((fs.dirEntries s.disk dir.inode).map Prod.fst).count name = 1 →
        fs.Finds s' dir' name none) := by
  rcases exec_unlink hw hf hv hn hdir name with ⟨hexec, -⟩ | ⟨t, s', hexec, h⟩
  · exact ⟨false, dir, s, hexec, .of_entries hw hv hn hdir hv hn hdir fun _ _ => rfl,
      fun hok => by cases hok⟩
  have hn' := h.nodeOk hn hdir (fs.inodeOf s.disk t)
  have hdir' := (afterUnlink_isDir dir (fs.inodeOf s.disk t)).trans hdir
  obtain ⟨A, B, hA, hB, -⟩ := h.entries
  refine ⟨true, _, s', hexec, .of_entries hw hv hn hdir h.volume hn' hdir' fun x hx => ?_,
    fun _ honce => ?_⟩
  · rw [afterUnlink_ino, hA, hB]
    exact (lookup_remove hx).symm
  · rw [hn.dirEntries_eq hv hdir, hA] at honce
    rw [hn'.finds_iff hw h.volume hdir', afterUnlink_ino, hB, lookup_remove_self honce]

end Calls

/-- **A directory is a map from names to inodes.** After a `create` or `mkdir` of an absent name the name
gives the new inode, after an `unlink` a name that occurred once gives null, and the other names give what
they gave. -/
theorem directory_is_map (hw : fs.WellFormed) (hf : fs.DirsFit) (hopen : fs.OpenDir s dir)
    (hname : name.length ≤ 127) :
    (fs.Finds s dir name none → fs.HasRoom s dir name →
      (∃ r s', (fs.create dir name).exec s = some (r, s') ∧ MapKept fs s s' dir dir name ∧
        ∀ n, r = some n → fs.Finds s' dir name (some n.ino)) ∧
      ∃ ok dir' s', (fs.mkdir dir name).exec s = some ((ok, dir'), s') ∧ MapKept fs s s' dir dir' name ∧
        (ok = true → ∃ ino b, s'.events = .allocBlock b :: .allocInode ino :: s.events ∧
          fs.Finds s' dir' name (some ino))) ∧
    ∃ ok dir' s', (fs.unlink dir name).exec s = some ((ok, dir'), s') ∧ MapKept fs s s' dir dir' name ∧
      (ok = true → ((fs.dirEntries s.disk dir.inode).map Prod.fst).count name = 1 →
        fs.Finds s' dir' name none) := by
  obtain ⟨use, live, hv, hn, hdir⟩ := hopen
  have hlen : name.length < 256 := by omega
  refine ⟨fun habsent hroom => ⟨?_, ?_⟩, ?_⟩
  · exact create_map hw hf hv hn hdir hlen habsent
  · exact mkdir_map hw hf hv hn hdir hlen habsent hroom
  · exact unlink_map hw hf hv hn hdir name

/-! ## The small volume -/

theorem small_dirsFit : small.DirsFit := ⟨by decide, by decide⟩

theorem small_tiles : Tiles ((smallDisk 9).slice 0 1024) 1024 0
    [⟨2, 12, [0x2E]⟩, ⟨2, 12, [0x2E, 0x2E]⟩, ⟨12, 1000, [0x66]⟩] := by
  have hnew : Tiles (newDirBlock 1024 2 2) 1024 0 [⟨2, 12, [0x2E]⟩, ⟨2, 1012, [0x2E, 0x2E]⟩] :=
    tiles_newDirBlock (by norm_num) (by norm_num) (by norm_num) (by norm_num) (by norm_num)
  obtain ⟨hdot, hfit, hrest⟩ := hnew.head
  have hpre : Tiles (newDirBlock 1024 2 2) 12 0 [⟨2, 12, [0x2E]⟩] := .cons hdot hfit .nil
  exact (hpre.insertEntry hrest (by norm_num) (by norm_num) (by norm_num) (by decide)).slice

theorem small_rootOk : small.DirOk smallDisk (small.inodeOf smallDisk 2) ∧
    small.entriesOf smallDisk 2 = [([0x2E], 2), ([0x2E, 0x2E], 2), ([0x66], 12)] := by
  have hcount : small.dirBlocks (small.inodeOf smallDisk 2) = 1 := by decide +kernel
  refine ⟨⟨by decide +kernel, fun l hl _ => ?_⟩, ?_⟩
  · obtain rfl : l = 0 := by omega
    exact ⟨_, small_tiles⟩
  · rfl

theorem small_volume : small.Volume smallDisk smallUse smallLive := by
  refine ⟨small_consistent, fun ino h => ?_, fun ino h hmode => ?_⟩
  · have hall : ∀ ino ∈ [2, 8, 12, 13], small.inodeMarked smallDisk ino := by
      unfold inodeMarked
      decide +kernel
    exact hall ino h
  have hall : ∀ ino ∈ [2, 8, 12, 13], isDirectoryMode (small.inodeOf smallDisk ino) = true → ino = 2 := by
    decide +kernel
  obtain rfl := hall ino h hmode
  refine ⟨small_rootOk.1, ?_⟩
  unfold smallLive
  decide

def smallRoot : Ext4Node := ⟨true, 2, small.inodeOf smallDisk 2, inodeSizeOf (small.inodeOf smallDisk 2)⟩

theorem small_root : small.NodeOk smallDisk smallUse smallLive smallRoot := by
  have hmode : isDirectoryMode (small.inodeOf smallDisk 2) = true := by decide +kernel
  have hopen := small_volume.nodeOk (show smallLive 2 by unfold smallLive; decide)
  rwa [hmode] at hopen

theorem directory_is_map_small :
    small.Finds ⟨smallDisk, []⟩ smallRoot [0x67] none ∧ small.HasRoom ⟨smallDisk, []⟩ smallRoot [0x67] ∧
    (∃ r s', (small.create smallRoot [0x67]).exec ⟨smallDisk, []⟩ = some (r, s') ∧
      MapKept small ⟨smallDisk, []⟩ s' smallRoot smallRoot [0x67] ∧
      ∀ n, r = some n → small.Finds s' smallRoot [0x67] (some n.ino)) ∧
    ∃ ok dir' s', (small.unlink smallRoot [0x67]).exec ⟨smallDisk, []⟩ = some ((ok, dir'), s') ∧
      MapKept small ⟨smallDisk, []⟩ s' smallRoot dir' [0x67] := by
  have hv : small.Volume (Store.disk ⟨smallDisk, ([] : List Ext4Event)⟩) smallUse smallLive := small_volume
  have hfind : small.Finds ⟨smallDisk, []⟩ smallRoot [0x67] none := by
    rw [small_root.finds_iff small_wellFormed hv rfl]
    change (small.entriesOf smallDisk 2).lookup [0x67] = none
    rw [small_rootOk.2]
    decide
  have hroom : small.HasRoom ⟨smallDisk, []⟩ smallRoot [0x67] := by
    rw [small_root.hasRoom_iff small_wellFormed hv rfl]
    decide +kernel
  have hmap := directory_is_map small_wellFormed small_dirsFit ⟨_, _, hv, small_root, rfl⟩
    (show ([0x67] : List UInt8).length ≤ 127 by decide)
  obtain ⟨ok, dir', s', hexec, hkept, -⟩ := hmap.2
  exact ⟨hfind, hroom, (hmap.1 hfind hroom).1, ok, dir', s', hexec, hkept⟩

end Ext4

end KeonOS
