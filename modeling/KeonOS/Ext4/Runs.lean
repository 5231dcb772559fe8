import KeonOS.Ext4.Map

/-!
# Runs of the ext4 driver

What one call can do to a volume when the driver writes through, for any object that is open and any
argument, and what every run keeps.

* `Ext4.CallStep`, **`Ext4.exec_call`**: a call returns, and what it did;
* `Ext4.RunOk`, **`Ext4.RunOk.step`**: the volume, its objects and the allocator;
* `Ext4.DirStep`, **`Ext4.CallStep.dirs`**: what a call does to the entries of a directory.
-/

namespace KeonOS

open List BlockM

/-! ## Long names -/

/-- The part of a name that is left when its length is stored in a byte. -/
def shortName (name : List UInt8) : List UInt8 := name.take (name.length % 256)

theorem shortName_length (name : List UInt8) : (shortName name).length = name.length % 256 := by
  rw [shortName, length_take, Nat.min_eq_left (Nat.mod_le _ _)]

theorem shortName_lt (name : List UInt8) : (shortName name).length < 256 := by
  rw [shortName_length]
  exact Nat.mod_lt _ (by norm_num)

theorem insertEntry_shortName (m : Mem) (p inode fileType : ℕ) (name : List UInt8) :
    insertEntry m p inode fileType (shortName name) = insertEntry m p inode fileType name := by
  have hmod : (shortName name).length % 256 = name.length % 256 := by
    rw [shortName_length, Nat.mod_mod]
  simp only [insertEntry, hmod]
  funext x
  simp only [Mem.copy]
  split_ifs with hx
  · rw [Mem.ofBytes, shortName, getD_eq_getElem?_getD, getElem?_take_of_lt (by omega),
      ← getD_eq_getElem?_getD, Mem.ofBytes]
  · rfl

namespace Ext4

variable {fs : Ext4}

theorem addEntry_shortName (place : ℕ × ℕ) (ino fileType : ℕ) (name : List UInt8) :
    fs.addEntry place ino fileType (shortName name) = fs.addEntry place ino fileType name := by
  simp only [addEntry, insertEntry_shortName]

theorem create_shortName (dir : Ext4Node) (name : List UInt8) :
    fs.create dir (shortName name) = fs.create dir name := by
  simp only [create, addEntry_shortName, shortName_length, Nat.mod_mod]

theorem mkdir_shortName (dir : Ext4Node) (name : List UInt8) :
    fs.mkdir dir (shortName name) = fs.mkdir dir name := by
  simp only [mkdir, addEntry_shortName, shortName_length, Nat.mod_mod]

/-! ## What a call does -/

variable {use : ℕ → BlockUse} {live : ℕ → Prop} {s s' : Ext4Store} {nodes : List Ext4Node}

variable (fs use live nodes s) in
/-- **What a call can do**, on the volume `s` with the objects `nodes`. -/
inductive CallStep : Ext4Op → Ext4Result → List Ext4Node → Ext4Store → (ℕ → BlockUse) → (ℕ → Prop) → Prop
  | idle (op : Ext4Op) (r : Ext4Result) : CallStep op r nodes s use live
  | found {h t : ℕ} {name : List UInt8} {dir : Ext4Node} (hnode : nodes[h]? = some dir)
      (hdir : dir.isDir = true) (hentry : (name, t) ∈ fs.entriesOf s.disk dir.ino) :
      CallStep (.finddir h name) (.status true) (nodes ++ [⟨isDirectoryMode (fs.inodeOf s.disk t), t,
        fs.inodeOf s.disk t, inodeSizeOf (fs.inodeOf s.disk t)⟩]) s use live
  | created {h : ℕ} {name : List UInt8} {dir n : Ext4Node} {s' : Ext4Store}
      (hnode : nodes[h]? = some dir) (hdir : dir.isDir = true)
      (hmade : Created fs use live dir (shortName name) s s' n) :
      CallStep (.create h name) (.status true) (nodes ++ [n]) s' use fun i => live i ∨ i = n.ino
  | leaked {h ino : ℕ} {name : List UInt8} {dir : Ext4Node} {s' : Ext4Store}
      (hnode : nodes[h]? = some dir) (hdir : dir.isDir = true) (ht : InodeTaken fs use live ino s s') :
      CallStep (.mkdir h name) (.status false) nodes s' use live
  | madeDir {h ino b : ℕ} {name : List UInt8} {dir : Ext4Node} {s' : Ext4Store}
      (hnode : nodes[h]? = some dir) (hdir : dir.isDir = true)
      (hmade : MadeDir fs use live dir (shortName name) s s' ino b) :
      CallStep (.mkdir h name) (.status true) (nodes.set h { dir with inode := addLink dir.inode }) s'
        (Function.update use b (.data ino 0)) fun i => live i ∨ i = ino
  | unlinked {h t : ℕ} {name : List UInt8} {dir : Ext4Node} {s' : Ext4Store}
      (hnode : nodes[h]? = some dir) (hdir : dir.isDir = true)
      (hgone : Unlinked fs use live dir name s s' t) :
      CallStep (.unlink h name) (.status true)
        (nodes.set h (afterUnlink dir (fs.inodeOf s.disk t))) s' use live
  | wrote {h offset n : ℕ} {data : List UInt8} {f f' : Ext4Node} {s' : Ext4Store}
      {use' : ℕ → BlockUse} (hnode : nodes[h]? = some f) (hfile : f.isDir = false)
      (hwrote : Wrote fs live f offset data use use' s s' n f') :
      CallStep (.write h offset data) (.count n) (nodes.set h f') s' use' live

variable (fs use live s nodes) in
structure RunOk : Prop where
  volume : fs.Volume s.disk use live
  nodes : ∀ n ∈ nodes, fs.NodeOk s.disk use live n
  allocs : fs.AllocsOk s.disk use s.events

theorem set_self {h : ℕ} {n : Ext4Node} (hnode : nodes[h]? = some n) : nodes.set h n = nodes := by
  obtain ⟨hlt, rfl⟩ := List.getElem?_eq_some_iff.mp hnode
  exact set_getElem_self hlt

theorem exec_call (hw : fs.WellFormed) (hf : fs.DirsFit) (hv : fs.Volume s.disk use live)
    (hnodes : ∀ n ∈ nodes, fs.NodeOk s.disk use live n) (op : Ext4Op) :
    ∃ r nodes' s' use' live', (fs.call op nodes).exec s = some ((r, nodes'), s') ∧
      CallStep fs use live s nodes op r nodes' s' use' live' := by
  have hon : ∀ (h : ℕ) (isDir : Bool) (other : Ext4Result)
      (f : Ext4Node → Ext4M (Ext4Result × List Ext4Node)),
      (∀ n, nodes[h]? = some n → n.isDir = isDir → fs.NodeOk s.disk use live n →
        ∃ r nodes' s' use' live', (f n).exec s = some ((r, nodes'), s') ∧
          CallStep fs use live s nodes op r nodes' s' use' live') →
      ∃ r nodes' s' use' live', (onNode nodes h isDir other f).exec s = some ((r, nodes'), s') ∧
        CallStep fs use live s nodes op r nodes' s' use' live' := by
    intro h isDir other f hf
    unfold onNode
    split
    · rename_i n hnode
      split_ifs with hdir
      · exact hf n hnode hdir (hnodes n (mem_of_getElem? hnode))
      · exact ⟨_, _, s, use, live, rfl, .idle _ _⟩
    · exact ⟨_, _, s, use, live, rfl, .idle _ _⟩
  cases op with
  | finddir h name =>
    refine hon h true _ _ fun dir hnode hdir hn => ?_
    rw [exec_map, exec_finddir hw.blockSize_pos hn.inode.mapReads (hn.dirOk hv hdir) hn.size,
      hn.dirEntries_eq hv hdir]
    cases hlook : (fs.entriesOf s.disk dir.ino).lookup name with
    | none => exact ⟨_, _, s, use, live, rfl, .idle _ _⟩
    | some t =>
      obtain ⟨A, B, hAB, -⟩ := lookup_eq_some_iff.mp hlook
      exact ⟨_, _, s, use, live, rfl, .found hnode hdir (hAB ▸ mem_append_right _ mem_cons_self)⟩
  | create h name =>
    refine hon h true _ _ fun dir hnode hdir hn => ?_
    rw [exec_map, ← create_shortName]
    rcases exec_create hw hf hv hn hdir (shortName_lt name) with hnone | ⟨n, s', hexec, hmade⟩
    · rw [hnone]
      exact ⟨_, _, s, use, live, rfl, .idle _ _⟩
    · rw [hexec]
      exact ⟨_, _, s', use, _, rfl, .created hnode hdir hmade⟩
  | mkdir h name =>
    refine hon h true _ _ fun dir hnode hdir hn => ?_
    rw [exec_map, ← mkdir_shortName]
    rcases exec_mkdir hw hf hv hn hdir (shortName_lt name) with
      hnone | ⟨ino, s', hexec, ht⟩ | ⟨ino, b, s', hexec, hmade⟩
    · rw [hnone, Option.map_some, set_self hnode]
      exact ⟨_, _, s, use, live, rfl, .idle _ _⟩
    · rw [hexec, Option.map_some, set_self hnode]
      exact ⟨_, _, s', use, live, rfl, .leaked hnode hdir ht⟩
    · rw [hexec]
      exact ⟨_, _, s', _, _, rfl, .madeDir hnode hdir hmade⟩
  | unlink h name =>
    refine hon h true _ _ fun dir hnode hdir hn => ?_
    rw [exec_map]
    rcases exec_unlink hw hf hv hn hdir name with ⟨hexec, -⟩ | ⟨t, s', hexec, hgone⟩
    · rw [hexec, Option.map_some, set_self hnode]
      exact ⟨_, _, s, use, live, rfl, .idle _ _⟩
    · rw [hexec]
      exact ⟨_, _, s', use, live, rfl, .unlinked hnode hdir hgone⟩
  | read h offset size =>
    refine hon h false _ _ fun f hnode hfile hn => ?_
    obtain ⟨l, hexec, -⟩ := exec_read_same hw.blockSize_pos hn.inode hn.inode (fun _ _ => rfl) offset
      size
    rw [exec_map, hexec]
    exact ⟨_, _, s, use, live, rfl, .idle _ _⟩
  | write h offset data =>
    refine hon h false _ _ fun f hnode hfile hn => ?_
    obtain ⟨n, f', s', use', hexec, hwrote⟩ := exec_write hw hv.consistent hn.live hn.inode offset data
    rw [exec_map, hexec]
    exact ⟨_, _, s', use', live, rfl, .wrote hnode hfile hwrote⟩

/-! ## What the calls keep -/

variable {i ino : ℕ} {d d' : ℕ → Mem} {events : List Ext4Event} {use' : ℕ → BlockUse}
  {live' : ℕ → Prop} {n' dir : Ext4Node} {name : List UInt8} {op : Ext4Op}

section Wrote

variable {f f' : Ext4Node} {offset n : ℕ} {data : List UInt8} {use' : ℕ → BlockUse}
  (h : Wrote fs live f offset data use use' s s' n f')
include h

theorem Wrote.mode : isDirectoryMode f'.inode = isDirectoryMode f.inode := by
  have hread : f'.inode.readLE iMode 2 = f.inode.readLE iMode 2 :=
    Mem.readLE_congr fun i hi => h.outside _ (.inl (by simp only [iMode, iSizeLo]; omega))
      (.inl (by simp only [iMode]; omega))
  rw [isDirectoryMode, hread, isDirectoryMode]

theorem Wrote.untouched (hv : fs.Volume s.disk use live) (hi : live i) (hne : i ≠ f.ino) :
    fs.Untouched s.disk use i s'.disk := by
  obtain ⟨h0, hg⟩ := hv.consistent.live_pos i hi
  refine ⟨h.others i h0 hg hne, fun b hb => ?_⟩
  rcases hb with hb | ⟨l, hb⟩
  · refine h.keep b ?_ ?_ ?_ ?_ ?_ <;> simp [hb]
  · refine h.keep b ?_ ?_ ?_ ?_ ?_ <;> simp [hb, hne]

theorem Wrote.marks (hv : fs.Volume s.disk use live) (hg : fs.inodeGroup i < fs.groupsCount) :
    fs.inodeMarked s'.disk i ↔ fs.inodeMarked s.disk i := by
  refine hv.consistent.inodeMarked_congr hg h.tables fun b g hb => ?_
  refine h.keep b ?_ ?_ ?_ ?_ ?_ <;> simp [hb]

theorem Wrote.kind (hn : fs.NodeOk s.disk use live f) (hfile : f.isDir = false) :
    isDirectoryMode (fs.inodeOf s'.disk f.ino) = false := by
  rw [← h.inode, h.mode, hn.mode, hfile]

theorem Wrote.nodeOk
    (hn : fs.NodeOk s.disk use live f) (hfile : f.isDir = false) : fs.NodeOk s'.disk use' live f' := by
  refine ⟨h.ino ▸ hn.live, h.inodeOk hn.live, ?_, ?_, h.inodeSize hn.size, fun hdir => ?_⟩
  · rw [h.ino, h.kind hn hfile, h.isDir, hfile]
  · rw [h.mode, hn.mode, h.isDir]
  · rw [h.isDir, hfile] at hdir
    cases hdir

variable (hv : fs.Volume s.disk use live) (hn : fs.NodeOk s.disk use live f) (hfile : f.isDir = false)
include hv hn hfile

theorem Wrote.grows : fs.Grows s.disk use live s'.disk use' live := by
  have hkind : isDirectoryMode (fs.inodeOf s.disk f.ino) = false := by rw [hn.kind, hfile]
  refine ⟨fun _ hi => hi, h.uses, fun b i hb => ?_, fun i hi => ?_, fun i hi hdir => ?_⟩
  · refine h.keep b ?_ ?_ ?_ ?_ ?_ <;> simp [hb]
  · by_cases hne : i = f.ino
    · rw [hne, h.kind hn hfile, hkind]
    · rw [(h.untouched hv hi hne).inode]
  have hne : i ≠ f.ino := by
    rintro rfl
    rw [hkind] at hdir
    cases hdir
  rw [(h.untouched hv hi hne).inode]
  exact .refl _

theorem Wrote.volume : fs.Volume s'.disk use' live := by
  refine hv.of_untouched h.consistent (fun i hi => ?_) (fun _ hi => hi) fun i hi hdir => ?_
  · exact (h.marks hv (hv.consistent.live_pos i hi).2).mpr (hv.marked i hi)
  · refine .inl ⟨hi, h.untouched hv hi ?_⟩
    rintro rfl
    rw [h.kind hn hfile] at hdir
    cases hdir

end Wrote

theorem AllocsOk.allocInode
    (h : fs.AllocsOk d use events) (hfresh : ¬fs.inodeMarked d ino) (h0 : 0 < ino)
    (hg : fs.inodeGroup ino < fs.groupsCount)
    (hmarks : ∀ i, 0 < i → fs.inodeGroup i < fs.groupsCount →
      (fs.inodeMarked d' i ↔ fs.inodeMarked d i ∨ i = ino)) :
    fs.AllocsOk d' use (.allocInode ino :: events) := by
  refine ⟨⟨h.blocks.held, fun hmem => hfresh (h.inodes ino hmem), h.blocks.fresh⟩, fun k hk => ?_,
    fun k hk => ?_⟩
  · rcases mem_cons.mp hk with heq | hk
    · cases heq
      exact ⟨h0, hg⟩
    · exact h.range k hk
  · rcases mem_cons.mp hk with heq | hk
    · cases heq
      exact (hmarks _ h0 hg).mpr (.inr rfl)
    · obtain ⟨hk0, hkg⟩ := h.range k hk
      exact (hmarks k hk0 hkg).mpr (.inl (h.inodes k hk))

theorem AllocsOk.marks {events' : List Ext4Event}
    (h : fs.AllocsOk d use events) (hblocks : EventsOk use' events')
    (hinodes : ∀ k, .allocInode k ∈ events' → .allocInode k ∈ events)
    (hmarks : ∀ i, fs.inodeGroup i < fs.groupsCount → (fs.inodeMarked d' i ↔ fs.inodeMarked d i)) :
    fs.AllocsOk d' use' events' :=
  ⟨hblocks, fun k hk => h.range k (hinodes k hk),
    fun k hk => (hmarks k (h.range k (hinodes k hk)).2).mpr (h.inodes k (hinodes k hk))⟩

theorem nodes_set
    (hnodes : ∀ n ∈ nodes, fs.NodeOk s.disk use live n) (hg : fs.Grows s.disk use live d' use' live')
    (hn' : fs.NodeOk d' use' live' n') (h : ℕ) :
    ∀ n ∈ nodes.set h n', fs.NodeOk d' use' live' n := by
  intro n hn
  rcases mem_or_eq_of_mem_set hn with hn | rfl
  · exact (hnodes n hn).grows hg
  · exact hn'

theorem nodes_append
    (hnodes : ∀ n ∈ nodes, fs.NodeOk s.disk use live n) (hg : fs.Grows s.disk use live d' use' live')
    (hn' : fs.NodeOk d' use' live' n') :
    ∀ n ∈ nodes ++ [n'], fs.NodeOk d' use' live' n := by
  intro n hn
  rcases mem_append.mp hn with hn | hn
  · exact (hnodes n hn).grows hg
  · rwa [mem_singleton.mp hn]

section Step

variable {op : Ext4Op} {r : Ext4Result} {nodes' : List Ext4Node} {live' : ℕ → Prop}

theorem RunOk.node (h : fs.RunOk use live s nodes) {k : ℕ} {n : Ext4Node} (hk : nodes[k]? = some n) :
    fs.NodeOk s.disk use live n :=
  h.nodes n (mem_of_getElem? hk)

theorem CallStep.grows (hstep : CallStep fs use live s nodes op r nodes' s' use' live')
    (h : fs.RunOk use live s nodes) : fs.Grows s.disk use live s'.disk use' live' := by
  cases hstep with
  | idle => exact .refl
  | found => exact .refl
  | created _ _ hmade => exact hmade.grows
  | leaked _ _ ht => exact ht.grows h.volume
  | madeDir hk hdir hmade => exact hmade.grows (h.node hk) hdir
  | unlinked hk hdir hgone => exact hgone.grows (h.node hk) hdir
  | wrote hk hfile hwrote => exact hwrote.grows h.volume (h.node hk) hfile

theorem RunOk.step (h : fs.RunOk use live s nodes)
    (hstep : CallStep fs use live s nodes op r nodes' s' use' live') :
    fs.RunOk use' live' s' nodes' := by
  have hg := hstep.grows h
  cases hstep with
  | idle => exact h
  | found hk hdir hentry =>
    have hn := h.node hk
    have hlive := (h.volume.dirs _ hn.live (hn.kind.trans hdir)).live _ hentry
    exact ⟨h.volume, nodes_append h.nodes hg (h.volume.nodeOk hlive), h.allocs⟩
  | created hk hdir hmade =>
    refine ⟨hmade.volume, nodes_append h.nodes hg hmade.nodeOk, ?_⟩
    rw [hmade.events]
    exact h.allocs.allocInode hmade.fresh hmade.pos hmade.group hmade.marks
  | leaked hk hdir ht =>
    refine ⟨ht.volume h.volume, fun n hn => (h.nodes n hn).grows hg, ?_⟩
    rw [ht.events]
    exact h.allocs.allocInode ht.fresh ht.pos ht.group ht.marks
  | @madeDir k ino b name dir s' hk hdir hmade =>
    refine ⟨hmade.volume, nodes_set h.nodes hg (hmade.nodeOk (h.node hk) hdir) k, ?_⟩
    rw [hmade.events]
    have hino := h.allocs.allocInode hmade.fresh hmade.pos hmade.group hmade.marks
    refine hino.marks (hino.blocks.alloc hmade.free BlockUse.noConfusion) (fun k hk => ?_)
      fun _ _ => Iff.rfl
    simpa using hk
  | unlinked hk hdir hgone =>
    refine ⟨hgone.volume, nodes_set h.nodes hg (hgone.nodeOk (h.node hk) hdir _) _, ?_⟩
    rw [hgone.events]
    exact h.allocs.marks h.allocs.blocks (fun _ hk => hk) hgone.marks
  | wrote hk hfile hwrote =>
    have hn := h.node hk
    refine ⟨hwrote.volume h.volume hn hfile, nodes_set h.nodes hg (hwrote.nodeOk hn hfile) _, ?_⟩
    exact h.allocs.marks (hwrote.events h.allocs.blocks) hwrote.inodes
      fun i hi => hwrote.marks h.volume hi

end Step

/-! ## The entries of a directory -/

theorem Created.untouched {n : Ext4Node}
    (h : Created fs use live dir name s s' n) (hi : live i) (hne : i ≠ dir.ino) :
    fs.Untouched s.disk use i s'.disk :=
  ⟨h.inodes i hi, fun b hb =>
    h.blocks b (BlockUse.isTable_file hb) (BlockUse.file_ne_data hb hne)⟩

theorem MadeDir.untouched {b : ℕ}
    (h : MadeDir fs use live dir name s s' ino b) (hi : live i) (hne : i ≠ dir.ino) :
    fs.Untouched s.disk use i s'.disk := by
  refine ⟨h.inodes i hi hne, fun c hc =>
    h.blocks c (BlockUse.isTable_file hc) ?_ (BlockUse.file_ne_data hc hne)⟩
  rintro rfl
  rcases hc with hc | ⟨l, hc⟩ <;> rw [h.free] at hc <;> cases hc

theorem Wrote.untouched_dir {f f' : Ext4Node} {offset n : ℕ} {data : List UInt8}
    (h : Wrote fs live f offset data use use' s s' n f') (hv : fs.Volume s.disk use live)
    (hn : fs.NodeOk s.disk use live f) (hfile : f.isDir = false) (hi : live i)
    (hdir : isDirectoryMode (fs.inodeOf s'.disk i) = true) : fs.Untouched s.disk use i s'.disk := by
  refine h.untouched hv hi ?_
  rintro rfl
  rw [h.kind hn hfile] at hdir
  cases hdir

variable (fs live nodes s s') in
/-- **What a call does to the entries of the directory `i`.** -/
inductive DirStep (op : Ext4Op) (i : ℕ) : Prop
  | same (hlive : live i) (hdir : isDirectoryMode (fs.inodeOf s.disk i) = true)
      (hentries : fs.entriesOf s'.disk i = fs.entriesOf s.disk i) : DirStep op i
  | added {h t : ℕ} {name : List UInt8} {dir : Ext4Node} {A B : List (List UInt8 × ℕ)}
      (hop : op = .create h name ∨ op = .mkdir h name) (hnode : nodes[h]? = some dir)
      (hdir : dir.isDir = true) (hi : i = dir.ino) (hfresh : ¬fs.inodeMarked s.disk t)
      (hold : fs.entriesOf s.disk i = A ++ B)
      (hnew : fs.entriesOf s'.disk i = A ++ (shortName name, t) :: B) : DirStep op i
  | removed {h t : ℕ} {name : List UInt8} {dir : Ext4Node} {A B : List (List UInt8 × ℕ)}
      (hop : op = .unlink h name) (hnode : nodes[h]? = some dir) (hdir : dir.isDir = true)
      (hi : i = dir.ino) (hold : fs.entriesOf s.disk i = A ++ (name, t) :: B)
      (hnew : fs.entriesOf s'.disk i = A ++ B) : DirStep op i
  | fresh {h : ℕ} {name : List UInt8} {dir : Ext4Node} (hop : op = .mkdir h name)
      (hnode : nodes[h]? = some dir) (hdir : dir.isDir = true) (hfresh : ¬fs.inodeMarked s.disk i)
      (hnew : fs.entriesOf s'.disk i = [([0x2E], i), ([0x2E, 0x2E], dir.ino)]) : DirStep op i

theorem Untouched.dirStep (h : fs.Untouched s.disk use i s'.disk)
    (hv : fs.Volume s.disk use live) (hi : live i)
    (hdir : isDirectoryMode (fs.inodeOf s'.disk i) = true) : DirStep fs live s s' nodes op i :=
  .same hi (by rw [← h.inode, hdir]) (h.entriesOf (hv.consistent.inodes i hi))

theorem CallStep.dirs {r : Ext4Result} {nodes' : List Ext4Node} (hrun : fs.RunOk use live s nodes)
    (hstep : CallStep fs use live s nodes op r nodes' s' use' live') (hi : live' i)
    (hmode : isDirectoryMode (fs.inodeOf s'.disk i) = true) : DirStep fs live s s' nodes op i := by
  have hv := hrun.volume
  cases hstep with
  | idle => exact .same hi hmode rfl
  | found hk hdir hentry => exact .same hi hmode rfl
  | @created k name dir n s' hk hdir hmade =>
    rcases hi with hi | rfl
    · by_cases hid : i = dir.ino
      · obtain ⟨A, B, hA, hB⟩ := hmade.entries
        exact .added (.inl rfl) hk hdir hid hmade.fresh (hid ▸ hA) (hid ▸ hB)
      · exact (hmade.untouched hi hid).dirStep hv hi hmode
    · rw [hmade.inode, isDirectoryMode_newFile] at hmode
      cases hmode
  | leaked hk hdir ht => exact (ht.untouched hv hi).dirStep hv hi hmode
  | @madeDir k ino b name dir s' hk hdir hmade =>
    have hn := hrun.node hk
    rcases hi with hi | rfl
    · by_cases hid : i = dir.ino
      · subst hid
        by_cases hroom : fs.freeSpace s.disk dir.inode (entryLen (shortName name).length) = none
        · exact .same hi (hn.kind.trans hdir) (hmade.full hroom)
        · obtain ⟨A, B, hA, hB⟩ := hmade.entries hroom
          exact .added (.inr rfl) hk hdir rfl hmade.fresh hA hB
      · exact (hmade.untouched hi hid).dirStep hv hi hmode
    · exact .fresh rfl hk hdir hmade.fresh hmade.dots
  | @unlinked k t name dir s' hk hdir hgone =>
    have hn := hrun.node hk
    by_cases hid : i = dir.ino
    · obtain ⟨A, B, hA, hB, -⟩ := hgone.entries
      exact .removed rfl hk hdir hid (hid ▸ hA) (hid ▸ hB)
    · rw [(hgone.grows hn hdir).kinds i hi] at hmode
      exact .same hi hmode (hgone.others i hi hid)
  | wrote hk hfile hwrote =>
    exact (hwrote.untouched_dir hv (hrun.node hk) hfile hi hmode).dirStep hv hi hmode

/-! ## Whole runs -/

variable (fs) in
/-- Every call of a run meets `ok`, with the objects and the volume before it. -/
def RunAlong (ok : Ext4Op → List Ext4Node → Ext4Store → Prop) :
    List Ext4Op → List Ext4Node → Ext4Store → Prop
  | [], _, _ => True
  | op :: ops, nodes, s => ok op nodes s ∧
    ∀ r nodes' s', (fs.call op nodes).exec s = some ((r, nodes'), s') → RunAlong ok ops nodes' s'

theorem runAlong_trivial (ops : List Ext4Op) (nodes : List Ext4Node) (s : Ext4Store) :
    fs.RunAlong (fun _ _ _ => True) ops nodes s := by
  induction ops generalizing nodes s with
  | nil => trivial
  | cons op ops ih => exact ⟨trivial, fun _ nodes' s' _ => ih nodes' s'⟩

theorem run_keeps (hw : fs.WellFormed) (hf : fs.DirsFit)
    {ok : Ext4Op → List Ext4Node → Ext4Store → Prop}
    {I : (ℕ → BlockUse) → (ℕ → Prop) → Ext4Store → List Ext4Node → Prop}
    (hI : ∀ {use live s nodes op r nodes' s' use' live'}, fs.RunOk use live s nodes →
      I use live s nodes → ok op nodes s → CallStep fs use live s nodes op r nodes' s' use' live' →
      I use' live' s' nodes')
    {ops : List Ext4Op} (h : fs.RunOk use live s nodes) (hinv : I use live s nodes)
    (hok : fs.RunAlong ok ops nodes s) :
    ∃ rs nodes' s' use' live', (fs.run ops nodes).exec s = some ((rs, nodes'), s') ∧
      fs.RunOk use' live' s' nodes' ∧ I use' live' s' nodes' := by
  induction ops generalizing use live s nodes with
  | nil => exact ⟨[], nodes, s, use, live, rfl, h, hinv⟩
  | cons op ops ih =>
    obtain ⟨r, nodes₁, s₁, use₁, live₁, hexec, hstep⟩ := exec_call hw hf h.volume h.nodes op
    obtain ⟨rs, nodes₂, s₂, use₂, live₂, hrun, h₂, hinv₂⟩ :=
      ih (h.step hstep) (hI h hinv hok.1 hstep) (hok.2 r nodes₁ s₁ hexec)
    refine ⟨r :: rs, nodes₂, s₂, use₂, live₂, ?_, h₂, hinv₂⟩
    rw [run, exec_bind, hexec, Option.bind_some]
    simp only [exec_bind, hrun, Option.bind_some, exec_pure]

end Ext4

end KeonOS
