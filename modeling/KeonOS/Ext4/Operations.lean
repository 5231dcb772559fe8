import KeonOS.Ext4.Volume

/-!
# The calls on a directory

What `create`, `mkdir` and `unlink` leave of a volume when the driver writes through: which inodes are
written, which entries there are, and that the volume stays one.

* `Ext4.Created`, **`Ext4.exec_create`**: a new file;
* `Ext4.MadeDir`, **`Ext4.exec_mkdir`**: a new directory;
* `Ext4.Unlinked`, **`Ext4.exec_unlink`**: an entry is gone.
-/

namespace KeonOS

open List Function Option BlockM

def BlockUse.isTable : BlockUse → Bool
  | .free | .tree _ | .data _ _ => false
  | _ => true

variable {u : BlockUse} {i j : ℕ} {es : List DirEntry}

theorem BlockUse.isTable_file (h : u = .tree i ∨ ∃ l, u = .data i l) : u.isTable = false := by
  rcases h with rfl | ⟨l, rfl⟩ <;> rfl

theorem BlockUse.file_ne_data (h : u = .tree i ∨ ∃ l, u = .data i l)
    (hij : i ≠ j) (l : ℕ) : u ≠ .data j l := by
  rcases h with rfl | ⟨l', rfl⟩
  · exact BlockUse.noConfusion
  · exact fun heq => hij (BlockUse.data.inj heq).1

theorem Tiles.slice {m : Mem} {bs : ℕ} (h : Tiles m bs 0 es) : Tiles (m.slice 0 bs) bs 0 es :=
  h.congr fun x _ hx => by rw [Mem.slice_apply hx, Nat.zero_add]

namespace Ext4

variable {fs : Ext4} {use : ℕ → BlockUse} {live : ℕ → Prop} {d d' : ℕ → Mem} {m : Mem} {ino i : ℕ}

/-! ## Entries -/

variable {new fileType l q b : ℕ} {pre post : List DirEntry} {e : DirEntry} {prev : Option ℕ}
  {s' : Ext4Store} {place : ℕ × ℕ}

section Entries

variable {name : List UInt8} {place : ℕ × ℕ}

theorem addEntry_dir (hf : fs.blockSize < 2 ^ 16) (hok : fs.InodeOk d use j m)
    (hdir : fs.DirOk d m) (hplace : fs.freeSpace d m (entryLen name.length) = some place)
    (h0 : new ≠ 0) (hnew : new < 2 ^ 32) (hname : name.length < 256) :
    ∃ l d', d' = Function.update d place.1 (insertEntry ((d place.1).slice 0 fs.blockSize) place.2 new
        fileType name) ∧ use place.1 = .data j l ∧ fs.DirOk d' m ∧
      ∃ A B, fs.dirEntries d m = A ++ B ∧ fs.dirEntries d' m = A ++ (name, new) :: B := by
  obtain ⟨l, hl, hmap, hfst, hscan⟩ := freeSpace_eq_some hplace
  rw [hfst] at hscan ⊢
  obtain ⟨es, hes⟩ := hdir.tiled l hl hmap
  obtain ⟨pre, e, post, rfl, hpre, hpost, hroom⟩ := hes.scanSpace_eq hscan
  have htiles : Tiles (Mem.slice (insertEntry _ _ new fileType name) _ _) _ _ _ :=
    (hpre.insertEntry hpost hf hnew hname hroom).slice
  obtain ⟨A, B, -, hA, hB⟩ := hok.dirEntries_put hmap htiles hl
  refine ⟨l, _, rfl, hok.use_mapOf hmap, hok.dirOk_put hmap htiles hdir,
    A ++ liveEntries pre ++ liveEntries [e], liveEntries post ++ B, ?_, ?_⟩
  · rw [hA, blockEntries_of_tiles hes, liveEntries_append, liveEntries_cons]
    simp only [append_assoc]
  · rw [hB, liveEntries_append, liveEntries_cons, liveEntries_cons ⟨new, _, _⟩, liveEntries_singleton,
      liveEntries_singleton e, liveEntries_singleton, if_neg h0]
    simp only [append_assoc, cons_append, nil_append]

theorem removeEntry_dir (hf : fs.blockSize < 2 ^ 16) (hok : fs.InodeOk d use j m) (hdir : fs.DirOk d m)
    (hl : l < fs.dirBlocks m) (hmap : fs.mapOf d m l ≠ 0)
    (hhit : Tiles.Hit ((d (fs.mapOf d m l)).slice 0 fs.blockSize) fs.blockSize 0 name none es q prev pre
      e post)
    (hbefore : ∀ y < l, ∀ e ∈ fs.entriesAt d m y, e.1 ≠ name) :
    ∃ d', d' = Function.update d (fs.mapOf d m l) (removeEntry
        ((d (fs.mapOf d m l)).slice 0 fs.blockSize) q prev) ∧ fs.DirOk d' m ∧
      ∃ A B, fs.dirEntries d m = A ++ (name, e.inode) :: B ∧ fs.dirEntries d' m = A ++ B ∧
        ∀ x ∈ A, x.1 ≠ name := by
  obtain ⟨hino, hnamed⟩ := of_decide_eq_true hhit.named
  have hes : Tiles ((d (fs.mapOf d m l)).slice 0 fs.blockSize) fs.blockSize 0 (pre ++ e :: post) :=
    hhit.before.append hhit.after
  obtain ⟨es', htiles, hlive⟩ := Tiles.removeEntry hhit hf
  obtain ⟨A, B, hpre, hA, hB⟩ := hok.dirEntries_put hmap htiles.slice hl
  refine ⟨_, rfl, hok.dirOk_put hmap htiles.slice hdir, A ++ liveEntries pre, liveEntries post ++ B,
    ?_, ?_, fun x hx => ?_⟩
  · rw [hA, blockEntries_of_tiles hes, liveEntries_append, liveEntries_cons, liveEntries_singleton,
      if_neg hino, hnamed]
    simp only [append_assoc, cons_append, nil_append]
  · rw [hB, hlive]
    simp only [append_assoc]
  · rcases mem_append.mp hx with hx | hx
    · rw [hpre] at hx
      obtain ⟨y, hy, hx⟩ := mem_flatMap.mp hx
      exact hbefore y (mem_range.mp hy) x hx
    · exact forall_mem_liveEntries.mpr hhit.notNamed x hx

end Entries

/-! ## Single steps -/

section Steps

variable {b : ℕ} {v : Mem}

theorem update_table (hb : (use b).isTable = false) {c : ℕ} (hc : (use c).isTable = true) :
    Function.update d b v c = d c := by
  refine update_of_ne ?_ _ _
  rintro rfl
  rw [hb] at hc
  cases hc

variable (h : fs.Consistent d use live)
include h

theorem Consistent.sameTables_put (hb : (use b).isTable = false) :
    SameTables fs d (Function.update d b v) := by
  intro g hg
  rw [update_table hb (by rw [h.desc g hg]; rfl)]

theorem Consistent.inodeOf_put (hb : (use b).isTable = false) (h0 : 0 < i)
    (hg : fs.inodeGroup i < fs.groupsCount) : fs.inodeOf (Function.update d b v) i = fs.inodeOf d i :=
  h.inodeOf_eq (h.sameTables_put hb) (fun c g k hc => update_table hb (by rw [hc]; rfl)) h0 hg

theorem Consistent.inodeMarked_put (hb : (use b).isTable = false) (hg : fs.inodeGroup i < fs.groupsCount) :
    fs.inodeMarked (Function.update d b v) i ↔ fs.inodeMarked d i :=
  h.inodeMarked_congr hg (h.sameTables_put hb) fun c g hc => update_table hb (by rw [hc]; rfl)

variable (h0 : 0 < ino) (hg : fs.inodeGroup ino < fs.groupsCount)
include h0 hg

theorem Consistent.withInode_block (hb : (use b).isTable = false) : fs.withInode d ino m b = d b := by
  refine h.withInode_of_use h0 hg fun g k heq => ?_
  rw [heq] at hb
  cases hb

theorem Consistent.inodeMarked_withInode (hgi : fs.inodeGroup i < fs.groupsCount) :
    fs.inodeMarked (fs.withInode d ino m) i ↔ fs.inodeMarked d i := by
  refine h.inodeMarked_congr hgi (h.sameTables_withInode h0 hg) fun b g hb => ?_
  exact h.withInode_of_use h0 hg fun _ _ heq => by
    rw [hb] at heq
    cases heq

end Steps

theorem Consistent.rewrite (h : fs.Consistent d use live) (hw : fs.WellFormed) (hlive : live ino)
    (hok : fs.InodeOk d use ino m) : fs.Consistent (fs.withInode d ino m) use live := by
  obtain ⟨h0, hg⟩ := h.live_pos ino hlive
  have hsame : (fun i => live i ∨ i = ino) = live :=
    funext fun i => propext ⟨fun hi => hi.elim id fun h => h ▸ hlive, .inl⟩
  exact hsame ▸ h.write hw h0 hg hok

structure InodeTaken (fs : Ext4) (use : ℕ → BlockUse) (live : ℕ → Prop) (ino : ℕ) (s s' : Ext4Store) :
    Prop where
  pos : 0 < ino
  group : fs.inodeGroup ino < fs.groupsCount
  fresh : ¬fs.inodeMarked s.disk ino
  tables : SameTables fs s.disk s'.disk
  consistent : fs.Consistent s'.disk use live
  inodes : ∀ i, 0 < i → fs.inodeGroup i < fs.groupsCount → fs.inodeOf s'.disk i = fs.inodeOf s.disk i
  blocks : ∀ b, (use b).isTable = false → s'.disk b = s.disk b
  marks : ∀ i, 0 < i → fs.inodeGroup i < fs.groupsCount →
    (fs.inodeMarked s'.disk i ↔ fs.inodeMarked s.disk i ∨ i = ino)
  events : s'.events = .allocInode ino :: s.events

structure BlockTaken (fs : Ext4) (use : ℕ → BlockUse) (live : ℕ → Prop) (b : ℕ) (u : BlockUse)
    (s s' : Ext4Store) : Prop where
  free : use b = .free
  ne_zero : b ≠ 0
  lt : b < 2 ^ 48
  tables : SameTables fs s.disk s'.disk
  consistent : fs.Consistent s'.disk (Function.update use b u) live
  inodes : ∀ i, 0 < i → fs.inodeGroup i < fs.groupsCount → fs.inodeOf s'.disk i = fs.inodeOf s.disk i
  blocks : ∀ b, (use b).isTable = false → s'.disk b = s.disk b
  marks : ∀ i, fs.inodeGroup i < fs.groupsCount → (fs.inodeMarked s'.disk i ↔ fs.inodeMarked s.disk i)
  events : s'.events = .allocBlock b :: s.events

variable {s : Ext4Store}

theorem Consistent.table_frame (h : fs.Consistent d use live) {bm g k : ℕ} {value : Bool}
    (hbm : (∃ g, use bm = .blockBitmap g) ∨ ∃ g, use bm = .inodeBitmap g) (hg : g < fs.groupsCount)
    (hs : TableStep fs bm g k value d d') :
    (∀ i, 0 < i → fs.inodeGroup i < fs.groupsCount → fs.inodeOf d' i = fs.inodeOf d i) ∧
      ∀ b, (use b).isTable = false → d' b = d b := by
  refine ⟨fun i h0 hgi => (h.untouched_table hbm hg hs h0 hgi).inode, fun b hb => hs.of_use use ?_ ?_⟩
  · rcases hbm with ⟨g', hbm⟩ | ⟨g', hbm⟩ <;> rw [hbm] <;> rintro heq <;> rw [heq] at hb <;> cases hb
  · rw [h.desc g hg]
    intro heq
    rw [heq] at hb
    cases hb

theorem exec_allocateInode_taken (hw : fs.WellFormed) (h : fs.Consistent s.disk use live)
    (isDirectory : Bool) :
    (fs.allocateInode isDirectory).exec s = some (0, s) ∨
    ∃ ino s', (fs.allocateInode isDirectory).exec s = some (ino, s') ∧
      InodeTaken fs use live ino s s' := by
  rcases exec_allocateInode hw h isDirectory with hnone | ⟨g, k, s', hg, hk, hbit, hexec, hs, hev⟩
  · exact .inl hnone
  obtain ⟨hgroup, hindex⟩ := inode_of_bit g hk
  obtain ⟨hinodes, hblocks⟩ := h.table_frame (.inr ⟨g, h.inodeBitmap g hg⟩) hg hs
  refine .inr ⟨_, s', hexec, Nat.succ_pos _, by rw [hgroup]; exact hg, ?_, hs.locations,
    h.inodeTable_step hg hs, hinodes, hblocks, fun i h0 hgi => h.inodeMarked_step hw hg hk hs hgi h0, hev⟩
  rw [inodeMarked, hgroup, hindex, hbit]
  exact Bool.false_ne_true

theorem InodeTaken.ne_of_live (ht : InodeTaken fs use live ino s s')
    (hv : fs.Volume s.disk use live) (hi : live i) : i ≠ ino := by
  rintro rfl
  exact ht.fresh (hv.marked i hi)

theorem exec_allocateBlock_taken (hw : fs.WellFormed) (h : fs.Consistent s.disk use live) :
    fs.allocateBlock.exec s = some (0, s) ∨
    ∃ b s', fs.allocateBlock.exec s = some (b, s') ∧ ∀ u, BlockTaken fs use live b u s s' := by
  rcases exec_allocateBlock hw.blocksFit.toDescsFit h with hnone | ⟨g, k, s', hg, hk, hfree, hexec, hs, hev⟩
  · exact .inl hnone
  obtain ⟨hinodes, hblocks⟩ := h.table_frame (.inl ⟨g, h.blockBitmap g hg⟩) hg hs
  refine .inr ⟨_, s', hexec, fun u => ⟨hfree, h.ne_zero hfree, hw.blocksFit.blockAt_lt hg hk,
    hs.locations, h.alloc hw.blocksFit.toDescsFit hg hk hfree hs u, hinodes, hblocks, fun i hgi => ?_, hev⟩⟩
  refine h.inodeMarked_congr hgi hs.locations fun c g' hc => hs.of_use use ?_ ?_
  · rw [hc, h.blockBitmap g hg]
    exact BlockUse.noConfusion
  · rw [hc, h.desc g hg]
    exact BlockUse.noConfusion

/-! ## Creating a file -/

structure Created (fs : Ext4) (use : ℕ → BlockUse) (live : ℕ → Prop) (dir : Ext4Node)
    (name : List UInt8) (s s' : Ext4Store) (n : Ext4Node) : Prop where
  pos : 0 < n.ino
  group : fs.inodeGroup n.ino < fs.groupsCount
  fresh : ¬fs.inodeMarked s.disk n.ino
  node : n = ⟨false, n.ino, newInode 0x81A4 1 0 none, 0⟩
  tables : SameTables fs s.disk s'.disk
  volume : fs.Volume s'.disk use fun i => live i ∨ i = n.ino
  inode : fs.inodeOf s'.disk n.ino = newInode 0x81A4 1 0 none
  inodes : ∀ i, live i → fs.inodeOf s'.disk i = fs.inodeOf s.disk i
  entries : ∃ A B, fs.entriesOf s.disk dir.ino = A ++ B ∧
    fs.entriesOf s'.disk dir.ino = A ++ (name, n.ino) :: B
  blocks : ∀ b, (use b).isTable = false → (∀ l, use b ≠ .data dir.ino l) → s'.disk b = s.disk b
  marks : ∀ i, 0 < i → fs.inodeGroup i < fs.groupsCount →
    (fs.inodeMarked s'.disk i ↔ fs.inodeMarked s.disk i ∨ i = n.ino)
  events : s'.events = .allocInode n.ino :: s.events

theorem live_insert {A B : List (List UInt8 × ℕ)} {name : List UInt8} (h : ∀ x ∈ A ++ B, live x.2) :
    ∀ x ∈ A ++ (name, ino) :: B, live x.2 ∨ x.2 = ino := by
  intro x hx
  rcases mem_cons.mp (perm_middle.mem_iff.mp hx) with rfl | hx
  · exact .inr rfl
  · exact .inl (h x hx)

theorem isDirectoryMode_newFile : isDirectoryMode (newInode 0x81A4 1 0 none) = false := by
  decide

theorem inodeSizeOf_newInode (mode links : ℕ) {size : ℕ} (hsize : size < 2 ^ 32) :
    inodeSizeOf (newInode mode links size none) = size := by
  obtain ⟨-, -, hlo, hhi⟩ := newInode_fields mode links size
  rw [inodeSizeOf, hlo, hhi, Nat.mul_zero, Nat.add_zero, Nat.mod_mod, Nat.mod_eq_of_lt hsize]

variable {dir : Ext4Node} {name : List UInt8}

theorem Volume.addEntry (hw : fs.WellFormed) (hf : fs.DirsFit)
    (hv : fs.Volume d use live) (hlive : live j) (hdir : isDirectoryMode (fs.inodeOf d j) = true)
    (hblocks : ∀ b, (use b = .tree j ∨ ∃ l, use b = .data j l) → d' b = d b)
    (hplace : fs.freeSpace d (fs.inodeOf d j) (entryLen name.length) = some place)
    (h0 : 0 < new) (hg : fs.inodeGroup new < fs.groupsCount) (hname : name.length < 256) :
    (∃ l, use place.1 = .data j l) ∧ ∃ d'', d'' = Function.update d' place.1
        (insertEntry ((d' place.1).slice 0 fs.blockSize) place.2 new fileType name) ∧
      fs.DirOk d'' (fs.inodeOf d j) ∧
      ∃ A B, fs.entriesOf d j = A ++ B ∧ fs.dirEntries d'' (fs.inodeOf d j) = A ++ (name, new) :: B := by
  have hok := hv.consistent.inodes j hlive
  obtain ⟨hmap, hblk⟩ := hok.mapOf_blocks hblocks
  have hok' : fs.InodeOk d' use j (fs.inodeOf d j) :=
    hok.congr (fun b hb => hblocks b (.inl hb)) fun _ _ => rfl
  rw [← freeSpace_congr rfl hmap hblk] at hplace
  obtain ⟨l, d'', hd'', huse, hdirOk, A, B, hA, hB⟩ := addEntry_dir hf.blockSize_lt hok'
    (hok.dirOk_congr hblocks (hv.dirs j hlive hdir).ok) hplace h0.ne' (hf.inode_lt hw hg) hname
  refine ⟨⟨l, huse⟩, d'', hd'', hdirOk, A, B, ?_, hB⟩
  rw [← hA, hok.dirEntries_congr hblocks, entriesOf]

theorem InodeTaken.created (hw : fs.WellFormed) (hf : fs.DirsFit) (hv : fs.Volume s.disk use live)
    (hlive : live dir.ino) (hdir : isDirectoryMode (fs.inodeOf s.disk dir.ino) = true)
    (hname : name.length < 256) {place : ℕ × ℕ}
    (hplace : fs.freeSpace s.disk (fs.inodeOf s.disk dir.ino) (entryLen name.length) = some place)
    {s₁ : Ext4Store} (ht : InodeTaken fs use live ino s s₁) {d₂ : ℕ → Mem}
    (hd₂ : d₂ = fs.withInode s₁.disk ino (newInode 0x81A4 1 0 none)) :
    Created fs use live dir name s ⟨Function.update d₂ place.1
        (insertEntry ((d₂ place.1).slice 0 fs.blockSize) place.2 ino ftRegFile name), s₁.events⟩
      ⟨false, ino, newInode 0x81A4 1 0 none, 0⟩ := by
  have hok : fs.InodeOk s₁.disk use ino (newInode 0x81A4 1 0 none) := inodeOk_newInode
  have hcons₂ : fs.Consistent d₂ use fun i => live i ∨ i = ino :=
    hd₂ ▸ ht.consistent.write hw ht.pos ht.group hok
  have hblocks₂ : ∀ b, (use b).isTable = false → d₂ b = s.disk b := by
    intro b hb
    rw [hd₂, ht.consistent.withInode_block ht.pos ht.group hb, ht.blocks b hb]
  have hinodes₂ : ∀ i, live i → fs.inodeOf d₂ i = fs.inodeOf s.disk i := by
    intro i hi
    obtain ⟨h0, hg⟩ := hv.consistent.live_pos i hi
    rw [hd₂, ht.consistent.inodeOf_withInode_of_ne hw ht.pos ht.group h0 hg (ht.ne_of_live hv hi),
      ht.inodes i h0 hg]
  have hinode₂ : fs.inodeOf d₂ ino = newInode 0x81A4 1 0 none := by
    rw [hd₂, ht.consistent.inodeOf_withInode ht.pos ht.group, hok.short]
  obtain ⟨⟨l, huse⟩, d₃, hd₃, hdirOk, A, B, hA, hB⟩ := hv.addEntry hw hf hlive hdir
    (fun b hb => hblocks₂ b (BlockUse.isTable_file hb)) hplace ht.pos ht.group hname
  have htable : (use place.1).isTable = false := by rw [huse]; rfl
  have hinodes₃ : ∀ i, live i ∨ i = ino → fs.inodeOf d₃ i = fs.inodeOf d₂ i := by
    intro i hi
    obtain ⟨h0, hg⟩ := hcons₂.live_pos i hi
    rw [hd₃, hcons₂.inodeOf_put htable h0 hg]
  have hblocks₃ : ∀ b, (use b).isTable = false → (∀ l, use b ≠ .data dir.ino l) → d₃ b = s.disk b := by
    intro b hb hne
    rw [hd₃, update_of_ne, hblocks₂ b hb]
    rintro rfl
    exact hne l huse
  have hmarks : ∀ i, 0 < i → fs.inodeGroup i < fs.groupsCount →
      (fs.inodeMarked d₃ i ↔ fs.inodeMarked s.disk i ∨ i = ino) := by
    intro i h0 hg
    rw [hd₃, hcons₂.inodeMarked_put htable hg, hd₂,
      ht.consistent.inodeMarked_withInode ht.pos ht.group hg, ht.marks i h0 hg]
  have hentries : fs.entriesOf d₃ dir.ino = A ++ (name, ino) :: B := by
    rw [entriesOf, hinodes₃ _ (.inl hlive), hinodes₂ _ hlive, hB]
  have htables : SameTables fs s.disk d₃ := by
    rw [hd₃]
    refine (ht.tables.trans ?_).trans (hcons₂.sameTables_put htable)
    rw [hd₂]
    exact ht.consistent.sameTables_withInode ht.pos ht.group
  rw [← hd₃]
  refine ⟨ht.pos, ht.group, ht.fresh, rfl, htables, hv.of_untouched (hd₃ ▸ hcons₂.put (.inr ⟨_, l, huse⟩))
    (fun i hi => ?_) (fun i hi => .inl hi) (fun i hi hmode => ?_), ?_, fun i hi => ?_,
    ⟨A, B, hA, hentries⟩, hblocks₃, hmarks, ht.events⟩
  · obtain ⟨h0, hg⟩ := hcons₂.live_pos i hi
    exact (hmarks i h0 hg).mpr (hi.imp_left (hv.marked i))
  · rw [hinodes₃ i hi] at hmode
    rcases hi with hi | rfl
    · by_cases hij : i = dir.ino
      · subst hij
        refine .inr ⟨?_, fun x hx => ?_⟩
        · rwa [hinodes₃ _ (.inl hi), hinodes₂ _ hi]
        · rw [hentries] at hx
          have hold := (hv.dirs dir.ino hi hdir).live
          rw [hA] at hold
          exact live_insert hold x hx
      · refine .inl ⟨hi, ?_, fun b hb => 
          hblocks₃ b (BlockUse.isTable_file hb) (BlockUse.file_ne_data hb hij)⟩
        rw [hinodes₃ i (.inl hi), hinodes₂ i hi]
    · rw [hinode₂, isDirectoryMode_newFile] at hmode
      cases hmode
  · rw [hinodes₃ ino (.inr rfl), hinode₂]
  · rw [hinodes₃ i (.inl hi), hinodes₂ i hi]

theorem Created.exec_openNode {n : Ext4Node} (h : Created fs use live dir name s s' n) :
    (fs.openNode false n.ino).exec s' = some (n, s') := by
  rw [Ext4.exec_openNode, h.inode, inodeSizeOf_newInode _ _ (by norm_num), ← h.node]

theorem exec_create (hw : fs.WellFormed) (hf : fs.DirsFit) (hv : fs.Volume s.disk use live)
    (hn : fs.NodeOk s.disk use live dir) (hdir : dir.isDir = true) (hname : name.length < 256) :
    (fs.create dir name).exec s = some (none, s) ∨
    ∃ n s', (fs.create dir name).exec s = some (some n, s') ∧ Created fs use live dir name s s' n := by
  have hbs := hw.blockSize_pos
  rw [create, exec_bind,
    exec_findFreeEntrySpace hbs hn.inode.mapReads (hn.dirOk hv hdir) hn.size, bind_some,
    Nat.mod_eq_of_lt hname]
  cases hplace : fs.freeSpace s.disk dir.inode (entryLen name.length) with
  | none => exact .inl rfl
  | some place =>
    rw [hn.freeSpace_eq hv hdir] at hplace
    simp only [exec_bind]
    rcases exec_allocateInode_taken hw hv.consistent false with hnone | ⟨ino, s₁, hexec, ht⟩
    · rw [hnone]
      exact .inl rfl
    rw [hexec, bind_some, if_neg ht.pos.ne']
    have hmade := ht.created hw hf hv hn.live (hn.kind.trans hdir) hname hplace rfl
    refine .inr ⟨_, _, ?_, hmade⟩
    exact congrArg (Option.map fun r => (some r.1, r.2)) hmade.exec_openNode

/-! ## Making a directory -/

def newDirInode (fs : Ext4) (b : ℕ) : Mem := newInode 0x41ED 2 fs.blockSize (some b)

structure MadeDir (fs : Ext4) (use : ℕ → BlockUse) (live : ℕ → Prop) (dir : Ext4Node)
    (name : List UInt8) (s s' : Ext4Store) (ino b : ℕ) : Prop where
  pos : 0 < ino
  group : fs.inodeGroup ino < fs.groupsCount
  fresh : ¬fs.inodeMarked s.disk ino
  free : use b = .free
  tables : SameTables fs s.disk s'.disk
  volume : fs.Volume s'.disk (Function.update use b (.data ino 0)) fun i => live i ∨ i = ino
  inode : fs.inodeOf s'.disk ino = fs.newDirInode b
  parent : fs.inodeOf s'.disk dir.ino = addLink dir.inode
  inodes : ∀ i, live i → i ≠ dir.ino → fs.inodeOf s'.disk i = fs.inodeOf s.disk i
  dots : fs.entriesOf s'.disk ino = [([0x2E], ino), ([0x2E, 0x2E], dir.ino)]
  full : fs.freeSpace s.disk dir.inode (entryLen name.length) = none →
    fs.entriesOf s'.disk dir.ino = fs.entriesOf s.disk dir.ino
  entries : fs.freeSpace s.disk dir.inode (entryLen name.length) ≠ none →
    ∃ A B, fs.entriesOf s.disk dir.ino = A ++ B ∧ fs.entriesOf s'.disk dir.ino = A ++ (name, ino) :: B
  blocks : ∀ c, (use c).isTable = false → c ≠ b → (∀ l, use c ≠ .data dir.ino l) → s'.disk c = s.disk c
  marks : ∀ i, 0 < i → fs.inodeGroup i < fs.groupsCount →
    (fs.inodeMarked s'.disk i ↔ fs.inodeMarked s.disk i ∨ i = ino)
  events : s'.events = .allocBlock b :: .allocInode ino :: s.events

/-- The new directory is in its place; its parent has the entries `E`. -/
structure NewDir (fs : Ext4) (use : ℕ → BlockUse) (live : ℕ → Prop) (dir : Ext4Node) (ino b : ℕ)
    (E : List (List UInt8 × ℕ)) (d d' : ℕ → Mem) : Prop where
  tables : SameTables fs d d'
  consistent : fs.Consistent d' (Function.update use b (.data ino 0)) fun i => live i ∨ i = ino
  inode : fs.inodeOf d' ino = fs.newDirInode b
  inodes : ∀ i, live i → fs.inodeOf d' i = fs.inodeOf d i
  block : d' b = newDirBlock fs.blockSize ino dir.ino
  blocks : ∀ c, (use c).isTable = false → c ≠ b → (∀ l, use c ≠ .data dir.ino l) → d' c = d c
  trees : ∀ c i, use c = .tree i → d' c = d c
  marks : ∀ i, 0 < i → fs.inodeGroup i < fs.groupsCount →
    (fs.inodeMarked d' i ↔ fs.inodeMarked d i ∨ i = ino)
  dirOk : fs.DirOk d' (fs.inodeOf d dir.ino)
  entries : fs.dirEntries d' (fs.inodeOf d dir.ino) = E

theorem newDirInode_readLE (fs : Ext4) (b : ℕ) {x n : ℕ} (hx : x + n ≤ 40 ∨ 100 ≤ x) :
    (fs.newDirInode b).readLE x n = (newInode 0x41ED 2 fs.blockSize none).readLE x n :=
  Mem.readLE_congr fun i hi => newInode_some_apply (by omega)

theorem isDirectoryMode_newDirInode (b : ℕ) : isDirectoryMode (fs.newDirInode b) = true := by
  rw [isDirectoryMode, newDirInode_readLE fs b (by norm_num), (newInode_fields 0x41ED 2 _).1]
  decide

theorem inodeSizeOf_newDirInode (hf : fs.blockSize < 2 ^ 16) (b : ℕ) :
    inodeSizeOf (fs.newDirInode b) = fs.blockSize := by
  rw [inodeSizeOf, newDirInode_readLE fs b (by norm_num), newDirInode_readLE fs b (by norm_num),
    ← inodeSizeOf, inodeSizeOf_newInode _ _ (hf.trans (by norm_num))]

theorem newDir_entries (hw : fs.WellFormed) (hf : fs.DirsFit) {parent : ℕ} (hb : b ≠ 0)
    (hlt : b < 2 ^ 48) (hblock : d b = newDirBlock fs.blockSize ino parent) (h0 : 0 < ino)
    (hino : ino < 2 ^ 32) (h0' : 0 < parent) (hparent : parent < 2 ^ 32) :
    fs.DirOk d (fs.newDirInode b) ∧
      fs.dirEntries d (fs.newDirInode b) = [([0x2E], ino), ([0x2E, 0x2E], parent)] := by
  have hmap : ∀ l, fs.mapOf d (fs.newDirInode b) l = if l = 0 then b else 0 := mapOf_newInode_some hlt
  have hsize := inodeSizeOf_newDirInode hf.blockSize_lt b
  have hcount : fs.dirBlocks (fs.newDirInode b) = 1 := by
    rw [dirBlocks, hsize, Nat.div_self hw.blockSize_pos]
  have hbs : 24 ≤ fs.blockSize := le_trans (by norm_num) hw.desc_fits
  have htiles : Tiles ((d b).slice 0 fs.blockSize) fs.blockSize 0
      [⟨ino, 12, [0x2E]⟩, ⟨parent, fs.blockSize - 12, [0x2E, 0x2E]⟩] := by
    rw [hblock]
    exact (tiles_newDirBlock hbs (hf.four_dvd hw) hf.blockSize_lt hino hparent).slice
  refine ⟨⟨by rw [hsize], fun l hl _ => ?_⟩, ?_⟩
  · obtain rfl : l = 0 := by omega
    rw [hmap, if_pos rfl]
    exact ⟨_, htiles⟩
  · rw [dirEntries, hcount, range_one, flatMap_singleton, entriesAt, hmap, if_pos rfl,
      if_neg hb, blockEntries_of_tiles htiles, liveEntries_cons, liveEntries_singleton,
      liveEntries_singleton, if_neg h0.ne', if_neg h0'.ne']
    rfl

section MakeDir

variable {b : ℕ} {s₁ s₂ : Ext4Store} (hw : fs.WellFormed) (hv : fs.Volume s.disk use live)
  (hn : fs.NodeOk s.disk use live dir) (hdir : dir.isDir = true)
  (ht : InodeTaken fs use live ino s s₁)
include hw hv hn hdir ht

variable {d₄ : ℕ → Mem}

theorem InodeTaken.newDir (hb : BlockTaken fs use live b (.data ino 0) s₁ s₂)
    (hd₄ : d₄ = Function.update (fs.withInode s₂.disk ino (fs.newDirInode b)) b
      (newDirBlock fs.blockSize ino dir.ino)) :
    NewDir fs use live dir ino b (fs.entriesOf s.disk dir.ino) s.disk d₄ ∧
      ∀ c, (use c = .tree dir.ino ∨ ∃ l, use c = .data dir.ino l) → d₄ c = s.disk c := by
  have hok : fs.InodeOk s₂.disk (Function.update use b (.data ino 0)) ino (fs.newDirInode b) :=
    inodeOk_newInode_some hb.lt hb.free
  have hcons := hb.consistent.write hw ht.pos ht.group hok
  have huse : Function.update use b (.data ino 0) b = .data ino 0 := update_self ..
  have htable : (Function.update use b (.data ino 0) b).isTable = false := by rw [huse]; rfl
  have hblocks : ∀ c, (use c).isTable = false → c ≠ b → d₄ c = s.disk c := by
    intro c hc hne
    rw [hd₄, update_of_ne hne, hb.consistent.withInode_block ht.pos ht.group, hb.blocks c hc,
      ht.blocks c hc]
    rwa [update_of_ne hne]
  have hofDir : ∀ c, (use c = .tree dir.ino ∨ ∃ l, use c = .data dir.ino l) → d₄ c = s.disk c := by
    intro c hc
    refine hblocks c (BlockUse.isTable_file hc) ?_
    rintro rfl
    rcases hc with hc | ⟨l, hc⟩ <;> rw [hb.free] at hc <;> cases hc
  have hold := hv.consistent.inodes dir.ino hn.live
  have htables : SameTables fs s.disk d₄ := by
    rw [hd₄]
    exact ((ht.tables.trans hb.tables).trans
      (hb.consistent.sameTables_withInode ht.pos ht.group)).trans (hcons.sameTables_put htable)
  refine ⟨⟨htables, hd₄ ▸ hcons.put (.inr ⟨ino, 0, huse⟩), ?_, fun i hi => ?_, ?_,
    fun c hc hne _ => hblocks c hc hne, fun c i hc => hblocks c ?_ ?_, fun i h0 hg => ?_, ?_, ?_⟩,
    hofDir⟩
  · rw [hd₄, hcons.inodeOf_put htable ht.pos ht.group, hb.consistent.inodeOf_withInode ht.pos ht.group,
      hok.short]
  · obtain ⟨h0, hg⟩ := hv.consistent.live_pos i hi
    rw [hd₄, hcons.inodeOf_put htable h0 hg, hb.consistent.inodeOf_withInode_of_ne hw ht.pos ht.group h0
      hg (ht.ne_of_live hv hi), hb.inodes i h0 hg, ht.inodes i h0 hg]
  · rw [hd₄, update_self]
  · rw [hc]
    rfl
  · rintro rfl
    rw [hb.free] at hc
    cases hc
  · rw [hd₄, hcons.inodeMarked_put htable hg, hb.consistent.inodeMarked_withInode ht.pos ht.group hg,
      hb.marks i hg, ht.marks i h0 hg]
  · exact hold.dirOk_congr hofDir (hv.dirs _ hn.live (hn.kind.trans hdir)).ok
  · rw [hold.dirEntries_congr hofDir, entriesOf]

variable (hf : fs.DirsFit)
include hf

theorem NewDir.addEntry (hfree : use b = .free)
    (h : NewDir fs use live dir ino b (fs.entriesOf s.disk dir.ino) s.disk d₄)
    (hofDir : ∀ c, (use c = .tree dir.ino ∨ ∃ l, use c = .data dir.ino l) → d₄ c = s.disk c)
    (hname : name.length < 256)
    (hplace : fs.freeSpace s.disk dir.inode (entryLen name.length) = some place) :
    ∃ A B, fs.entriesOf s.disk dir.ino = A ++ B ∧
      NewDir fs use live dir ino b (A ++ (name, ino) :: B) s.disk (Function.update d₄ place.1
        (insertEntry ((d₄ place.1).slice 0 fs.blockSize) place.2 ino ftDir name)) := by
  rw [hn.freeSpace_eq hv hdir] at hplace
  obtain ⟨⟨l, huse⟩, d₅, hd₅, hdirOk, A, B, hA, hB⟩ := hv.addEntry hw hf hn.live (hn.kind.trans hdir)
    hofDir hplace ht.pos ht.group hname
  have hne : place.1 ≠ b := by
    intro heq
    rw [heq, hfree] at huse
    cases huse
  have huse' : Function.update use b (.data ino 0) place.1 = .data dir.ino l := by
    rw [update_of_ne hne, huse]
  have htable : (Function.update use b (.data ino 0) place.1).isTable = false := by rw [huse']; rfl
  refine ⟨A, B, hA, ?_⟩
  rw [← hd₅]
  refine ⟨hd₅ ▸ h.tables.trans (h.consistent.sameTables_put htable),
    hd₅ ▸ h.consistent.put (.inr ⟨_, l, huse'⟩), ?_, fun i hi => ?_, ?_, fun c hc hcb hcd => ?_,
    fun c i hc => ?_, fun i h0 hg => ?_, hdirOk, hB⟩
  · rw [hd₅, h.consistent.inodeOf_put htable ht.pos ht.group, h.inode]
  · obtain ⟨h0, hg⟩ := hv.consistent.live_pos i hi
    rw [hd₅, h.consistent.inodeOf_put htable h0 hg, h.inodes i hi]
  · rw [hd₅, update_of_ne (Ne.symm hne), h.block]
  · rw [hd₅, update_of_ne, h.blocks c hc hcb hcd]
    rintro rfl
    exact hcd l huse
  · rw [hd₅, update_of_ne, h.trees c i hc]
    rintro rfl
    rw [huse] at hc
    cases hc
  · rw [hd₅, h.consistent.inodeMarked_put htable hg, h.marks i h0 hg]

theorem NewDir.madeDir {d₅ : ℕ → Mem} {E : List (List UInt8 × ℕ)} {events : List Ext4Event}
    (hfree : use b = .free) (hb0 : b ≠ 0) (hlt : b < 2 ^ 48)
    (h : NewDir fs use live dir ino b E s.disk d₅)
    (hfull : fs.freeSpace s.disk dir.inode (entryLen name.length) = none →
      E = fs.entriesOf s.disk dir.ino)
    (hroom : fs.freeSpace s.disk dir.inode (entryLen name.length) ≠ none →
      ∃ A B, fs.entriesOf s.disk dir.ino = A ++ B ∧ E = A ++ (name, ino) :: B)
    (hevents : events = .allocBlock b :: .allocInode ino :: s.events) :
    MadeDir fs use live dir name s ⟨fs.withInode d₅ dir.ino (addLink dir.inode), events⟩ ino b := by
  obtain ⟨h0, hg⟩ := hv.consistent.live_pos dir.ino hn.live
  have hne : dir.ino ≠ ino := ht.ne_of_live hv hn.live
  have hold : ∀ x ∈ fs.entriesOf s.disk dir.ino, live x.2 :=
    (hv.dirs dir.ino hn.live (hn.kind.trans hdir)).live
  have hE : ∀ x ∈ E, live x.2 ∨ x.2 = ino := by
    intro x hx
    by_cases hspace : fs.freeSpace s.disk dir.inode (entryLen name.length) = none
    · rw [hfull hspace] at hx
      exact .inl (hold x hx)
    · obtain ⟨A, B, hA, rfl⟩ := hroom hspace
      rw [hA] at hold
      exact live_insert hold x hx
  -- the copy of the inode that is written back
  have hok : fs.InodeOk d₅ (Function.update use b (.data ino 0)) dir.ino (addLink dir.inode) :=
    (hn.inode.congr (fun c hc => h.trees c _ hc) fun c hc => update_use hfree _ hc).writeLinks _
  have hok₅ := h.consistent.inodes dir.ino (.inl hn.live)
  rw [h.inodes dir.ino hn.live] at hok₅
  have hsame : SameDir (fs.inodeOf s.disk dir.ino) (addLink dir.inode) :=
    (hn.dir hdir).trans (sameDir_addLink _)
  generalize hd₆ : fs.withInode d₅ dir.ino (addLink dir.inode) = d₆
  have hcons : fs.Consistent d₆ (Function.update use b (.data ino 0)) fun i => live i ∨ i = ino := by
    exact hd₆ ▸ h.consistent.rewrite hw (.inl hn.live) hok
  have hblocks : ∀ c, (Function.update use b (.data ino 0) c).isTable = false → d₆ c = d₅ c := by
    intro c hc
    rw [← hd₆, h.consistent.withInode_block h0 hg hc]
  have hfile : ∀ {c j : ℕ}, (Function.update use b (.data ino 0) c = .tree j ∨
      ∃ l, Function.update use b (.data ino 0) c = .data j l) → d₆ c = d₅ c := by
    exact fun hc => hblocks _ (BlockUse.isTable_file hc)
  have hother : ∀ c, (use c).isTable = false → c ≠ b → (∀ l, use c ≠ .data dir.ino l) →
      d₆ c = s.disk c := by
    intro c hc hcb hcd
    rw [hblocks c (by rw [update_of_ne hcb]; exact hc), h.blocks c hc hcb hcd]
  have hparent : fs.inodeOf d₆ dir.ino = addLink dir.inode := by
    rw [← hd₆, h.consistent.inodeOf_withInode h0 hg, hok.short]
  have hinode : fs.inodeOf d₆ ino = fs.newDirInode b := by
    rw [← hd₆, h.consistent.inodeOf_withInode_of_ne hw h0 hg ht.pos ht.group hne.symm, h.inode]
  have hinodes : ∀ i, live i → i ≠ dir.ino → fs.inodeOf d₆ i = fs.inodeOf s.disk i := by
    intro i hi hid
    obtain ⟨hi0, hgi⟩ := hv.consistent.live_pos i hi
    rw [← hd₆, h.consistent.inodeOf_withInode_of_ne hw h0 hg hi0 hgi hid, h.inodes i hi]
  have hentries : fs.entriesOf d₆ dir.ino = E := by
    rw [entriesOf, hparent, hok.dirEntries_congr fun c => hfile, hsame.dirEntries_eq hok₅, h.entries]
  have hdirOk : fs.DirOk d₆ (addLink dir.inode) :=
    hok.dirOk_congr (fun c => hfile) (hsame.dirOk hok₅ h.dirOk)
  have hblock : d₆ b = newDirBlock fs.blockSize ino dir.ino := by
    rw [hblocks b (by rw [update_self]; rfl), h.block]
  obtain ⟨hnewOk, hdots⟩ := newDir_entries hw hf hb0 hlt hblock ht.pos (hf.inode_lt hw ht.group) h0
    (hf.inode_lt hw hg)
  have hmarks : ∀ i, 0 < i → fs.inodeGroup i < fs.groupsCount →
      (fs.inodeMarked d₆ i ↔ fs.inodeMarked s.disk i ∨ i = ino) := by
    intro i hi0 hgi
    rw [← hd₆, h.consistent.inodeMarked_withInode h0 hg hgi, h.marks i hi0 hgi]
  have htables : SameTables fs s.disk d₆ := by
    rw [← hd₆]
    exact h.tables.trans (h.consistent.sameTables_withInode h0 hg)
  refine ⟨ht.pos, ht.group, ht.fresh, hfree, htables, hv.of_untouched hcons (fun i hi => ?_)
    (fun i hi => .inl hi) (fun i hi hmode => ?_), hinode, hparent, hinodes, ?_,
    fun hspace => hentries.trans (hfull hspace), fun hspace => ?_, hother, hmarks, hevents⟩
  · obtain ⟨hi0, hgi⟩ := hcons.live_pos i hi
    exact (hmarks i hi0 hgi).mpr (hi.imp_left (hv.marked i))
  · by_cases hid : i = dir.ino
    · subst hid
      refine .inr ⟨by rw [hparent]; exact hdirOk, fun x hx => hE x ?_⟩
      rwa [← hentries]
    rcases hi with hi | rfl
    · refine .inl ⟨hi, hinodes i hi hid, fun c hc =>
        hother c (BlockUse.isTable_file hc) ?_ (BlockUse.file_ne_data hc hid)⟩
      rintro rfl
      rcases hc with hc | ⟨l, hc⟩ <;> rw [hfree] at hc <;> cases hc
    refine .inr ⟨by rw [hinode]; exact hnewOk, fun x hx => ?_⟩
    rw [entriesOf, hinode, hdots] at hx
    rcases mem_cons.mp hx with rfl | hx
    · exact .inr rfl
    · rw [mem_singleton.mp hx]
      exact .inl hn.live
  · rw [entriesOf, hinode, hdots]
  · obtain ⟨A, B, hA, hB⟩ := hroom hspace
    exact ⟨A, B, hA, hentries.trans hB⟩

end MakeDir

theorem exec_writeInode_writeBlock {α : Type} (ino b : ℕ) (m v : Mem) (k : Ext4M α) : (do
      fs.writeInode ino m
      writeBlock b v
      k).exec s = k.exec ⟨Function.update (fs.withInode s.disk ino m) b v, s.events⟩ := rfl

theorem exec_mkdir_cases (hw : fs.WellFormed) (hf : fs.DirsFit) (hv : fs.Volume s.disk use live)
    (hn : fs.NodeOk s.disk use live dir) (hdir : dir.isDir = true) (hname : name.length < 256) :
    ((fs.allocateInode true).exec s = some (0, s) ∧
      (fs.mkdir dir name).exec s = some ((false, dir), s)) ∨
    (∃ ino s', (fs.allocateInode true).exec s = some (ino, s') ∧
      fs.allocateBlock.exec s' = some (0, s') ∧
      (fs.mkdir dir name).exec s = some ((false, dir), s') ∧ InodeTaken fs use live ino s s') ∨
    ∃ ino b s₁ s₂ s', (fs.allocateInode true).exec s = some (ino, s₁) ∧ ino ≠ 0 ∧
      fs.allocateBlock.exec s₁ = some (b, s₂) ∧ b ≠ 0 ∧
      (fs.mkdir dir name).exec s = some ((true, { dir with inode := addLink dir.inode }), s') ∧
      MadeDir fs use live dir name s s' ino b := by
  rw [mkdir, exec_bind]
  rcases exec_allocateInode_taken hw hv.consistent true with hnone | ⟨ino, s₁, hexec, ht⟩
  · rw [hnone]
    exact .inl ⟨rfl, rfl⟩
  rw [hexec, bind_some, if_neg ht.pos.ne', exec_bind]
  rcases exec_allocateBlock_taken hw ht.consistent with hnone | ⟨b, s₂, hexec₂, hb⟩
  · rw [hnone]
    exact .inr (.inl ⟨ino, s₁, rfl, hnone, rfl, ht⟩)
  rw [hexec₂, bind_some, if_neg (hb .free).ne_zero]
  replace hb := hb (.data ino 0)
  obtain ⟨hnew, hofDir⟩ := ht.newDir hw hv hn hdir hb rfl
  generalize hd₄ : Function.update (fs.withInode s₂.disk ino (fs.newDirInode b)) b
    (newDirBlock fs.blockSize ino dir.ino) = d₄ at hnew hofDir
  have hevents : s₂.events = .allocBlock b :: .allocInode ino :: s.events := by
    rw [hb.events, ht.events]
  have hspace : (fs.findFreeEntrySpace dir (entryLen (name.length % 256)) (dir.size + 1) 0).exec
      ⟨d₄, s₂.events⟩ =
        some (fs.freeSpace s.disk dir.inode (entryLen name.length), ⟨d₄, s₂.events⟩) := by
    obtain ⟨hmap, hblk⟩ := hn.inode.mapOf_blocks hofDir
    have hok : fs.InodeOk d₄ use dir.ino dir.inode :=
      hn.inode.congr (fun c hc => hofDir c (.inl hc)) fun _ _ => rfl
    rw [exec_findFreeEntrySpace hw.blockSize_pos hok.mapReads (hn.inode.dirOk_congr hofDir (hn.dirOk hv hdir))
      hn.size, Nat.mod_eq_of_lt hname]
    exact congrArg (fun r => some (r, _)) (freeSpace_congr rfl hmap hblk _)
  refine .inr (.inr ⟨ino, b, s₁, s₂, ?_⟩)
  rw [exec_writeInode_writeBlock, ← newDirInode, hd₄, exec_bind, hspace, bind_some]
  cases hplace : fs.freeSpace s.disk dir.inode (entryLen name.length) with
  | none =>
    exact ⟨_, rfl, ht.pos.ne', hexec₂, hb.ne_zero, rfl, hnew.madeDir hw hv hn hdir ht hf hb.free
      hb.ne_zero hb.lt (fun _ => rfl) (absurd hplace) hevents⟩
  | some place =>
    obtain ⟨A, B, hA, hadded⟩ := hnew.addEntry hw hv hn hdir ht hf hb.free hofDir hname hplace
    exact ⟨_, rfl, ht.pos.ne', hexec₂, hb.ne_zero, rfl, hadded.madeDir hw hv hn hdir ht hf hb.free
      hb.ne_zero hb.lt (fun h => nomatch hplace.symm.trans h) (fun _ => ⟨A, B, hA, rfl⟩) hevents⟩

theorem exec_mkdir (hw : fs.WellFormed) (hf : fs.DirsFit) (hv : fs.Volume s.disk use live)
    (hn : fs.NodeOk s.disk use live dir) (hdir : dir.isDir = true) (hname : name.length < 256) :
    (fs.mkdir dir name).exec s = some ((false, dir), s) ∨
    (∃ ino s', (fs.mkdir dir name).exec s = some ((false, dir), s') ∧ InodeTaken fs use live ino s s') ∨
    ∃ ino b s', (fs.mkdir dir name).exec s = some ((true, { dir with inode := addLink dir.inode }), s') ∧
      MadeDir fs use live dir name s s' ino b := by
  rcases exec_mkdir_cases hw hf hv hn hdir hname with
    ⟨-, h⟩ | ⟨ino, s', -, -, h, ht⟩ | ⟨ino, b, -, -, s', -, -, -, -, h, hmade⟩
  · exact .inl h
  · exact .inr (.inl ⟨ino, s', h, ht⟩)
  · exact .inr (.inr ⟨ino, b, s', h, hmade⟩)

/-! ## Removing an entry -/

theorem Volume.put_dir (hv : fs.Volume d use live) {v : Mem} (hj : live j)
    (hb : use b = .data j l) (hdir : fs.DirOk (Function.update d b v) (fs.inodeOf d j))
    (hentries : ∀ x ∈ fs.dirEntries (Function.update d b v) (fs.inodeOf d j), live x.2) :
    fs.Volume (Function.update d b v) use live := by
  have htable : (use b).isTable = false := by rw [hb]; rfl
  have hinodes : ∀ i, live i → fs.inodeOf (Function.update d b v) i = fs.inodeOf d i := by
    intro i hi
    obtain ⟨h0, hg⟩ := hv.consistent.live_pos i hi
    exact hv.consistent.inodeOf_put htable h0 hg
  refine hv.of_untouched (hv.consistent.put (.inr ⟨j, l, hb⟩)) (fun i hi => ?_) (fun _ hi => hi)
    fun i hi _ => ?_
  · exact (hv.consistent.inodeMarked_put htable (hv.consistent.live_pos i hi).2).mpr (hv.marked i hi)
  by_cases hij : i = j
  · subst hij
    refine .inr ⟨?_, ?_⟩
    · rwa [hinodes i hi]
    · rwa [entriesOf, hinodes i hi]
  · obtain ⟨h0, hg⟩ := hv.consistent.live_pos i hi
    exact .inl ⟨hi, hv.consistent.untouched_put hb h0 hg hij⟩

/-- The inode `j` has been written, with the same blocks. -/
structure Relinked (fs : Ext4) (use : ℕ → BlockUse) (live : ℕ → Prop) (j : ℕ) (m : Mem)
    (d d' : ℕ → Mem) : Prop where
  tables : SameTables fs d d'
  volume : fs.Volume d' use live
  inode : fs.inodeOf d' j = m
  inodes : ∀ i, live i → i ≠ j → fs.inodeOf d' i = fs.inodeOf d i
  entries : ∀ i, live i → fs.entriesOf d' i = fs.entriesOf d i
  blocks : ∀ b, (use b).isTable = false → d' b = d b
  marks : ∀ i, fs.inodeGroup i < fs.groupsCount → (fs.inodeMarked d' i ↔ fs.inodeMarked d i)

theorem Volume.relink (hw : fs.WellFormed) (hv : fs.Volume d use live) (hj : live j)
    (hok : fs.InodeOk d use j m) (hsame : SameDir (fs.inodeOf d j) m) :
    Relinked fs use live j m d (fs.withInode d j m) := by
  obtain ⟨h0, hg⟩ := hv.consistent.live_pos j hj
  have hblocks : ∀ b, (use b).isTable = false → fs.withInode d j m b = d b :=
    fun b hb => hv.consistent.withInode_block h0 hg hb
  have hfile : ∀ {c i : ℕ}, (use c = .tree i ∨ ∃ l, use c = .data i l) → fs.withInode d j m c = d c := by
    exact fun hc => hblocks _ (BlockUse.isTable_file hc)
  have hinode : fs.inodeOf (fs.withInode d j m) j = m := by
    rw [hv.consistent.inodeOf_withInode h0 hg, hok.short]
  have hinodes : ∀ i, live i → i ≠ j → fs.inodeOf (fs.withInode d j m) i = fs.inodeOf d i := by
    intro i hi hne
    obtain ⟨hi0, hgi⟩ := hv.consistent.live_pos i hi
    exact hv.consistent.inodeOf_withInode_of_ne hw h0 hg hi0 hgi hne
  have hmarks : ∀ i, fs.inodeGroup i < fs.groupsCount →
      (fs.inodeMarked (fs.withInode d j m) i ↔ fs.inodeMarked d i) :=
    fun i hgi => hv.consistent.inodeMarked_withInode h0 hg hgi
  have hold := hv.consistent.inodes j hj
  have hentries : ∀ i, live i → fs.entriesOf (fs.withInode d j m) i = fs.entriesOf d i := by
    intro i hi
    by_cases hij : i = j
    · subst hij
      rw [entriesOf, hinode, hok.dirEntries_congr fun c => hfile, hsame.dirEntries_eq hold, entriesOf]
    · rw [entriesOf, hinodes i hi hij,
        (hv.consistent.inodes i hi).dirEntries_congr fun c => hfile, entriesOf]
  have hcons := hv.consistent.rewrite hw hj hok
  refine ⟨hv.consistent.sameTables_withInode h0 hg, hv.of_untouched hcons
    (fun i hi => (hmarks i (hv.consistent.live_pos i hi).2).mpr (hv.marked i hi)) (fun _ hi => hi)
    (fun i hi hmode => ?_), hinode, hinodes, hentries, hblocks, hmarks⟩
  by_cases hij : i = j
  · subst hij
    rw [hinode, hsame.mode] at hmode
    have hdir := hv.dirs i hi hmode
    refine .inr ⟨?_, fun x hx => hdir.live x ?_⟩
    · rw [hinode]
      exact hok.dirOk_congr (fun c => hfile) (hsame.dirOk hold hdir.ok)
    · rwa [← hentries i hi]
  · exact .inl ⟨hi, hinodes i hi hij, fun c => hfile⟩

/-- The entry for `t` has been removed from `dir`. -/
structure Unlinked (fs : Ext4) (use : ℕ → BlockUse) (live : ℕ → Prop) (dir : Ext4Node)
    (name : List UInt8) (s s' : Ext4Store) (t : ℕ) : Prop where
  target : live t
  tables : SameTables fs s.disk s'.disk
  volume : fs.Volume s'.disk use live
  entries : ∃ A B, fs.entriesOf s.disk dir.ino = A ++ (name, t) :: B ∧
    fs.entriesOf s'.disk dir.ino = A ++ B ∧ ∀ x ∈ A, x.1 ≠ name
  others : ∀ i, live i → i ≠ dir.ino → fs.entriesOf s'.disk i = fs.entriesOf s.disk i
  parent : isDirectoryMode (fs.inodeOf s.disk t) = true → fs.inodeOf s'.disk dir.ino = dropLink dir.inode
  inodes : ∀ i, live i → (isDirectoryMode (fs.inodeOf s.disk t) = true → i ≠ dir.ino) →
    fs.inodeOf s'.disk i = if i = t ∧ 0 < (fs.inodeOf s.disk t).readLE iLinksCount 2 then
      dropLink (fs.inodeOf s.disk t) else fs.inodeOf s.disk i
  blocks : ∀ b, (use b).isTable = false → (∀ l, use b ≠ .data dir.ino l) → s'.disk b = s.disk b
  marks : ∀ i, fs.inodeGroup i < fs.groupsCount → (fs.inodeMarked s'.disk i ↔ fs.inodeMarked s.disk i)
  events : s'.events = s.events

theorem Relinked.refl (hv : fs.Volume d use live) : Relinked fs use live j (fs.inodeOf d j) d d :=
  ⟨.refl, hv, rfl, fun _ _ _ => rfl, fun _ _ => rfl, fun _ _ => rfl, fun _ _ => Iff.rfl⟩

/-- The target has one link less, when it had one. -/
def unlinkedInode (target : Mem) : Mem :=
  if 0 < target.readLE iLinksCount 2 then dropLink target else target

theorem sameDir_unlinkedInode (m : Mem) : SameDir m (unlinkedInode m) := by
  rw [unlinkedInode]
  split_ifs
  · exact sameDir_dropLink m
  · exact .refl m

theorem exec_dropTarget (hw : fs.WellFormed) (hv : fs.Volume s.disk use live) {t : ℕ} (ht : live t) :
    ∃ s', (∀ {α : Type} (k : Ext4M α), (if 0 < (fs.inodeOf s.disk t).readLE iLinksCount 2 then do
        fs.writeInode t (dropLink (fs.inodeOf s.disk t))
        k
      else k).exec s = k.exec s') ∧
      Relinked fs use live t (unlinkedInode (fs.inodeOf s.disk t)) s.disk s'.disk ∧
      s'.events = s.events := by
  rw [unlinkedInode]
  by_cases hlinks : 0 < (fs.inodeOf s.disk t).readLE iLinksCount 2
  · rw [if_pos hlinks]
    refine ⟨⟨fs.withInode s.disk t (dropLink (fs.inodeOf s.disk t)), s.events⟩, fun k => ?_,
      hv.relink hw ht ((hv.consistent.inodes t ht).writeLinks _) (sameDir_dropLink _), rfl⟩
    rw [if_pos hlinks]
    rfl
  · rw [if_neg hlinks]
    exact ⟨s, fun k => by rw [if_neg hlinks], .refl hv, rfl⟩

/-- The directory object after an entry for `t` has been removed. -/
def afterUnlink (dir : Ext4Node) (target : Mem) : Ext4Node :=
  if isDirectoryMode target then { dir with inode := dropLink dir.inode } else dir

structure EntryGone (fs : Ext4) (use : ℕ → BlockUse) (live : ℕ → Prop) (dir : Ext4Node)
    (name : List UInt8) (t : ℕ) (d d' : ℕ → Mem) : Prop where
  target : live t
  tables : SameTables fs d d'
  volume : fs.Volume d' use live
  inodes : ∀ i, live i → fs.inodeOf d' i = fs.inodeOf d i
  entries : ∃ A B, fs.entriesOf d dir.ino = A ++ (name, t) :: B ∧ fs.entriesOf d' dir.ino = A ++ B ∧
    ∀ x ∈ A, x.1 ≠ name
  others : ∀ i, live i → i ≠ dir.ino → fs.entriesOf d' i = fs.entriesOf d i
  blocks : ∀ b, (∀ l, use b ≠ .data dir.ino l) → d' b = d b
  marks : ∀ i, fs.inodeGroup i < fs.groupsCount → (fs.inodeMarked d' i ↔ fs.inodeMarked d i)

theorem Volume.removeEntry (hf : fs.DirsFit) (hv : fs.Volume s.disk use live)
    (hn : fs.NodeOk s.disk use live dir) (hdir : dir.isDir = true)
    (hl : l < fs.dirBlocks dir.inode) (hmap : fs.mapOf s.disk dir.inode l ≠ 0)
    (hhit : Tiles.Hit ((s.disk (fs.mapOf s.disk dir.inode l)).slice 0 fs.blockSize) fs.blockSize 0 name
      none es q prev pre e post)
    (hbefore : ∀ y < l, ∀ e ∈ fs.entriesAt s.disk dir.inode y, e.1 ≠ name) {d₁ : ℕ → Mem}
    (hd₁ : d₁ = Function.update s.disk (fs.mapOf s.disk dir.inode l) (KeonOS.removeEntry
        ((s.disk (fs.mapOf s.disk dir.inode l)).slice 0 fs.blockSize) q prev)) :
    EntryGone fs use live dir name e.inode s.disk d₁ := by
  have huse := hn.inode.use_mapOf hmap
  have htable : (use (fs.mapOf s.disk dir.inode l)).isTable = false := by rw [huse]; rfl
  obtain ⟨d', hd', hdirOk, A, B, hA, hB, hfirst⟩ := removeEntry_dir hf.blockSize_lt hn.inode
    (hn.dirOk hv hdir) hl hmap hhit hbefore
  obtain rfl : d' = d₁ := hd'.trans hd₁.symm
  rw [hn.dirEntries_eq hv hdir] at hA
  have hblocks : ∀ b, (∀ l, use b ≠ .data dir.ino l) → d' b = s.disk b := by
    intro b hb
    rw [hd₁, update_of_ne]
    rintro rfl
    exact hb l huse
  -- the object and the disk have the same directory
  have hok : fs.InodeOk d' use dir.ino dir.inode := by
    refine hn.inode.congr (fun c hc => hblocks c fun l heq => ?_) fun _ _ => rfl
    rw [hc] at heq
    cases heq
  have hsame := (hn.dir hdir).symm
  have hlive := (hv.dirs dir.ino hn.live (hn.kind.trans hdir)).live
  have hentries : fs.dirEntries d' (fs.inodeOf s.disk dir.ino) = A ++ B := by
    rw [hsame.dirEntries_eq hok, hB]
  rw [hA] at hlive
  have hinodes : ∀ i, live i → fs.inodeOf d' i = fs.inodeOf s.disk i := by
    intro i hi
    obtain ⟨h0, hg⟩ := hv.consistent.live_pos i hi
    rw [hd₁, hv.consistent.inodeOf_put htable h0 hg]
  refine ⟨hlive (name, e.inode) (mem_append_right _ mem_cons_self),
    hd₁ ▸ hv.consistent.sameTables_put htable, ?_, hinodes, ⟨A, B, hA, ?_, hfirst⟩,
    fun i hi hne => ?_, hblocks, fun i hg => ?_⟩
  · rw [hd₁] at hentries hdirOk hok ⊢
    refine hv.put_dir hn.live huse (hsame.dirOk hok hdirOk) fun x hx => hlive x ?_
    rw [hentries] at hx
    rcases mem_append.mp hx with hx | hx
    · exact mem_append_left _ hx
    · exact mem_append_right _ (mem_cons_of_mem _ hx)
  · rw [entriesOf, hinodes _ hn.live, hentries]
  · obtain ⟨h0, hg⟩ := hv.consistent.live_pos i hi
    rw [hd₁]
    exact (hv.consistent.untouched_put huse h0 hg hne).entriesOf (hv.consistent.inodes i hi)
  · rw [hd₁, hv.consistent.inodeMarked_put htable hg]

theorem EntryGone.unlinked {t : ℕ} {d₁ d₂ : ℕ → Mem} {m₃ : Mem} {s₃ : Ext4Store}
    (hn : fs.NodeOk s.disk use live dir) (h : EntryGone fs use live dir name t s.disk d₁)
    (h₂ : Relinked fs use live t (unlinkedInode (fs.inodeOf s.disk t)) d₁ d₂)
    (h₃ : Relinked fs use live dir.ino m₃ d₂ s₃.disk)
    (hm₃ : m₃ = if isDirectoryMode (fs.inodeOf s.disk t) then dropLink dir.inode
      else fs.inodeOf d₂ dir.ino) (hev : s₃.events = s.events) :
    Unlinked fs use live dir name s s₃ t := by
  obtain ⟨A, B, hA, hB, hfirst⟩ := h.entries
  have hentries : ∀ i, live i → fs.entriesOf s₃.disk i = fs.entriesOf d₁ i :=
    fun i hi => (h₃.entries i hi).trans (h₂.entries i hi)
  have hinodes₂ : ∀ i, live i → fs.inodeOf d₂ i =
      if i = t ∧ 0 < (fs.inodeOf s.disk t).readLE iLinksCount 2 then dropLink (fs.inodeOf s.disk t)
      else fs.inodeOf s.disk i := by
    intro i hi
    by_cases hit : i = t
    · subst hit
      rw [h₂.inode, unlinkedInode]
      simp only [true_and]
    · rw [h₂.inodes i hi hit, h.inodes i hi, if_neg fun hand => hit hand.1]
  refine ⟨h.target, (h.tables.trans h₂.tables).trans h₃.tables, h₃.volume,
    ⟨A, B, hA, (hentries _ hn.live).trans hB, hfirst⟩,
    fun i hi hne => (hentries i hi).trans (h.others i hi hne), fun hmode => ?_, fun i hi hmode => ?_,
    fun b hb hne => ?_, fun i hg => ?_, hev⟩
  · rw [h₃.inode, hm₃, if_pos hmode]
  · rw [← hinodes₂ i hi]
    by_cases hid : i = dir.ino
    · subst hid
      rw [h₃.inode, hm₃, if_neg fun hm => hmode hm rfl]
    · exact h₃.inodes i hi hid
  · rw [h₃.blocks b hb, h₂.blocks b hb, h.blocks b hne]
  · rw [h₃.marks i hg, h₂.marks i hg, h.marks i hg]

theorem exec_unlink (hw : fs.WellFormed) (hf : fs.DirsFit) (hv : fs.Volume s.disk use live)
    (hn : fs.NodeOk s.disk use live dir) (hdir : dir.isDir = true) (name : List UInt8) :
    ((fs.unlink dir name).exec s = some ((false, dir), s) ∧
      ∀ x ∈ fs.entriesOf s.disk dir.ino, x.1 ≠ name) ∨
    ∃ t s', (fs.unlink dir name).exec s = some ((true, afterUnlink dir (fs.inodeOf s.disk t)), s') ∧
      Unlinked fs use live dir name s s' t := by
  have hloop := exec_unlinkLoop hw.blockSize_pos hn.inode.mapReads (hn.dirOk hv hdir) hn.size name
  rw [unlink, exec_bind]
  generalize (fs.unlinkLoop dir name (dir.size + 1) 0).exec s = r at hloop ⊢
  cases hloop with
  | absent hnone =>
    refine .inl ⟨rfl, fun x hx => ?_⟩
    rw [← hn.dirEntries_eq hv hdir, dirEntries] at hx
    obtain ⟨l, hl, hx⟩ := mem_flatMap.mp hx
    exact hnone l (Nat.zero_le _) (mem_range.mp hl) x hx
  | @removed l es q prev pre e post hl hmap hhit hbefore =>
    have hgone := hv.removeEntry hf hn hdir hl hmap hhit (fun y hy => hbefore y (Nat.zero_le _) hy) rfl
    generalize hs₁ : s.put (fs.mapOf s.disk dir.inode l) (KeonOS.removeEntry
      ((s.disk (fs.mapOf s.disk dir.inode l)).slice 0 fs.blockSize) q prev) = s₁
    have hd₁ : EntryGone fs use live dir name e.inode s.disk s₁.disk := hs₁ ▸ hgone
    have hev₁ : s₁.events = s.events := hs₁ ▸ rfl
    have htarget := hd₁.inodes e.inode hd₁.target
    obtain ⟨s₂, hexec₂, h₂, hev₂⟩ := exec_dropTarget hw hd₁.volume hd₁.target
    simp only [exec_bind, exec_readInode, bind_some]
    rw [hexec₂]
    rw [htarget] at h₂ ⊢
    refine .inr ⟨e.inode, ?_⟩
    by_cases hmode : isDirectoryMode (fs.inodeOf s.disk e.inode) = true
    · have hok : fs.InodeOk s₂.disk use dir.ino (dropLink dir.inode) := by
        refine (hn.inode.congr (fun c hc => ?_) fun _ _ => rfl).writeLinks _
        rw [h₂.blocks c (by rw [hc]; rfl), hd₁.blocks c fun l heq => ?_]
        rw [hc] at heq
        cases heq
      have hsame : SameDir (fs.inodeOf s₂.disk dir.ino) (dropLink dir.inode) := by
        refine SameDir.trans ?_ ((hn.dir hdir).trans (sameDir_dropLink _))
        by_cases htd : dir.ino = e.inode
        · rw [htd, h₂.inode]
          exact (sameDir_unlinkedInode _).symm
        · rw [h₂.inodes _ hn.live htd, hd₁.inodes _ hn.live]
          exact .refl _
      have h₃ := h₂.volume.relink hw hn.live hok hsame
      refine ⟨⟨fs.withInode s₂.disk dir.ino (dropLink dir.inode), s₂.events⟩, ?_,
        hd₁.unlinked hn h₂ h₃ (by rw [if_pos hmode]) (hev₂.trans hev₁)⟩
      rw [if_pos hmode, afterUnlink, if_pos hmode]
      rfl
    · refine ⟨s₂, ?_, hd₁.unlinked hn h₂ (.refl h₂.volume) (by rw [if_neg hmode]) (hev₂.trans hev₁)⟩
      rw [if_neg hmode, afterUnlink, if_neg hmode]
      rfl

end Ext4

end KeonOS
