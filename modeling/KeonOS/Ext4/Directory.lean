import KeonOS.Ext4.Entries
import KeonOS.Ext4.ReadWrite

/-!
# Directories

A directory is well formed when its size is a whole number of blocks and each of its blocks is tiled by
entries. Its entries in use are a list of names and inodes, in which the loops over the blocks look.

* `Ext4.dirEntries`, **`Ext4.DirOk`**: the entries of a directory;
* **`Ext4.exec_finddirLoop`**, `Ext4.exec_findFreeEntrySpace`, `Ext4.exec_unlinkLoop`: the loops.
-/

namespace KeonOS

open List Option BlockM

/-- The entries of a block from `p` on, as the loops come to them. -/
def entriesFrom (m : Mem) (bs : ℕ) : ℕ → ℕ → List DirEntry
  | 0, _ => []
  | fuel + 1, p => if bs ≤ p then [] else readEntry m p :: entriesFrom m bs fuel (p + deRecLen m p)

variable {m : Mem} {es : List DirEntry} {fuel : ℕ} {name : List UInt8}

theorem Tiles.entriesFrom_eq {bs p : ℕ} (h : Tiles m bs p es)
    (hfuel : bs ≤ p + fuel) : entriesFrom m bs fuel p = es := by
  induction h generalizing fuel with
  | nil =>
    cases fuel with
    | zero => rfl
    | succ fuel => rw [entriesFrom, if_pos le_rfl]
  | @cons p e es heq hfit h ih =>
    have hle := h.le
    have hpos := hfit.pos
    have hlen : deRecLen m p = e.recLen := by rw [← heq]; rfl
    obtain ⟨fuel, rfl⟩ := Nat.exists_eq_succ_of_ne_zero (show fuel ≠ 0 by omega)
    rw [entriesFrom, if_neg (by omega), hlen, heq, ih (by omega)]

theorem forall_mem_liveEntries :
    (∀ x ∈ liveEntries es, x.1 ≠ name) ↔ ∀ e ∈ es, e.isNamed name = false := by
  simp only [liveEntries, DirEntry.isNamed, List.forall_mem_map, mem_filter, and_imp,
    decide_eq_true_eq, decide_eq_false_iff_not, not_and]

theorem lookup_eq_none_iff_forall_ne {L : List (List UInt8 × ℕ)} :
    L.lookup name = none ↔ ∀ x ∈ L, x.1 ≠ name := by
  rw [lookup_eq_none_iff]
  refine forall₂_congr fun x _ => ?_
  rw [bne_iff_ne]
  exact ne_comm

namespace Ext4

variable (fs : Ext4) (d : ℕ → Mem) (inode : Mem)

def blockEntries (m : Mem) : List (List UInt8 × ℕ) :=
  liveEntries (entriesFrom (m.slice 0 fs.blockSize) fs.blockSize fs.blockSize 0)

def entriesAt (l : ℕ) : List (List UInt8 × ℕ) :=
  if fs.mapOf d inode l = 0 then [] else fs.blockEntries (d (fs.mapOf d inode l))

def dirBlocks : ℕ := inodeSizeOf inode / fs.blockSize

/-- **The entries in use of a directory.** -/
def dirEntries : List (List UInt8 × ℕ) :=
  (List.range (fs.dirBlocks inode)).flatMap (fs.entriesAt d inode)

/-- The room for an entry in block `l` of a directory: the block and the offset in it. -/
def spaceAt (required l : ℕ) : Option (ℕ × ℕ) :=
  if fs.mapOf d inode l = 0 then none
  else (scanSpace ((d (fs.mapOf d inode l)).slice 0 fs.blockSize) fs.blockSize required fs.blockSize 0).map
    (fs.mapOf d inode l, ·)

def freeSpace (required : ℕ) : Option (ℕ × ℕ) :=
  (List.range (fs.dirBlocks inode)).findSome? (fs.spaceAt d inode required)

/-- **A well-formed directory.** -/
structure DirOk : Prop where
  whole : fs.blockSize ∣ inodeSizeOf inode
  tiled : ∀ l < fs.dirBlocks inode, fs.mapOf d inode l ≠ 0 →
    ∃ es, Tiles ((d (fs.mapOf d inode l)).slice 0 fs.blockSize) fs.blockSize 0 es

variable {fs d inode} {d' : ℕ → Mem} {inode' : Mem}

theorem blockEntries_of_tiles
    (h : Tiles (m.slice 0 fs.blockSize) fs.blockSize 0 es) : fs.blockEntries m = liveEntries es := by
  rw [blockEntries, h.entriesFrom_eq (by omega)]

/-! ## What the entries depend on -/

theorem dirEntries_congr (hsize : inodeSizeOf inode' = inodeSizeOf inode)
    (hmap : ∀ l, fs.mapOf d' inode' l = fs.mapOf d inode l)
    (hblk : ∀ l, fs.mapOf d inode l ≠ 0 → d' (fs.mapOf d inode l) = d (fs.mapOf d inode l)) :
    fs.dirEntries d' inode' = fs.dirEntries d inode := by
  have hat : fs.entriesAt d' inode' = fs.entriesAt d inode := by
    funext l
    rw [entriesAt, hmap, entriesAt]
    split_ifs with h0
    · rfl
    · rw [hblk l h0]
  rw [dirEntries, hat, dirBlocks, hsize, dirEntries, dirBlocks]

theorem freeSpace_congr (hsize : inodeSizeOf inode' = inodeSizeOf inode)
    (hmap : ∀ l, fs.mapOf d' inode' l = fs.mapOf d inode l)
    (hblk : ∀ l, fs.mapOf d inode l ≠ 0 → d' (fs.mapOf d inode l) = d (fs.mapOf d inode l))
    (required : ℕ) : fs.freeSpace d' inode' required = fs.freeSpace d inode required := by
  have hat : fs.spaceAt d' inode' required = fs.spaceAt d inode required := by
    funext l
    rw [spaceAt, hmap, spaceAt]
    split_ifs with h0
    · rfl
    · rw [hblk l h0]
  rw [freeSpace, hat, dirBlocks, hsize, freeSpace, dirBlocks]

theorem freeSpace_eq_some {required : ℕ} {place : ℕ × ℕ}
    (h : fs.freeSpace d inode required = some place) :
    ∃ l < fs.dirBlocks inode, fs.mapOf d inode l ≠ 0 ∧ place.1 = fs.mapOf d inode l ∧
      scanSpace ((d place.1).slice 0 fs.blockSize) fs.blockSize required fs.blockSize 0 =
        some place.2 := by
  obtain ⟨l, hl, hat⟩ := exists_of_findSome?_eq_some h
  rw [spaceAt] at hat
  split_ifs at hat with h0
  obtain ⟨p, hp, rfl⟩ := map_eq_some_iff.mp hat
  exact ⟨l, mem_range.mp hl, h0, rfl, hp⟩

theorem DirOk.congr (h : fs.DirOk d inode) (hsize : inodeSizeOf inode' = inodeSizeOf inode)
    (hmap : ∀ l, fs.mapOf d' inode' l = fs.mapOf d inode l)
    (hblk : ∀ l, fs.mapOf d inode l ≠ 0 → d' (fs.mapOf d inode l) = d (fs.mapOf d inode l)) :
    fs.DirOk d' inode' := by
  refine ⟨hsize ▸ h.whole, fun l hl h0 => ?_⟩
  rw [dirBlocks, hsize] at hl
  rw [hmap] at h0 ⊢
  rw [hblk l h0]
  exact h.tiled l hl h0

variable {use : ℕ → BlockUse} {ino : ℕ}

theorem InodeOk.mapOf_blocks (h : fs.InodeOk d use ino inode)
    (hd : ∀ b, (use b = .tree ino ∨ ∃ l, use b = .data ino l) → d' b = d b) :
    (∀ l, fs.mapOf d' inode l = fs.mapOf d inode l) ∧
      ∀ l, fs.mapOf d inode l ≠ 0 → d' (fs.mapOf d inode l) = d (fs.mapOf d inode l) :=
  ⟨fun _ => h.mapOf_congr fun b hb => hd b (.inl hb), fun l h0 => hd _ (.inr ⟨l, h.use_mapOf h0⟩)⟩

theorem InodeOk.dirEntries_congr (h : fs.InodeOk d use ino inode)
    (hd : ∀ b, (use b = .tree ino ∨ ∃ l, use b = .data ino l) → d' b = d b) :
    fs.dirEntries d' inode = fs.dirEntries d inode := by
  obtain ⟨hmap, hblk⟩ := h.mapOf_blocks hd
  exact Ext4.dirEntries_congr rfl hmap hblk

theorem InodeOk.dirOk_congr (h : fs.InodeOk d use ino inode)
    (hd : ∀ b, (use b = .tree ino ∨ ∃ l, use b = .data ino l) → d' b = d b) (hdir : fs.DirOk d inode) :
    fs.DirOk d' inode := by
  obtain ⟨hmap, hblk⟩ := h.mapOf_blocks hd
  exact hdir.congr rfl hmap hblk

variable {l : ℕ}

theorem dirEntries_split (d d' : ℕ → Mem) (hl : l < fs.dirBlocks inode)
    (hat : ∀ x, x ≠ l → fs.entriesAt d' inode x = fs.entriesAt d inode x) :
    ∃ A B, A = (List.range l).flatMap (fs.entriesAt d inode) ∧
      fs.dirEntries d inode = A ++ fs.entriesAt d inode l ++ B ∧
      fs.dirEntries d' inode = A ++ fs.entriesAt d' inode l ++ B := by
  obtain ⟨k, hk⟩ := Nat.exists_eq_add_of_lt hl
  have hrange : List.range (fs.dirBlocks inode) = List.range l ++ l :: List.range' (l + 1) k := by
    rw [hk, Nat.add_assoc, range_add, range_succ_eq_map, map_cons, List.map_map,
      List.range'_eq_map_range]
    refine congrArg (List.range l ++ l :: ·) (map_congr_left fun i _ => ?_)
    simp only [Function.comp_apply]
    omega
  have hpre : (List.range l).flatMap (fs.entriesAt d' inode) =
      (List.range l).flatMap (fs.entriesAt d inode) :=
    flatMap_congr fun x hx => hat x (mem_range.mp hx).ne
  have hpost : (List.range' (l + 1) k).flatMap (fs.entriesAt d' inode) =
      (List.range' (l + 1) k).flatMap (fs.entriesAt d inode) := by
    refine flatMap_congr fun x hx => hat x ?_
    rw [mem_range'_1] at hx
    omega
  refine ⟨_, (List.range' (l + 1) k).flatMap (fs.entriesAt d inode), rfl, ?_, ?_⟩
  · rw [dirEntries, hrange, flatMap_append, flatMap_cons, append_assoc]
  · rw [dirEntries, hrange, flatMap_append, flatMap_cons, hpre, hpost, append_assoc]

/-! ## Writing a block -/

section Put

variable {l : ℕ} {v : Mem} {es : List DirEntry} (hok : fs.InodeOk d use ino inode)
  (h0 : fs.mapOf d inode l ≠ 0)
include hok h0

theorem InodeOk.put_of_ne {x : ℕ} (hx : x ≠ l) (hx0 : fs.mapOf d inode x ≠ 0) :
    Function.update d (fs.mapOf d inode l) v (fs.mapOf d inode x) = d (fs.mapOf d inode x) := by
  refine Function.update_of_ne (fun heq => hx ?_) _ _
  have hux := hok.use_mapOf hx0
  rw [heq, hok.use_mapOf h0] at hux
  exact (BlockUse.data.inj hux).2.symm

variable (hes : Tiles (v.slice 0 fs.blockSize) fs.blockSize 0 es)
include hes

theorem InodeOk.dirEntries_put (hl : l < fs.dirBlocks inode) :
    ∃ A B, A = (List.range l).flatMap (fs.entriesAt d inode) ∧
      fs.dirEntries d inode = A ++ fs.blockEntries (d (fs.mapOf d inode l)) ++ B ∧
      fs.dirEntries (Function.update d (fs.mapOf d inode l) v) inode = A ++ liveEntries es ++ B := by
  have hmap : ∀ x, fs.mapOf (Function.update d (fs.mapOf d inode l) v) inode x = fs.mapOf d inode x :=
    fun x => hok.mapOf_put (hok.use_mapOf h0) x
  obtain ⟨A, B, hpre, hA, hB⟩ := dirEntries_split d (Function.update d (fs.mapOf d inode l) v) hl
    fun x hx => by
      rw [entriesAt, hmap, entriesAt]
      split_ifs with hx0
      · rfl
      · rw [hok.put_of_ne h0 hx hx0]
  refine ⟨A, B, hpre, ?_, ?_⟩
  · rw [hA, entriesAt, if_neg h0]
  · rw [hB, entriesAt, hmap, if_neg h0, Function.update_self, blockEntries_of_tiles hes]

theorem InodeOk.dirOk_put (hdir : fs.DirOk d inode) :
    fs.DirOk (Function.update d (fs.mapOf d inode l) v) inode := by
  have hmap : ∀ x, fs.mapOf (Function.update d (fs.mapOf d inode l) v) inode x = fs.mapOf d inode x :=
    fun x => hok.mapOf_put (hok.use_mapOf h0) x
  refine ⟨hdir.whole, fun x hx hx0 => ?_⟩
  rw [hmap] at hx0 ⊢
  by_cases hxl : x = l
  · rw [hxl, Function.update_self]
    exact ⟨es, hes⟩
  · rw [hok.put_of_ne h0 hxl hx0]
    exact hdir.tiled x hx hx0

end Put

/-! ## The loops -/

section Loops

variable {s : Ext4Store} {dir : Ext4Node} {name : List UInt8}

theorem inodeSizeOf_lt (inode : Mem) : inodeSizeOf inode < 2 ^ 32 := Nat.mod_lt _ (by norm_num)

theorem DirOk.next_offset (h : fs.DirOk d inode) (hl : l < fs.dirBlocks inode) :
    (l * fs.blockSize + fs.blockSize) % 2 ^ 32 = (l + 1) * fs.blockSize := by
  have hsize : fs.dirBlocks inode * fs.blockSize = inodeSizeOf inode := Nat.div_mul_cancel h.whole
  have hle : (l + 1) * fs.blockSize ≤ fs.dirBlocks inode * fs.blockSize := Nat.mul_le_mul_right _ hl
  have hlt := inodeSizeOf_lt inode
  have hsum : l * fs.blockSize + fs.blockSize = (l + 1) * fs.blockSize := (Nat.succ_mul _ _).symm
  rw [hsum, Nat.mod_eq_of_lt (by omega)]

theorem DirOk.offset_lt (h : fs.DirOk d inode) (hbs : 0 < fs.blockSize) :
    inodeSizeOf inode ≤ l * fs.blockSize ↔ fs.dirBlocks inode ≤ l := by
  rw [← Nat.div_mul_cancel h.whole, ← dirBlocks]
  exact Nat.mul_le_mul_right_iff hbs

/-- The loop of `unlink` from block `l` on: the name is not there, or it has been removed where it
comes first. -/
inductive LoopUnlinks (fs : Ext4) (s : Ext4Store) (inode : Mem) (name : List UInt8) (l : ℕ) :
    Option (Option ℕ × Ext4Store) → Prop
  | absent (hnone : ∀ x, l ≤ x → x < fs.dirBlocks inode → ∀ e ∈ fs.entriesAt s.disk inode x, e.1 ≠ name) :
      LoopUnlinks fs s inode name l (some (none, s))
  | removed {x : ℕ} {es : List DirEntry} {q : ℕ} {prev : Option ℕ} {pre : List DirEntry} {e : DirEntry}
      {post : List DirEntry} (hx : x < fs.dirBlocks inode) (h0 : fs.mapOf s.disk inode x ≠ 0)
      (hhit : Tiles.Hit ((s.disk (fs.mapOf s.disk inode x)).slice 0 fs.blockSize) fs.blockSize 0 name
        none es q prev pre e post)
      (hbefore : ∀ y, l ≤ y → y < x → ∀ e ∈ fs.entriesAt s.disk inode y, e.1 ≠ name) :
      LoopUnlinks fs s inode name l (some (some e.inode, s.put (fs.mapOf s.disk inode x)
        (removeEntry ((s.disk (fs.mapOf s.disk inode x)).slice 0 fs.blockSize) q prev)))

theorem LoopUnlinks.skip {r : Option (Option ℕ × Ext4Store)}
    (h : LoopUnlinks fs s inode name (l + 1) r) (hl : ∀ e ∈ fs.entriesAt s.disk inode l, e.1 ≠ name) :
    LoopUnlinks fs s inode name l r := by
  have hskip : ∀ {x}, (∀ y, l + 1 ≤ y → y < x → ∀ e ∈ fs.entriesAt s.disk inode y, e.1 ≠ name) →
      ∀ y, l ≤ y → y < x → ∀ e ∈ fs.entriesAt s.disk inode y, e.1 ≠ name := by
    intro x hx y hy hyx
    rcases Nat.eq_or_lt_of_le hy with rfl | hy
    · exact hl
    · exact hx y hy hyx
  cases h with
  | absent hnone => exact .absent (hskip hnone)
  | removed hx h0 hhit hbefore => exact .removed hx h0 hhit (hskip hbefore)

/-- **Block by block**: what a loop gives after the last of `n` blocks, and before a block when it gives it
after that block, it gives from the start. -/
theorem blocks_induction {n : ℕ} {P : ℕ → ℕ → ℕ → Prop} (hend : ∀ fuel, P 0 n (fuel + 1))
    (hstep : ∀ k l fuel, l + k + 1 = n → P k (l + 1) fuel → P (k + 1) l (fuel + 1)) (hfuel : n < fuel) :
    P n 0 fuel := by
  have hall : ∀ k l fuel, l + k = n → k < fuel → P k l fuel := by
    intro k
    induction k with
    | zero =>
      rintro l (_ | fuel) rfl h
      · exact absurd h (lt_irrefl 0)
      · exact hend fuel
    | succ k ih =>
      rintro l (_ | fuel) hl h
      · exact absurd h (Nat.not_lt_zero _)
      · exact hstep k l fuel hl (ih (l + 1) fuel (by omega) (Nat.lt_of_succ_lt_succ h))
  exact hall n 0 fuel (Nat.zero_add n) hfuel

theorem dirBlocks_lt (fs : Ext4) (hsize : dir.size = inodeSizeOf dir.inode) :
    fs.dirBlocks dir.inode < dir.size + 1 := by
  rw [hsize]
  exact Nat.lt_succ_of_le (Nat.div_le_self _ _)

variable (hbs : 0 < fs.blockSize) (hget : fs.MapReads s dir.inode)
  (hdir : fs.DirOk s.disk dir.inode) (hsize : dir.size = inodeSizeOf dir.inode)
include hbs hget hdir hsize

theorem exec_finddirLoop : (fs.finddirLoop dir name (dir.size + 1) 0).exec s =
    some ((fs.dirEntries s.disk dir.inode).lookup name, s) := by
  have h := blocks_induction (P := fun k l fuel =>
    (fs.finddirLoop dir name fuel (l * fs.blockSize)).exec s =
      some (((List.range' l k).flatMap (fs.entriesAt s.disk dir.inode)).lookup name, s))
    (fun fuel => ?_) (fun k l fuel hl hnext => ?_) (fs.dirBlocks_lt hsize)
  · rw [Nat.zero_mul] at h
    rw [h, dirEntries, range_eq_range']
  · rw [finddirLoop, if_pos (by rw [hsize, hdir.offset_lt hbs])]
    rfl
  have hlt : l < fs.dirBlocks dir.inode := by omega
  rw [finddirLoop, if_neg (by rw [hsize, hdir.offset_lt hbs]; omega), Nat.mul_div_cancel l hbs,
    exec_bind, hget, bind_some, List.range'_succ, flatMap_cons,
    lookup_append, entriesAt]
  by_cases h0 : fs.mapOf s.disk dir.inode l = 0
  · rw [if_pos h0, if_pos h0, hdir.next_offset hlt, hnext]
    rfl
  obtain ⟨es, hes⟩ := hdir.tiled l hlt h0
  have hoff : l * fs.blockSize < 2 ^ 32 := by
    have hend := mt (hdir.offset_lt hbs (l := l)).mp (not_le.mpr hlt)
    exact (not_le.mp hend).trans (inodeSizeOf_lt _)
  rw [if_neg h0, if_neg h0, exec_bind, exec_readBlock, bind_some,
    hes.scanBlock_eq (by omega) hoff, blockEntries_of_tiles hes]
  cases (liveEntries es).lookup name with
  | some ino => rfl
  | none =>
    rwa [Nat.sub_zero, hdir.next_offset hlt]

theorem exec_finddir : (fs.finddir dir name).exec s =
    some (((fs.dirEntries s.disk dir.inode).lookup name).map fun ino =>
      ⟨isDirectoryMode (fs.inodeOf s.disk ino), ino, fs.inodeOf s.disk ino,
        inodeSizeOf (fs.inodeOf s.disk ino)⟩, s) := by
  rw [finddir, exec_bind, exec_finddirLoop hbs hget hdir hsize, bind_some]
  cases (fs.dirEntries s.disk dir.inode).lookup name <;> rfl

theorem exec_findFreeEntrySpace (required : ℕ) :
    (fs.findFreeEntrySpace dir required (dir.size + 1) 0).exec s =
      some (fs.freeSpace s.disk dir.inode required, s) := by
  have h := blocks_induction (P := fun k l fuel =>
    (fs.findFreeEntrySpace dir required fuel (l * fs.blockSize)).exec s =
      some ((List.range' l k).findSome? (fs.spaceAt s.disk dir.inode required), s))
    (fun fuel => ?_) (fun k l fuel hl hnext => ?_) (fs.dirBlocks_lt hsize)
  · rw [Nat.zero_mul] at h
    rw [h, freeSpace, range_eq_range']
  · rw [findFreeEntrySpace, if_pos (by rw [hsize, hdir.offset_lt hbs])]
    rfl
  have hlt : l < fs.dirBlocks dir.inode := by omega
  rw [findFreeEntrySpace, if_neg (by rw [hsize, hdir.offset_lt hbs]; omega), Nat.mul_div_cancel l hbs,
    exec_bind, hget, bind_some, List.range'_succ, findSome?_cons,
    spaceAt]
  by_cases h0 : fs.mapOf s.disk dir.inode l = 0
  · rwa [if_pos h0, if_pos h0, hdir.next_offset hlt]
  rw [if_neg h0, if_neg h0, exec_bind, exec_readBlock, bind_some]
  cases scanSpace ((s.disk (fs.mapOf s.disk dir.inode l)).slice 0 fs.blockSize) fs.blockSize
    required fs.blockSize 0 with
  | none =>
    rwa [hdir.next_offset hlt]
  | some p => rfl

theorem exec_unlinkLoop (name : List UInt8) :
    LoopUnlinks fs s dir.inode name 0 ((fs.unlinkLoop dir name (dir.size + 1) 0).exec s) := by
  have h := blocks_induction (P := fun _ l fuel =>
    LoopUnlinks fs s dir.inode name l ((fs.unlinkLoop dir name fuel (l * fs.blockSize)).exec s))
    (fun fuel => ?_) (fun k l fuel hl hnext => ?_) (fs.dirBlocks_lt hsize)
  · rwa [Nat.zero_mul] at h
  · rw [unlinkLoop, if_pos (by rw [hsize, hdir.offset_lt hbs])]
    exact .absent fun x h1 h2 => absurd h2 (not_lt.mpr h1)
  have hlt : l < fs.dirBlocks dir.inode := by omega
  rw [unlinkLoop, if_neg (by rw [hsize, hdir.offset_lt hbs]; omega), Nat.mul_div_cancel l hbs,
    exec_bind, hget, bind_some]
  by_cases h0 : fs.mapOf s.disk dir.inode l = 0
  · rw [if_pos h0, hdir.next_offset hlt]
    refine hnext.skip fun e he => ?_
    rw [entriesAt, if_pos h0] at he
    exact absurd he not_mem_nil
  obtain ⟨es, hes⟩ := hdir.tiled l hlt h0
  have hscan := hes.scanEntry_eq (show fs.blockSize ≤ 0 + fs.blockSize by omega) name none
  rw [if_neg h0, exec_bind, exec_readBlock, bind_some]
  cases hfound : scanEntry ((s.disk (fs.mapOf s.disk dir.inode l)).slice 0 fs.blockSize) fs.blockSize
    name fs.blockSize 0 none with
  | none =>
    rw [hfound] at hscan
    rw [hdir.next_offset hlt]
    refine hnext.skip ?_
    rw [entriesAt, if_neg h0, blockEntries_of_tiles hes]
    exact forall_mem_liveEntries.mpr hscan
  | some r =>
    obtain ⟨q, prev⟩ := r
    rw [hfound] at hscan
    obtain ⟨pre, e, post, hhit⟩ := hscan
    have hino : deInode ((s.disk (fs.mapOf s.disk dir.inode l)).slice 0 fs.blockSize) q = e.inode := by
      rw [← hhit.after.head.1]
      rfl
    have hfirst := LoopUnlinks.removed hlt h0 hhit fun y h1 h2 => absurd h2 (not_lt.mpr h1)
    rwa [← hino] at hfirst

end Loops

end Ext4

end KeonOS
