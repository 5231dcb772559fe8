import KeonOS.Ext4.Map
import KeonOS.Ext4.Returns

/-!
# Listing a directory

`readdir` of a well-formed directory: the call for index `i` gives the entry in use with that number, in
the order of the disk, and none after the last one. The names are those that `finddir` finds.

* `Tiles.scanIndex_eq`, `Ext4.exec_readdirLoop`, **`Ext4.exec_readdir`**: the loops of `readdir`;
* **`Ext4.listing_agrees_with_lookup`**: `readdir` and `finddir`.
-/

namespace KeonOS

open List

/-- The string in `vdirent.name`: 128 bytes, up to the terminator. -/
def Ext4Dirent.cName (e : Ext4Dirent) : List UInt8 := ((e.name ++ [0]).take 128).takeWhile (· ≠ 0)

theorem Ext4Dirent.cName_eq {e : Ext4Dirent} (hlen : e.name.length ≤ 127) (hzero : 0 ∉ e.name) :
    e.cName = e.name := by
  rw [cName, take_of_length_le (by simp; omega), takeWhile_append_of_pos]
  · simp
  · intro c hc
    exact decide_eq_true fun h => hzero (h ▸ hc)

/-! ## A block -/

def direntsFrom (m : Mem) (bs : ℕ) : ℕ → ℕ → List Ext4Dirent
  | 0, _ => []
  | fuel + 1, p =>
    if bs ≤ p then []
    else if deInode m p ≠ 0 then direntAt m p :: direntsFrom m bs fuel (p + deRecLen m p)
    else direntsFrom m bs fuel (p + deRecLen m p)

theorem direntsFrom_end {m : Mem} {bs fuel p : ℕ} (h : bs ≤ p) : direntsFrom m bs fuel p = [] := by
  cases fuel with
  | zero => rfl
  | succ fuel => rw [direntsFrom, if_pos h]

theorem map_direntsFrom (m : Mem) (bs fuel p : ℕ) :
    (direntsFrom m bs fuel p).map (fun e => (e.name, e.inode)) = liveEntries (entriesFrom m bs fuel p) := by
  induction fuel generalizing p with
  | zero => rfl
  | succ fuel ih =>
    rw [direntsFrom, entriesFrom]
    by_cases hend : bs ≤ p
    · rw [if_pos hend, if_pos hend]
      rfl
    rw [if_neg hend, if_neg hend, liveEntries_cons, liveEntries_singleton]
    by_cases hused : deInode m p = 0
    · rw [if_neg (not_not.mpr hused), ih, if_pos (show (readEntry m p).inode = 0 from hused), nil_append]
    · rw [if_pos hused, map_cons, ih, if_neg (show (readEntry m p).inode ≠ 0 from hused)]
      rfl

section Tiles

variable {m : Mem} {bs p : ℕ} {es : List DirEntry}

theorem Tiles.length_direntsFrom (h : Tiles m bs p es) (fuel : ℕ) :
    (direntsFrom m bs fuel p).length ≤ bs - p := by
  induction h generalizing fuel with
  | nil => rw [direntsFrom_end le_rfl]; exact Nat.zero_le _
  | @cons p e es hread hfits htail ih =>
    cases fuel with
    | zero => exact Nat.zero_le _
    | succ fuel =>
      have hle := htail.le
      have hpos := hfits.pos
      have hlen : deRecLen m p = e.recLen := by rw [← hread]; rfl
      have htail := ih fuel
      rw [direntsFrom, if_neg (by omega), hlen]
      split_ifs
      · rw [length_cons]
        omega
      · omega

theorem Tiles.scanIndex_eq (h : Tiles m bs p es) {fuel o c index size : ℕ} (hfuel : bs ≤ p + fuel)
    (ho : o + (bs - p) ≤ size) (hsize : size < 2 ^ 32) (hc : c ≤ index) (hindex : index < 2 ^ 32) :
    match (direntsFrom m bs fuel p)[index - c]? with
    | some e => ∃ q, scanIndex m bs size index fuel p o c = .inl q ∧ direntAt m q = e
    | none => scanIndex m bs size index fuel p o c =
        .inr (o + (bs - p), c + (direntsFrom m bs fuel p).length) := by
  induction h generalizing fuel o c with
  | nil =>
    rw [direntsFrom_end le_rfl, Ext4.scanIndex_stop (.inl le_rfl), Nat.sub_self]
    rfl
  | @cons p e es hread hfits htail ih =>
    have hle := htail.le
    have hpos := hfits.pos
    have hlen : deRecLen m p = e.recLen := by rw [← hread]; rfl
    obtain ⟨fuel, rfl⟩ : ∃ k, fuel = k + 1 := Nat.exists_eq_succ_of_ne_zero (by omega)
    rw [direntsFrom, scanIndex, if_neg (show ¬bs ≤ p by omega),
      if_neg (show ¬(bs ≤ p ∨ size ≤ o) by omega), hlen, if_neg hpos.ne',
      Nat.mod_eq_of_lt (show o + e.recLen < 2 ^ 32 by omega)]
    have hrest : o + e.recLen + (bs - (p + e.recLen)) = o + (bs - p) := by omega
    by_cases hused : deInode m p = 0
    · have htail := ih (o := o + e.recLen) (show bs ≤ p + e.recLen + fuel by omega) (by omega) hc
      rw [if_neg (not_not.mpr hused), if_neg fun h : deInode m p ≠ 0 ∧ c = index => h.1 hused,
        if_neg (not_not.mpr hused), ← hrest]
      exact htail
    rw [if_pos hused]
    by_cases hfound : c = index
    · -- this is the one
      subst hfound
      rw [if_pos ⟨hused, rfl⟩, Nat.sub_self]
      exact ⟨p, rfl, rfl⟩
    have htail := ih (o := o + e.recLen) (c := c + 1)
      (show bs ≤ p + e.recLen + fuel by omega) (by omega) (by omega)
    rw [if_neg fun h : _ ∧ _ => hfound h.2, if_pos hused, Nat.mod_eq_of_lt (by omega),
      show index - c = index - (c + 1) + 1 by omega, getElem?_cons_succ, length_cons,
      ← hrest, show c + ((direntsFrom m bs fuel (p + e.recLen)).length + 1) =
        c + 1 + (direntsFrom m bs fuel (p + e.recLen)).length by omega]
    exact htail

end Tiles

theorem lookup_eq_some_iff_mem {L : List (List UInt8 × ℕ)} (hL : (L.map Prod.fst).Nodup)
    {name : List UInt8} {ino : ℕ} : L.lookup name = some ino ↔ (name, ino) ∈ L := by
  induction L with
  | nil => simp
  | cons x L ih =>
    rw [map_cons, nodup_cons] at hL
    rw [lookup_cons, mem_cons]
    by_cases hx : name = x.1
    · subst hx
      have hnot : (x.1, ino) ∉ L := fun h =>
        hL.1 (List.mem_map.mpr ⟨_, h, rfl⟩)
      simp [hnot, Prod.ext_iff, eq_comm]
    · have hne : (name == x.1) = false := beq_eq_false_iff_ne.mpr hx
      simp only [hne, ih hL.2, Prod.ext_iff, hx, false_and, false_or]

/-! ## The directory -/

namespace Ext4

variable (fs : Ext4) (d : ℕ → Mem) (inode : Mem)

/-- The entries in use in logical block `l`; none in a hole. -/
def direntsAt (l : ℕ) : List Ext4Dirent :=
  if fs.mapOf d inode l = 0 then []
  else direntsFrom ((d (fs.mapOf d inode l)).slice 0 fs.blockSize) fs.blockSize fs.blockSize 0

/-- **The entries in use**, in the order of the disk. -/
def dirents : List Ext4Dirent := (List.range (fs.dirBlocks inode)).flatMap (fs.direntsAt d inode)

variable {fs d inode}

theorem map_direntsAt (l : ℕ) :
    (fs.direntsAt d inode l).map (fun e => (e.name, e.inode)) = fs.entriesAt d inode l := by
  rw [direntsAt, entriesAt]
  split_ifs
  · rfl
  · exact map_direntsFrom _ _ _ _

theorem map_dirents : (fs.dirents d inode).map (fun e => (e.name, e.inode)) = fs.dirEntries d inode := by
  rw [dirents, dirEntries, map_flatMap]
  exact flatMap_congr fun l _ => map_direntsAt l

theorem DirOk.length_direntsAt (h : fs.DirOk d inode) {l : ℕ} (hl : l < fs.dirBlocks inode) :
    (fs.direntsAt d inode l).length ≤ fs.blockSize := by
  rw [direntsAt]
  split_ifs with h0
  · exact Nat.zero_le _
  · obtain ⟨es, hes⟩ := h.tiled l hl h0
    exact hes.length_direntsFrom _

theorem DirOk.length_dirents (h : fs.DirOk d inode) : (fs.dirents d inode).length < 2 ^ 32 := by
  have hsum : ((List.range (fs.dirBlocks inode)).map fun l => (fs.direntsAt d inode l).length).sum ≤
      (List.range (fs.dirBlocks inode)).length * fs.blockSize := by
    refine (sum_le_card_nsmul _ fs.blockSize fun n hn => ?_).trans_eq ?_
    · obtain ⟨l, hl, rfl⟩ := List.mem_map.mp hn
      exact h.length_direntsAt (mem_range.mp hl)
    · rw [length_map, smul_eq_mul]
  rw [dirents, length_flatMap]
  rw [length_range, dirBlocks, Nat.div_mul_cancel h.whole] at hsum
  exact hsum.trans_lt (inodeSizeOf_lt inode)

section Loops

variable {s : Ext4Store} {dir : Ext4Node} (hbs : 0 < fs.blockSize) (hget : fs.MapReads s dir.inode)
  (hdir : fs.DirOk s.disk dir.inode) (hsize : dir.size = inodeSizeOf dir.inode)
include hbs hget hdir hsize

theorem exec_readdir {index : ℕ} (hindex : index < 2 ^ 32) :
    (fs.readdir dir index).exec s = some ((fs.dirents s.disk dir.inode)[index]?, s) := by
  have hle : fs.dirBlocks dir.inode < dir.size * 2 ^ 32 + 1 := by
    have hlt := fs.dirBlocks_lt hsize
    omega
  have h := blocks_induction (P := fun k l fuel => ∀ c ≤ index,
    (fs.readdirLoop dir index fuel (l * fs.blockSize) c).exec s =
      some (((List.range' l k).flatMap (fs.direntsAt s.disk dir.inode))[index - c]?, s))
    (fun fuel c hc => ?_) (fun k l fuel hl hnext c hc => ?_) hle
  · have h0 := h 0 (Nat.zero_le index)
    rw [Nat.zero_mul, Nat.sub_zero] at h0
    rw [readdir, h0, dirents, range_eq_range']
  · rw [readdirLoop, if_pos (by rw [hsize, hdir.offset_lt hbs])]
    rfl
  have hlt : l < fs.dirBlocks dir.inode := by omega
  rw [readdirLoop, if_neg (by rw [hsize, hdir.offset_lt hbs]; omega), Nat.mul_div_cancel l hbs,
    BlockM.exec_bind, hget, Option.bind_some, Nat.mul_mod_left, List.range'_succ,
    flatMap_cons, direntsAt]
  by_cases h0 : fs.mapOf s.disk dir.inode l = 0
  · rw [if_pos h0, if_pos h0, Nat.sub_zero, hdir.next_offset hlt, hnext c hc, nil_append]
  obtain ⟨es, hes⟩ := hdir.tiled l hlt h0
  have hend : l * fs.blockSize + (fs.blockSize - 0) ≤ dir.size := by
    rw [hsize, ← Nat.div_mul_cancel hdir.whole, ← dirBlocks, Nat.sub_zero, ← Nat.succ_mul]
    exact Nat.mul_le_mul_right _ hlt
  have hscan := hes.scanIndex_eq (show fs.blockSize ≤ 0 + fs.blockSize by omega) hend
    (hsize ▸ inodeSizeOf_lt _) hc hindex
  rw [if_neg h0, if_neg h0, BlockM.exec_bind, exec_readBlock, Option.bind_some]
  generalize direntsFrom _ _ _ _ = L at hscan ⊢
  cases hfound : L[index - c]? with
  | some e =>
    rw [hfound] at hscan
    obtain ⟨q, hq, rfl⟩ := hscan
    rw [hq, getElem?_append_left (List.getElem?_eq_some_iff.mp hfound).1, hfound]
    rfl
  | none =>
    have hle := getElem?_eq_none_iff.mp hfound
    rw [hfound] at hscan
    rw [hscan, getElem?_append_right hle, Nat.sub_zero, ← Nat.succ_mul, Nat.sub_sub]
    exact hnext _ (by omega)

end Loops

/-- **Listing and lookup agree** in a directory whose blocks are tiled by entries with different names of
1 to 127 characters: `readdir` gives the live entries in order, and `finddir` finds them. -/
theorem listing_agrees_with_lookup {s : Ext4Store} {dir : Ext4Node} (hbs : 0 < fs.blockSize)
    (hmagic : usesExtents dir.inode = true → ehMagic dir.inode iBlock = extentMagic)
    (hnodes : usesExtents dir.inode = true →
      fs.NodesOk s.disk (ehDepth dir.inode iBlock) dir.inode iBlock)
    (hdir : fs.DirOk s.disk dir.inode) (hsize : dir.size = inodeSizeOf dir.inode)
    (hnames : ∀ e ∈ fs.dirents s.disk dir.inode, 1 ≤ e.name.length ∧ e.name.length ≤ 127 ∧ 0 ∉ e.name)
    (hdistinct : ((fs.dirents s.disk dir.inode).map Ext4Dirent.name).Nodup) :
    (fs.dirents s.disk dir.inode).length < 2 ^ 32 ∧
    (∀ i < 2 ^ 32, (fs.readdir dir i).exec s = some ((fs.dirents s.disk dir.inode)[i]?, s)) ∧
    ∀ name, ∃ r, (fs.finddir dir name).exec s = some (r, s) ∧ ∀ ino, (∃ n, r = some n ∧ n.ino = ino) ↔
        ∃ e ∈ fs.dirents s.disk dir.inode, e.cName = name ∧ e.inode = ino := by
  have hget : fs.MapReads s dir.inode := fun _ => exec_extentGetBlock_of_nodes hmagic hnodes
  refine ⟨hdir.length_dirents, fun i hi => exec_readdir hbs hget hdir hsize hi, fun name =>
    ⟨_, exec_finddir hbs hget hdir hsize, fun ino => ?_⟩⟩
  have hkeys : ((fs.dirEntries s.disk dir.inode).map Prod.fst).Nodup := by
    rwa [← map_dirents, List.map_map]
  have hfound : (∃ n : Ext4Node, ((fs.dirEntries s.disk dir.inode).lookup name).map (fun ino =>
      (⟨isDirectoryMode (fs.inodeOf s.disk ino), ino, fs.inodeOf s.disk ino,
        inodeSizeOf (fs.inodeOf s.disk ino)⟩ : Ext4Node)) = some n ∧ n.ino = ino) ↔
      (fs.dirEntries s.disk dir.inode).lookup name = some ino := by
    cases (fs.dirEntries s.disk dir.inode).lookup name <;> simp
  rw [hfound, lookup_eq_some_iff_mem hkeys, ← map_dirents, List.mem_map]
  refine exists_congr fun e => and_congr_right fun he => ?_
  obtain ⟨-, hlen, hzero⟩ := hnames e he
  rw [Prod.mk.injEq, Ext4Dirent.cName_eq hlen hzero]

theorem small_dirents : small.dirents smallDisk smallRoot.inode =
    [⟨[0x2E], 2, true⟩, ⟨[0x2E, 0x2E], 2, true⟩, ⟨[0x66], 12, false⟩] := by
  decide +kernel

theorem listing_agrees_with_lookup_small : (small.readdir smallRoot 2).exec ⟨smallDisk, []⟩ =
        some (some ⟨[0x66], 12, false⟩, ⟨smallDisk, []⟩) ∧
      (small.readdir smallRoot 3).exec ⟨smallDisk, []⟩ = some (none, ⟨smallDisk, []⟩) ∧
      ∃ n, (small.finddir smallRoot [0x66]).exec ⟨smallDisk, []⟩ = some (some n, ⟨smallDisk, []⟩) ∧
        n.ino = 12 := by
  have hn := small_root
  obtain ⟨-, hlist, hfind⟩ := listing_agrees_with_lookup (s := ⟨smallDisk, []⟩)
    small_wellFormed.blockSize_pos hn.inode.magic (fun hu => (hn.inode.tree hu).nodesOk)
    (hn.dirOk small_volume rfl) hn.size (by rw [small_dirents]; decide) (by rw [small_dirents]; decide)
  rw [small_dirents] at hlist
  refine ⟨hlist 2 (by norm_num), hlist 3 (by norm_num), ?_⟩
  obtain ⟨r, hr, hiff⟩ := hfind [0x66]
  obtain ⟨n, rfl, hino⟩ := (hiff 12).mpr ⟨⟨[0x66], 12, false⟩, by rw [small_dirents]; simp, by decide, rfl⟩
  exact ⟨n, hr, hino⟩

end Ext4

end KeonOS
