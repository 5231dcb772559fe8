import KeonOS.Lib.WriteOrder
import KeonOS.Ext4.MakeDir
import KeonOS.Ext4.Commit

/-!
# The calls on directories and the journal

Whether what `Ext4Directory::create`, `mkdir` or `unlink` logs reaches the disk in one transaction. The
commit writes each block to its place right after its entry in the journal, before the commit block, so
that this is so only for the calls that log nothing.

* **`Ext4.journal_atomic_iff`**: when the blocks of a call are in one transaction.
-/

namespace KeonOS

open Option

namespace Ext4

open BlockM

variable (fs : Ext4)

/-! ## The search of a directory -/

def blockOf (d : ℕ → Mem) (inode : Mem) (l : ℕ) : Option ℕ :=
  ((fs.extentGetBlock inode l).exec ⟨d, []⟩).map Prod.fst

/-- The loop over the blocks of a directory: the block in which `scan` finds something. -/
def searchBlocks {α : Type} (scan : Mem → Option α) (d : ℕ → Mem) (dir : Ext4Node) :
    ℕ → ℕ → Option (ℕ × α)
  | 0, _ => none
  | fuel + 1, offset =>
    if dir.size ≤ offset then none
    else
      (fs.blockOf d dir.inode (offset / fs.blockSize)).bind fun physical =>
        if physical = 0 then searchBlocks scan d dir fuel ((offset + fs.blockSize) % 2 ^ 32)
        else
          match scan ((d physical).slice 0 fs.blockSize) with
          | some x => some (physical, x)
          | none => searchBlocks scan d dir fuel ((offset + fs.blockSize) % 2 ^ 32)

/-- The inner loop finds something in block number `l` of the directory. -/
def BlockHas {α : Type} (scan : Mem → Option α) (d : ℕ → Mem) (dir : Ext4Node) (l : ℕ) : Prop :=
  ∃ physical, fs.blockOf d dir.inode l = some physical ∧ physical ≠ 0 ∧
    ∃ x, scan ((d physical).slice 0 fs.blockSize) = some x

/-- Block number `l` is a hole, or the inner loop finds nothing in it. -/
def BlockLacks {α : Type} (scan : Mem → Option α) (d : ℕ → Mem) (dir : Ext4Node) (l : ℕ) : Prop :=
  ∃ physical, fs.blockOf d dir.inode l = some physical ∧
    (physical = 0 ∨ scan ((d physical).slice 0 fs.blockSize) = none)

/-- The search finds something in a block of the directory. -/
def SearchFinds {α : Type} (scan : Mem → Option α) (d : ℕ → Mem) (dir : Ext4Node) : Prop :=
  ∃ l, l * fs.blockSize < dir.size ∧ fs.BlockHas scan d dir l ∧ ∀ k < l, fs.BlockLacks scan d dir k

variable {fs} {α : Type} {scan : Mem → Option α} {d : ℕ → Mem} {dir : Ext4Node}

variable {fuel offset l : ℕ}

theorem searchBlocks_of_has (hlt : offset < dir.size)
    (h : fs.BlockHas scan d dir (offset / fs.blockSize)) :
    fs.searchBlocks scan d dir (fuel + 1) offset ≠ none := by
  obtain ⟨physical, hp, hne, x, hx⟩ := h
  rw [searchBlocks, if_neg (not_le.mpr hlt), hp, bind_some, if_neg hne, hx]
  exact some_ne_none _

theorem searchBlocks_of_lacks (hlt : offset < dir.size)
    (h : fs.BlockLacks scan d dir (offset / fs.blockSize)) :
    fs.searchBlocks scan d dir (fuel + 1) offset =
      fs.searchBlocks scan d dir fuel ((offset + fs.blockSize) % 2 ^ 32) := by
  obtain ⟨physical, hp, hnone⟩ := h
  rw [searchBlocks, if_neg (not_le.mpr hlt), hp, bind_some]
  split_ifs with hzero
  · rfl
  · rw [hnone.resolve_left hzero]

theorem exists_has_of_searchBlocks (h : fs.searchBlocks scan d dir fuel offset ≠ none) :
    ∃ l, l * fs.blockSize < dir.size ∧ fs.BlockHas scan d dir l := by
  induction fuel generalizing offset with
  | zero => exact absurd rfl h
  | succ fuel ih =>
    by_cases hlt : offset < dir.size
    · cases hp : fs.blockOf d dir.inode (offset / fs.blockSize) with
      | none =>
        rw [searchBlocks, if_neg (not_le.mpr hlt), hp] at h
        exact absurd rfl h
      | some physical =>
        by_cases hlacks : physical = 0 ∨ scan ((d physical).slice 0 fs.blockSize) = none
        · rw [searchBlocks_of_lacks hlt ⟨physical, hp, hlacks⟩] at h
          exact ih h
        · obtain ⟨hne, hsome⟩ := not_or.mp hlacks
          exact ⟨offset / fs.blockSize, (Nat.div_mul_le_self _ _).trans_lt hlt, physical, hp, hne,
            ne_none_iff_exists'.mp hsome⟩
    · rw [searchBlocks, if_pos (not_lt.mp hlt)] at h
      exact absurd rfl h

theorem BlockHas.not_lacks (h : fs.BlockHas scan d dir l) : ¬fs.BlockLacks scan d dir l := by
  obtain ⟨physical, hp, hne, x, hx⟩ := h
  rintro ⟨physical', hp', hor⟩
  rw [hp] at hp'
  cases hp'
  rcases hor with hzero | hnone
  · exact hne hzero
  · rw [hx] at hnone
    cases hnone

theorem searchBlocks_iff (hb : 0 < fs.blockSize) (hsize : dir.size < 2 ^ 32)
    (hfuel : dir.size < fuel + l * fs.blockSize) (hbefore : ∀ k < l, fs.BlockLacks scan d dir k) :
    fs.searchBlocks scan d dir fuel (l * fs.blockSize) ≠ none ↔ fs.SearchFinds scan d dir := by
  induction fuel generalizing l with
  | zero =>
    refine iff_of_false (fun h => h rfl) ?_
    rintro ⟨k, hk, hhas, -⟩
    refine hhas.not_lacks (hbefore k ?_)
    by_contra hle
    have := Nat.mul_le_mul_right fs.blockSize (not_lt.mp hle)
    omega
  | succ fuel ih =>
    by_cases hlt : l * fs.blockSize < dir.size
    · have hdiv : l * fs.blockSize / fs.blockSize = l := Nat.mul_div_cancel l hb
      by_cases hhas : fs.BlockHas scan d dir l
      · exact iff_of_true (searchBlocks_of_has hlt (hdiv.symm ▸ hhas)) ⟨l, hlt, hhas, hbefore⟩
      by_cases hlacks : fs.BlockLacks scan d dir l
      · rw [searchBlocks_of_lacks hlt (hdiv.symm ▸ hlacks)]
        have hnext : ∀ k < l + 1, fs.BlockLacks scan d dir k := by
          intro k hk
          rcases Nat.lt_succ_iff_lt_or_eq.mp hk with hk | rfl
          · exact hbefore k hk
          · exact hlacks
        have hsucc : l * fs.blockSize + fs.blockSize = (l + 1) * fs.blockSize := (Nat.succ_mul _ _).symm
        by_cases hwrap : l * fs.blockSize + fs.blockSize < 2 ^ 32
        · rw [Nat.mod_eq_of_lt hwrap, hsucc]
          exact ih (by omega) hnext
        -- the last block is behind; the loop starts again, and finds nothing in the same blocks
        have hall : ∀ k, k * fs.blockSize < dir.size → fs.BlockLacks scan d dir k := by
          intro k hk
          refine hnext k ?_
          by_contra hle
          have := Nat.mul_le_mul_right fs.blockSize (not_lt.mp hle)
          omega
        refine iff_of_false (fun h => ?_) ?_
        · obtain ⟨k, hk, hk'⟩ := exists_has_of_searchBlocks h
          exact hk'.not_lacks (hall k hk)
        · rintro ⟨k, hk, hk', -⟩
          exact hk'.not_lacks (hall k hk)
      · -- the lookup of the block does not end
        have hnone : fs.blockOf d dir.inode l = none := by
          cases hp : fs.blockOf d dir.inode l with
          | none => rfl
          | some physical =>
            refine absurd ⟨physical, hp, ?_⟩ hlacks
            by_contra hor
            obtain ⟨hne, hsome⟩ := not_or.mp hor
            exact hhas ⟨physical, hp, hne, ne_none_iff_exists'.mp hsome⟩
        refine iff_of_false (fun h => h ?_) ?_
        · rw [searchBlocks, if_neg (not_le.mpr hlt), hdiv, hnone, bind_none]
        rintro ⟨k, -, hk, hk'⟩
        rcases lt_trichotomy k l with hkl | rfl | hkl
        · exact hk.not_lacks (hbefore k hkl)
        · exact hhas hk
        · exact hlacks (hk' l hkl)
    · refine iff_of_false (fun h => h ?_) ?_
      · rw [searchBlocks, if_pos (not_lt.mp hlt)]
      rintro ⟨k, hk, hhas, -⟩
      refine hhas.not_lacks (hbefore k ?_)
      by_contra hle
      have := Nat.mul_le_mul_right fs.blockSize (not_lt.mp hle)
      omega

/-! ## What the calls log -/

section Logged

variable (w : Wal ℕ Mem Jbd2) (s : Journaled ℕ Mem Ext4Event Jbd2)

theorem readOnly_readBlock (b : ℕ) : (fs.readBlock b).ReadOnly := fun _ => trivial

theorem readOnly_extentWalk (l : ℕ) : ∀ (fuel : ℕ) (m : Mem) (a depth : ℕ),
    (fs.extentWalk l fuel m a depth).ReadOnly
  | 0, _, _, _ => trivial
  | fuel + 1, m, a, depth => by
    rw [extentWalk]
    split_ifs
    · trivial
    cases findIndex m a l with
    | none => trivial
    | some next =>
      refine (readOnly_readBlock next).bind fun node => ?_
      split_ifs
      · trivial
      · exact readOnly_extentWalk l fuel node 0 _

theorem readOnly_extentGetBlock (inode : Mem) (l : ℕ) : (fs.extentGetBlock inode l).ReadOnly := by
  rw [extentGetBlock]
  split_ifs
  · trivial
  · exact readOnly_extentWalk _ _ _ _ _
  · trivial

theorem readOnly_findFreeEntrySpace (required : ℕ) : ∀ fuel offset : ℕ,
    (fs.findFreeEntrySpace dir required fuel offset).ReadOnly
  | 0, _ => trivial
  | fuel + 1, offset => by
    rw [findFreeEntrySpace]
    split_ifs
    · trivial
    refine (readOnly_extentGetBlock _ _).bind fun physical => ?_
    split_ifs
    · exact readOnly_findFreeEntrySpace required fuel _
    · refine (readOnly_readBlock _).bind fun buffer => ?_
      cases scanSpace buffer fs.blockSize required fs.blockSize 0 with
      | none => exact readOnly_findFreeEntrySpace required fuel _
      | some p => trivial

theorem exec_findFreeEntrySpace_eq (required fuel offset : ℕ) :
    ((fs.findFreeEntrySpace dir required fuel offset).exec ⟨d, []⟩).bind Prod.fst =
      fs.searchBlocks (scanSpace · fs.blockSize required fs.blockSize 0) d dir fuel offset := by
  induction fuel generalizing offset with
  | zero => rfl
  | succ fuel ih =>
    rw [findFreeEntrySpace, searchBlocks]
    split_ifs with hsize
    · rfl
    rw [exec_bind, blockOf]
    cases hr : (fs.extentGetBlock dir.inode (offset / fs.blockSize)).exec ⟨d, []⟩ with
    | none => rfl
    | some r =>
      obtain ⟨physical, st⟩ := r
      obtain rfl : st = ⟨d, []⟩ := extentGetBlock_state hr
      simp only [bind_some, map_some]
      split_ifs with hzero
      · exact ih _
      · rw [exec_bind, exec_readBlock, bind_some]
        cases scanSpace ((d physical).slice 0 fs.blockSize) fs.blockSize required fs.blockSize 0 with
        | none => exact ih _
        | some p => rfl

theorem logged_unlinkLoop (name : List UInt8) (fuel offset : ℕ) :
    (fs.unlinkLoop dir name fuel offset).logged w s = [] ↔
      fs.searchBlocks (scanEntry · fs.blockSize name fs.blockSize 0 none) s.store.disk dir fuel offset =
        none := by
  induction fuel generalizing offset with
  | zero => exact iff_of_true rfl rfl
  | succ fuel ih =>
    rw [unlinkLoop, searchBlocks]
    split_ifs with hsize
    · exact iff_of_true rfl rfl
    rw [(readOnly_extentGetBlock _ _).logged_bind, blockOf]
    cases (fs.extentGetBlock dir.inode (offset / fs.blockSize)).exec ⟨s.store.disk, []⟩ with
    | none => exact iff_of_true rfl rfl
    | some r =>
      simp only [map_some, elim_some, bind_some]
      split_ifs with hzero
      · exact ih _
      rw [(readOnly_readBlock _).logged_bind, exec_readBlock, map_some, elim_some]
      cases scanEntry ((s.store.disk r.1).slice 0 fs.blockSize) fs.blockSize name fs.blockSize 0
        none with
      | none => exact ih _
      | some x => exact iff_of_false (logged_writeLogged _ _ _ _) (some_ne_none _)

theorem logged_allocateInodeFrom (isDirectory : Bool) (n g : ℕ) :
    (fs.allocateInodeFrom isDirectory n g).logged w s = [] ↔
      findBit fs s.store.disk bgFreeInodesCount (fs.inodeBitmapOf s.store.disk) fs.inodesPerGroup n g =
        none := by
  induction n generalizing g with
  | zero => exact iff_of_true rfl rfl
  | succ n ih =>
    have hdesc : (fs.readGroupDesc g).ReadOnly := fun _ => trivial
    rw [findBit, allocateInodeFrom, hdesc.logged_bind, exec_readGroupDesc, map_some, elim_some]
    by_cases hcount : 0 < (fs.descOf s.store.disk g).readLE bgFreeInodesCount 2
    · rw [if_pos hcount, if_pos hcount, (readOnly_readBlock _).logged_bind, exec_readBlock,
        map_some, elim_some, descOf, getInodeBitmap_slice]
      cases firstBelow fs.inodesPerGroup fun i =>
        !((s.store.disk (fs.inodeBitmapOf s.store.disk g)).slice 0 fs.blockSize).bit i with
      | none => exact ih (g + 1)
      | some i => exact iff_of_false (logged_writeLogged _ _ _ _) (some_ne_none _)
    · rw [if_neg hcount, if_neg hcount]
      exact ih (g + 1)

variable {w s}

theorem execJ_allocateInodeFrom (isDirectory : Bool) {n g : ℕ}
    (h : findBit fs s.store.disk bgFreeInodesCount (fs.inodeBitmapOf s.store.disk) fs.inodesPerGroup n
      g = none) : (fs.allocateInodeFrom isDirectory n g).execJ w s = some (0, s) := by
  induction n generalizing g with
  | zero => rfl
  | succ n ih =>
    have hdesc : (fs.readGroupDesc g).ReadOnly := fun _ => trivial
    rw [findBit] at h
    rw [allocateInodeFrom, execJ_bind, hdesc.execJ_eq, exec_readGroupDesc, map_some, bind_some]
    by_cases hcount : 0 < (fs.descOf s.store.disk g).readLE bgFreeInodesCount 2
    · rw [if_pos hcount, execJ_bind, (readOnly_readBlock _).execJ_eq, exec_readBlock, map_some,
        bind_some, descOf, getInodeBitmap_slice]
      rw [if_pos hcount] at h
      cases hi : firstBelow fs.inodesPerGroup fun i =>
        !((s.store.disk (fs.inodeBitmapOf s.store.disk g)).slice 0 fs.blockSize).bit i with
      | none =>
        rw [hi] at h
        exact ih h
      | some i =>
        rw [hi] at h
        cases h
    · rw [if_neg hcount]
      rw [if_neg hcount] at h
      exact ih h

theorem execJ_unlinkLoop {name : List UInt8}
    (h : fs.searchBlocks (scanEntry · fs.blockSize name fs.blockSize 0 none) s.store.disk dir fuel
      offset = none) {r : Option ℕ × Journaled ℕ Mem Ext4Event Jbd2}
    (hr : (fs.unlinkLoop dir name fuel offset).execJ w s = some r) : r.1 = none := by
  induction fuel generalizing offset with
  | zero => cases hr
  | succ fuel ih =>
    rw [searchBlocks] at h
    rw [unlinkLoop] at hr
    split_ifs at h hr with hsize
    · cases hr
      rfl
    rw [execJ_bind, (readOnly_extentGetBlock _ _).execJ_eq] at hr
    rw [blockOf] at h
    cases hb : (fs.extentGetBlock dir.inode (offset / fs.blockSize)).exec ⟨s.store.disk, []⟩ with
    | none =>
      rw [hb] at hr
      cases hr
    | some x =>
      rw [hb] at h hr
      simp only [map_some, bind_some] at h hr
      split_ifs at h hr with hzero
      · exact ih h hr
      rw [execJ_bind, (readOnly_readBlock _).execJ_eq, exec_readBlock, map_some, bind_some] at hr
      cases hscan : scanEntry ((s.store.disk x.1).slice 0 fs.blockSize) fs.blockSize name
        fs.blockSize 0 none with
      | none =>
        rw [hscan] at h hr
        exact ih h hr
      | some y =>
        rw [hscan] at h
        cases h

end Logged

/-! ## The calls -/

inductive DirCall
  | create
  | mkdir
  | unlink
deriving DecidableEq, Repr

/-- A call on a directory, and the next commit, which is also that of a failed call. -/
def dirCall (fs : Ext4) (dir : Ext4Node) (name : List UInt8) : DirCall → Ext4M Unit
  | .create => do let _ ← fs.create dir name; BlockM.commitLog
  | .mkdir => do let _ ← fs.mkdir dir name; BlockM.commitLog
  | .unlink => do let _ ← fs.unlink dir name; BlockM.commitLog

def Logs (fs : Ext4) (d : ℕ → Mem) (dir : Ext4Node) (name : List UInt8) : DirCall → Prop
  | .create => fs.SearchFinds
      (scanSpace · fs.blockSize (entryLen (name.length % 256)) fs.blockSize 0) d dir ∧ fs.FreeInode d
  | .mkdir => fs.FreeInode d
  | .unlink => fs.SearchFinds (scanEntry · fs.blockSize name fs.blockSize 0 none) d dir

section Calls

variable {w : Wal ℕ Mem Jbd2} {s : Journaled ℕ Mem Ext4Event Jbd2} {name : List UInt8}

variable {γ : Type}

theorem logged_commitLog (p : Ext4M γ) :
    (do let _ ← p; BlockM.commitLog : Ext4M Unit).logged w s = p.logged w s := by
  have hcommit : ∀ s : Journaled ℕ Mem Ext4Event Jbd2,
      (BlockM.commitLog : Ext4M Unit).logged w s = [] := by
    intro s
    rw [BlockM.commitLog, logged]
    cases w.restart s <;> rfl
  rw [BlockM.logged_bind]
  cases p.execJ w s with
  | none => exact List.append_nil _
  | some r => rw [elim_some, hcommit, List.append_nil]

variable (hw : fs.WellFormed)
include hw

theorem logged_allocateInode_bind {isDirectory : Bool} {f : ℕ → Ext4M γ}
    (hzero : (f 0).logged w s = []) :
    (fs.allocateInode isDirectory >>= f).logged w s = [] ↔ ¬fs.FreeInode s.store.disk := by
  have hfind : findBit fs s.store.disk bgFreeInodesCount (fs.inodeBitmapOf s.store.disk)
      fs.inodesPerGroup fs.groupsCount 0 = none ↔ ¬fs.FreeInode s.store.disk :=
    findBit_eq_none_iff hw.inode_bitmap_fits
  refine Iff.trans ?_ hfind
  rw [BlockM.logged_bind, List.append_eq_nil_iff, allocateInode, logged_allocateInodeFrom]
  refine ⟨And.left, fun h => ⟨h, ?_⟩⟩
  rw [execJ_allocateInodeFrom _ h, elim_some, hzero]

theorem logged_mkdir : (fs.mkdir dir name).logged w s = [] ↔ ¬fs.FreeInode s.store.disk :=
  logged_allocateInode_bind hw rfl

variable (hsize : dir.size < 2 ^ 32)
include hsize

theorem searchFinds_iff {scan : Mem → Option α} {d : ℕ → Mem} :
    fs.searchBlocks scan d dir (dir.size + 1) 0 ≠ none ↔ fs.SearchFinds scan d dir := by
  have hb : 0 < fs.blockSize := lt_of_lt_of_le (by decide) hw.desc_fits
  have h : fs.searchBlocks scan d dir (dir.size + 1) (0 * fs.blockSize) ≠ none ↔
      fs.SearchFinds scan d dir :=
    searchBlocks_iff hb hsize (by omega) fun k hk => absurd hk (Nat.not_lt_zero k)
  rwa [Nat.zero_mul] at h

theorem logged_create : (fs.create dir name).logged w s = [] ↔
    ¬(fs.SearchFinds (scanSpace · fs.blockSize (entryLen (name.length % 256)) fs.blockSize 0)
      s.store.disk dir ∧ fs.FreeInode s.store.disk) := by
  rw [create, (readOnly_findFreeEntrySpace _ _ _).logged_bind, ← searchFinds_iff hw hsize,
    ← exec_findFreeEntrySpace_eq]
  cases (fs.findFreeEntrySpace dir (entryLen (name.length % 256)) (dir.size + 1) 0).exec
    ⟨s.store.disk, []⟩ with
  | none => exact iff_of_true rfl fun h => h.1 rfl
  | some r =>
    obtain ⟨_ | place, st⟩ := r
    · exact iff_of_true rfl fun h => h.1 rfl
    · refine (logged_allocateInode_bind hw rfl).trans (not_congr ?_)
      exact (and_iff_right (some_ne_none _)).symm

theorem logged_unlink : (fs.unlink dir name).logged w s = [] ↔
    ¬fs.SearchFinds (scanEntry · fs.blockSize name fs.blockSize 0 none) s.store.disk dir := by
  rw [← searchFinds_iff hw hsize, not_not, unlink, BlockM.logged_bind, List.append_eq_nil_iff,
    logged_unlinkLoop]
  refine ⟨And.left, fun h => ⟨h, ?_⟩⟩
  cases hr : (fs.unlinkLoop dir name (dir.size + 1) 0).execJ w s with
  | none => rfl
  | some r =>
    obtain ⟨o, s'⟩ := r
    obtain rfl : o = none := execJ_unlinkLoop h hr
    rfl

theorem logged_dirCall (c : DirCall) :
    (fs.dirCall dir name c).logged w s = [] ↔ ¬fs.Logs s.store.disk dir name c := by
  cases c with
  | create =>
    rw [dirCall, logged_commitLog]
    exact logged_create hw hsize
  | mkdir =>
    rw [dirCall, logged_commitLog]
    exact logged_mkdir hw
  | unlink =>
    rw [dirCall, logged_commitLog]
    exact logged_unlink hw hsize

end Calls

/-- **The blocks of a call are in one transaction exactly when the call logs none**: there is no room for
the entry or no free inode (`create`), no free inode (`mkdir`) or no such entry (`unlink`). -/
theorem journal_atomic_iff (hw : fs.WellFormed) (hsize : dir.size < 2 ^ 32) (jino : ℕ)
    (s : Journaled ℕ Mem Ext4Event Jbd2) (name : List UInt8) (c : DirCall) :
    OneTransaction Jbd2.currentSeq ((fs.dirCall dir name c).logged (fs.jbd2 jino) s)
        (((fs.dirCall dir name c).moments (fs.jbd2 jino) s).map Moment.write) ↔
      ¬fs.Logs s.store.disk dir name c := by
  rw [oneTransaction_iff]
  exact logged_dirCall hw hsize c

/-! ## Calls on the volume with a journal of 1024 blocks -/

def wideRoot : Ext4Node := ⟨true, 2, wide.inodeOf wideDisk 2, inodeSizeOf (wide.inodeOf wideDisk 2)⟩

theorem wide_wellFormed : wide.WellFormed := by
  constructor <;> decide

/-- There is no entry `z`, and nothing to log. -/
theorem journal_atomic_wide : ¬wide.Logs wideDisk wideRoot [0x7A] .unlink ∧
    OneTransaction Jbd2.currentSeq
      ((wide.dirCall wideRoot [0x7A] .unlink).logged (wide.jbd2 8) (wideLogged []))
      (((wide.dirCall wideRoot [0x7A] .unlink).moments (wide.jbd2 8) (wideLogged [])).map
        Moment.write) := by
  have hsize : wideRoot.size < 2 ^ 32 := by decide +kernel
  have hnone : (wide.searchBlocks (scanEntry · wide.blockSize [0x7A] wide.blockSize 0 none) wideDisk
      wideRoot (wideRoot.size + 1) 0).isNone = true := by
    decide +kernel
  have hlogs : ¬wide.Logs wideDisk wideRoot [0x7A] .unlink := fun h =>
    (searchFinds_iff wide_wellFormed hsize).mpr h (isNone_iff_eq_none.mp hnone)
  exact ⟨hlogs, (journal_atomic_iff wide_wellFormed hsize 8 (wideLogged []) [0x7A] .unlink).mpr hlogs⟩

/-- A write without the contents, and with the sequence number of the journal. -/
def writeShape : DiskWrite ℕ Mem Jbd2 → DiskWrite ℕ Unit ℕ
  | .block b _ => .block b ()
  | .descriptor j => .descriptor j.currentSeq
  | .data j b _ => .data j.currentSeq b ()
  | .commit j => .commit j.currentSeq

/-- **A file is made with 14 blocks in the log**: the bitmap of the inodes is in one transaction and the
entry in the next one, and each is written to its place before its commit block. -/
theorem create_not_atomic : wide.JournalReachable 8 (wideLogged (List.replicate 14 (10, fun _ => 0))) ∧
    ((wide.dirCall wideRoot [0x67] .create).logged (wide.jbd2 8)
      (wideLogged (List.replicate 14 (10, fun _ => 0)))).map Prod.fst = [4, 2, 9] ∧
    (((wide.dirCall wideRoot [0x67] .create).moments (wide.jbd2 8)
      (wideLogged (List.replicate 14 (10, fun _ => 0)))).map fun m => writeShape m.write).filter
        (fun x => x ≠ .data 2 10 () ∧ x ≠ .block 10 ()) =
      [.block 8 (), .descriptor 2, .data 2 4 (), .block 4 (), .data 2 2 (), .block 2 (), .commit 2,
        .descriptor 3, .data 3 9 (), .block 9 (), .commit 3] ∧
    ¬OneTransaction Jbd2.currentSeq ((wide.dirCall wideRoot [0x67] .create).logged (wide.jbd2 8)
        (wideLogged (List.replicate 14 (10, fun _ => 0))))
      (((wide.dirCall wideRoot [0x67] .create).moments (wide.jbd2 8)
        (wideLogged (List.replicate 14 (10, fun _ => 0)))).map Moment.write) := by
  have hlogged : ((wide.dirCall wideRoot [0x67] .create).logged (wide.jbd2 8)
      (wideLogged (List.replicate 14 (10, fun _ => 0)))).map Prod.fst = [4, 2, 9] := by
    decide +kernel
  refine ⟨wide_reachable _ (by decide), hlogged, by decide +kernel, ?_⟩
  rw [oneTransaction_iff]
  intro hnil
  rw [hnil] at hlogged
  cases hlogged

end Ext4

end KeonOS
