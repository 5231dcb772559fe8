import KeonOS.Ext4.Layout
import KeonOS.Lib.Orbit

/-!
# Lookups that return

The loops of the driver that read what is on the disk, on every image. A walk through the extent tree
does not end when it comes back to an index block; the loops over a directory do not end when they come
back to an offset, which they do at a length of zero or when the offset wraps around.

* `Ext4.TreeEnds`, **`Ext4.extentGetBlock_ne_none_iff`**: the walk through the tree;
* **`Ext4.lookups_return_iff`**: all of them return.
-/

namespace KeonOS

open Option BlockM

namespace Ext4

variable (fs : Ext4)

/-! ## The extent tree -/

/-- The index block that is read after the block `b`. -/
def nextIndex (d : ℕ → Mem) (logical b : ℕ) : Option ℕ :=
  let node := (d b).slice 0 fs.blockSize
  if ehMagic node 0 = extentMagic ∧ ehDepth node 0 ≠ 0 then findIndex node 0 logical else none

def rootIndex (inode : Mem) (logical : ℕ) : Option ℕ :=
  if usesExtents inode ∧ ehMagic inode iBlock = extentMagic ∧ ehDepth inode iBlock ≠ 0 then
    findIndex inode iBlock logical
  else none

/-- On the way to `logical`, no index block is met twice. -/
def TreeEnds (d : ℕ → Mem) (inode : Mem) (logical : ℕ) : Prop :=
  ∀ root, rootIndex inode logical = some root → ∀ i j b, i < j →
    orbit (fs.nextIndex d logical) root i = some b → orbit (fs.nextIndex d logical) root j ≠ some b

variable {fs} {s : Ext4Store} {inode : Mem} {logical : ℕ}

variable {m : Mem} {a b c k o p bs fuel o' : ℕ} {r : ℕ × Ext4Store} {name : List UInt8}

theorem findIndex_lt (h : findIndex m a logical = some b) : b < 2 ^ 48 := by
  obtain ⟨k, -, rfl⟩ := map_eq_some_iff.mp h
  have hlo := Mem.readLE_lt m (entryAt a k + 4) 4
  have hhi := Mem.readLE_lt m (entryAt a k + 8) 2
  rw [eiLeaf]
  omega

theorem nextIndex_lt {d : ℕ → Mem} (h : fs.nextIndex d logical b = some c) : c < 2 ^ 48 := by
  simp only [nextIndex] at h
  split_ifs at h
  exact findIndex_lt h

def walkFrom (fs : Ext4) (logical k b : ℕ) : Ext4M ℕ := do
  let node ← fs.readBlock b
  if ehMagic node 0 ≠ extentMagic then pure 0
  else fs.extentWalk logical k node 0 (ehDepth node 0)

theorem exec_walkFrom (k b : ℕ) : (fs.walkFrom logical k b).exec s =
    if ehMagic ((s.disk b).slice 0 fs.blockSize) 0 = extentMagic then
      (fs.extentWalk logical k ((s.disk b).slice 0 fs.blockSize) 0
        (ehDepth ((s.disk b).slice 0 fs.blockSize) 0)).exec s
    else some (0, s) := by
  rw [walkFrom, exec_bind, exec_readBlock, bind_some]
  by_cases hmagic : ehMagic ((s.disk b).slice 0 fs.blockSize) 0 = extentMagic
  · rw [if_neg (not_not.mpr hmagic), if_pos hmagic]
  · rw [if_pos hmagic, if_neg hmagic]
    rfl

theorem exec_extentWalk_succ (k : ℕ) (m : Mem) (a depth : ℕ) :
    (fs.extentWalk logical (k + 1) m a depth).exec s =
      if depth = 0 then some ((findExtent m a logical).getD 0, s)
      else
        match findIndex m a logical with
        | none => some (0, s)
        | some b => (fs.walkFrom logical k b).exec s := by
  rw [extentWalk]
  split_ifs
  · rfl
  · cases findIndex m a logical <;> rfl

theorem walkFrom_ne_none_iff (hb : b < 2 ^ 48) (hk : 2 ^ 48 < k) :
    (fs.walkFrom logical k b).exec s ≠ none ↔ Halts (fs.nextIndex s.disk logical) b := by
  refine loop_ne_none_iff (fun k b => (fs.walkFrom logical k b).exec s) (S := Finset.range (2 ^ 48))
    (fun b h => ?_) (fun k b => ?_) (fun n b' c h _ => Finset.mem_range.mpr ?_)
    (by rwa [Finset.card_range])
  · rw [exec_walkFrom] at h
    by_cases hmagic : ehMagic ((s.disk b).slice 0 fs.blockSize) 0 = extentMagic
    · rw [if_pos hmagic] at h
      exact absurd rfl h
    · rw [nextIndex, if_neg fun h => hmagic h.1]
  · simp only [exec_walkFrom (k + 1), nextIndex]
    by_cases hmagic : ehMagic ((s.disk b).slice 0 fs.blockSize) 0 = extentMagic
    · rw [if_pos hmagic, exec_extentWalk_succ]
      by_cases hdepth : ehDepth ((s.disk b).slice 0 fs.blockSize) 0 = 0
      · rw [if_pos hdepth, if_neg fun h => h.2 hdepth]
        exact ⟨_, rfl⟩
      · rw [if_neg hdepth, if_pos ⟨hmagic, hdepth⟩]
        cases findIndex ((s.disk b).slice 0 fs.blockSize) 0 logical with
        | none => exact ⟨_, rfl⟩
        | some c => exact ⟨(0, s), rfl⟩
    · rw [if_neg hmagic, if_neg fun h => hmagic h.1]
      exact ⟨_, rfl⟩
  · cases n with
    | zero => exact Option.some.inj h ▸ hb
    | succ n =>
      obtain ⟨c', -, hc'⟩ := bind_eq_some_iff.mp h
      exact nextIndex_lt hc'

theorem extentGetBlock_ne_none_iff :
    (fs.extentGetBlock inode logical).exec s ≠ none ↔ fs.TreeEnds s.disk inode logical := by
  have hroot : (fs.extentGetBlock inode logical).exec s ≠ none ↔
      ∀ root, rootIndex inode logical = some root →
        (fs.walkFrom logical (2 ^ 64 - 1) root).exec s ≠ none := by
    unfold extentGetBlock rootIndex
    by_cases hu : usesExtents inode = true
    · by_cases hmagic : ehMagic inode iBlock = extentMagic
      · rw [if_neg (not_not.mpr hu), if_neg (not_not.mpr hmagic), show 2 ^ 64 = 2 ^ 64 - 1 + 1 by norm_num,
          exec_extentWalk_succ]
        by_cases hdepth : ehDepth inode iBlock = 0
        · rw [if_pos hdepth, if_neg fun h => h.2.2 hdepth]
          simp
        · rw [if_neg hdepth, if_pos ⟨hu, hmagic, hdepth⟩]
          cases findIndex inode iBlock logical <;> simp
      · rw [if_neg (not_not.mpr hu), if_pos hmagic, if_neg fun h => hmagic h.2.1]
        simp
    · rw [if_pos hu, if_neg fun h => hu h.1]
      simp
  rw [hroot, TreeEnds]
  refine forall₂_congr fun root h => ?_
  have hlt : root < 2 ^ 48 := by
    unfold rootIndex at h
    split_ifs at h
    exact findIndex_lt h
  rw [walkFrom_ne_none_iff hlt (by norm_num)]
  refine halts_iff (S := Finset.range (2 ^ 48)) fun n b c hb _ => Finset.mem_range.mpr ?_
  cases n with
  | zero => exact Option.some.inj hb ▸ hlt
  | succ n =>
    obtain ⟨c', -, hc'⟩ := bind_eq_some_iff.mp hb
    exact nextIndex_lt hc'

theorem extentWalk_state {depth : ℕ}
    (h : (fs.extentWalk logical k m a depth).exec s = some r) : r.2 = s := by
  induction k generalizing m a depth with
  | zero => cases h
  | succ k ih =>
    rw [exec_extentWalk_succ] at h
    split_ifs at h
    · exact Option.some.inj h ▸ rfl
    cases hi : findIndex m a logical with
    | none =>
      rw [hi] at h
      exact Option.some.inj h ▸ rfl
    | some b =>
      simp only [hi, exec_walkFrom] at h
      split_ifs at h
      · exact ih h
      · exact Option.some.inj h ▸ rfl

theorem extentGetBlock_state (h : (fs.extentGetBlock inode logical).exec s = some r) : r.2 = s := by
  unfold extentGetBlock at h
  split_ifs at h
  · exact Option.some.inj h ▸ rfl
  · exact extentWalk_state h
  · exact Option.some.inj h ▸ rfl

/-! ## Offsets in a directory -/

variable (fs s) (dir : Ext4Node)

def blockFor (logical : ℕ) : ℕ := (((fs.extentGetBlock dir.inode logical).exec s).map Prod.fst).getD 0

def blockAround (o : ℕ) : Mem := (s.disk (fs.blockFor s dir (o / fs.blockSize))).slice 0 fs.blockSize

/-- The lengths of the entries from `p` on, up to a length of zero. -/
def entriesLen (m : Mem) (bs : ℕ) : ℕ → ℕ → ℕ
  | 0, _ => 0
  | fuel + 1, p =>
    if bs ≤ p ∨ deRecLen m p = 0 then 0 else deRecLen m p + entriesLen m bs fuel (p + deRecLen m p)

/-- The offset after `o` in `finddir`, when the name is not found. -/
def finddirNext (o : ℕ) : Option ℕ :=
  if dir.size ≤ o then none
  else if fs.blockFor s dir (o / fs.blockSize) = 0 then some ((o + fs.blockSize) % 2 ^ 32)
  else some ((o + entriesLen (fs.blockAround s dir o) fs.blockSize fs.blockSize 0) % 2 ^ 32)

/-- The offset after `o` in `readdir`, when the entry is not the one. -/
def readdirNext (o : ℕ) : Option ℕ :=
  if dir.size ≤ o then none
  else if fs.blockFor s dir (o / fs.blockSize) = 0 then
    some ((o + (fs.blockSize - o % fs.blockSize)) % 2 ^ 32)
  else if deRecLen (fs.blockAround s dir o) (o % fs.blockSize) = 0 then
    some ((o + fs.blockSize) % 2 ^ 32)
  else some ((o + deRecLen (fs.blockAround s dir o) (o % fs.blockSize)) % 2 ^ 32)

def EntryInUse (o : ℕ) : Prop :=
  fs.blockFor s dir (o / fs.blockSize) ≠ 0 ∧ deInode (fs.blockAround s dir o) (o % fs.blockSize) ≠ 0

instance (o : ℕ) : Decidable (fs.EntryInUse s dir o) := inferInstanceAs (Decidable (_ ∧ _))

/-- `finddir` does not come back to an offset. -/
def FinddirEnds : Prop :=
  ∀ i j o, i < j → orbit (fs.finddirNext s dir) 0 i = some o → orbit (fs.finddirNext s dir) 0 j ≠ some o

/-- `readdir` does not come back to an offset without an entry in use on the way. -/
def ReaddirEnds : Prop := ∀ i j o, i < j → orbit (fs.readdirNext s dir) 0 i = some o →
    orbit (fs.readdirNext s dir) 0 j = some o →
    ∃ k o', i ≤ k ∧ k < j ∧ orbit (fs.readdirNext s dir) 0 k = some o' ∧ fs.EntryInUse s dir o'

variable {fs s dir}

def BlocksReturn (fs : Ext4) (s : Ext4Store) (inode : Mem) : Prop :=
  ∀ l < 2 ^ 32, (fs.extentGetBlock inode l).exec s ≠ none

theorem BlocksReturn.exec_eq (h : BlocksReturn fs s dir.inode) {l : ℕ} (hl : l < 2 ^ 32) :
    (fs.extentGetBlock dir.inode l).exec s = some (fs.blockFor s dir l, s) := by
  obtain ⟨r, hr⟩ := ne_none_iff_exists'.mp (h l hl)
  have hs := extentGetBlock_state hr
  rw [blockFor, hr]
  exact congrArg some (Prod.ext rfl hs)

theorem exec_blockAround (o : ℕ) : (fs.readBlock (fs.blockFor s dir (o / fs.blockSize))).exec s =
    some (fs.blockAround s dir o, s) := rfl

/-! ## Lengths of entries -/

theorem scanBlock_cases (m : Mem) (bs : ℕ) (name : List UInt8) (fuel p : ℕ) (ho : o < 2 ^ 32) :
    (∃ ino q, scanBlock m bs name fuel p o = .inl ino ∧ entryMatches m q name = true) ∨
      scanBlock m bs name fuel p o = .inr ((o + entriesLen m bs fuel p) % 2 ^ 32) := by
  induction fuel generalizing p o with
  | zero => exact .inr (by rw [scanBlock, entriesLen, Nat.add_zero, Nat.mod_eq_of_lt ho])
  | succ fuel ih =>
    rw [scanBlock, entriesLen]
    by_cases hend : bs ≤ p
    · rw [if_pos hend, if_pos (.inl hend), Nat.add_zero, Nat.mod_eq_of_lt ho]
      exact .inr rfl
    rw [if_neg hend]
    by_cases hmatch : entryMatches m p name = true
    · rw [if_pos hmatch]
      exact .inl ⟨_, p, rfl, hmatch⟩
    rw [if_neg hmatch]
    by_cases hlen : deRecLen m p = 0
    · rw [if_pos hlen, if_pos (.inr hlen), Nat.add_zero, Nat.mod_eq_of_lt ho]
      exact .inr rfl
    have hmod : (o + (deRecLen m p + entriesLen m bs fuel (p + deRecLen m p))) % 2 ^ 32 =
        ((o + deRecLen m p) % 2 ^ 32 + entriesLen m bs fuel (p + deRecLen m p)) % 2 ^ 32 := by
      rw [Nat.mod_add_mod, Nat.add_assoc]
    rw [if_neg hlen, if_neg (not_or.mpr ⟨hend, hlen⟩), hmod]
    exact ih _ (Nat.mod_lt _ (by norm_num))

theorem entryMatches_long (h : 256 ≤ name.length) : entryMatches m p name = false := by
  have hlt := Mem.readLE_lt m (p + 6) 1
  refine decide_eq_false fun hmatch => ?_
  rw [hmatch.2.1, deNameLen] at h
  omega

theorem scanBlock_long (h : 256 ≤ name.length) (ho : o < 2 ^ 32) :
    scanBlock m bs name fuel p o = .inr ((o + entriesLen m bs fuel p) % 2 ^ 32) := by
  rcases scanBlock_cases m bs name fuel p ho with ⟨ino, q, -, hmatch⟩ | hscan
  · rw [entryMatches_long h] at hmatch
    cases hmatch
  · exact hscan

theorem scanEntry_long (h : 256 ≤ name.length)
    {prev : Option ℕ} : scanEntry m bs name fuel p prev = none := by
  induction fuel generalizing p prev with
  | zero => rfl
  | succ fuel ih =>
    rw [scanEntry, entryMatches_long h, if_neg Bool.false_ne_true, ih]
    split_ifs <;> rfl

/-! ## Skipping from block to block -/

section Skip

variable {step : ℕ → Option ℕ} {size bs : ℕ}

theorem skip_halts (hstep : ∀ o o', step o = some o' → o < size ∧ o' = (o + bs) % 2 ^ 32)
    (hbs : 0 < bs) (hsize : size + bs ≤ 2 ^ 32) : Halts step 0 := by
  have horbit : ∀ n o, orbit step 0 n = some o → o = n * bs := by
    intro n
    induction n with
    | zero =>
      intro o h
      rw [← Option.some.inj h, Nat.zero_mul]
    | succ n ih =>
      intro o h
      obtain ⟨o', ho', hstep'⟩ := bind_eq_some_iff.mp h
      obtain ⟨hlt, rfl⟩ := hstep _ _ hstep'
      obtain rfl := ih _ ho'
      rw [Nat.mod_eq_of_lt (by omega), Nat.succ_mul]
  refine ⟨size + 1, eq_none_iff_forall_ne_some.mpr fun o h => ?_⟩
  obtain ⟨o', ho', hstep'⟩ := bind_eq_some_iff.mp h
  have hlt := (hstep _ _ hstep').1
  rw [horbit _ _ ho'] at hlt
  exact absurd (Nat.le_mul_of_pos_right size hbs) (not_le.mpr hlt)

theorem skip_not_halts (hstep : ∀ o < size, step o = some ((o + bs) % 2 ^ 32)) (hdvd : bs ∣ 2 ^ 32)
    (hsize : 2 ^ 32 < size + bs) : ¬Halts step 0 := by
  have horbit : ∀ n, orbit step 0 n = some (n * bs % 2 ^ 32) := by
    intro n
    induction n with
    | zero => rw [Nat.zero_mul]; rfl
    | succ n ih =>
      have hmul : bs ∣ 2 ^ 32 - n * bs % 2 ^ 32 :=
        Nat.dvd_sub hdvd ((Nat.dvd_mod_iff hdvd).mpr (Nat.dvd_mul_left bs n))
      have hle := Nat.le_of_dvd (by omega) hmul
      rw [orbit_succ, ih, bind_some, hstep _ (by omega), Nat.mod_add_mod, Nat.succ_mul]
  rintro ⟨n, hn⟩
  rw [horbit] at hn
  cases hn

end Skip

/-! ## `find_free_entry_space` and `unlink` -/

section Loops

variable (fs s dir)

/-- The offset after `o` in a loop that looks for a hit block by block. -/
def skipNext (hit : ℕ → Bool) (o : ℕ) : Option ℕ :=
  if dir.size ≤ o then none
  else if fs.blockFor s dir (o / fs.blockSize) = 0 then some ((o + fs.blockSize) % 2 ^ 32)
  else if hit o then none
  else some ((o + fs.blockSize) % 2 ^ 32)

def finddirStep (name : List UInt8) (o : ℕ) : Option ℕ :=
  if dir.size ≤ o then none
  else if fs.blockFor s dir (o / fs.blockSize) = 0 then some ((o + fs.blockSize) % 2 ^ 32)
  else (scanBlock (fs.blockAround s dir o) fs.blockSize name fs.blockSize 0 o).getRight?

variable {fs s dir}

theorem skipNext_eq_some {hit : ℕ → Bool} (h : fs.skipNext s dir hit o = some o') :
    o < dir.size ∧ o' = (o + fs.blockSize) % 2 ^ 32 := by
  unfold skipNext at h
  split_ifs at h with hend h0 hhit
  all_goals exact ⟨not_le.mp hend, (Option.some.inj h).symm⟩

variable {β : Type}

theorem offsets_ne_none_iff (loop : ℕ → ℕ → Option β) {step : ℕ → Option ℕ}
    (hlt : ∀ o o', step o = some o' → o < dir.size) (hzero : ∀ o, loop 0 o = none)
    (hiter : ∀ k o, ∃ r, loop (k + 1) o = (step o).elim (some r) (loop k)) :
    loop (dir.size + 1) 0 ≠ none ↔ Halts step 0 := by
  refine loop_ne_none_iff loop (fun o h => absurd (hzero o) h) hiter (S := Finset.range dir.size)
    (fun _ _ _ _ h => Finset.mem_range.mpr (hlt _ _ h)) ?_
  rw [Finset.card_range]
  exact Nat.lt_succ_self _

variable (hret : BlocksReturn fs s dir.inode) (hsize : dir.size < 2 ^ 32)
include hret hsize

theorem exec_blockFor (ho : ¬dir.size ≤ o) : (fs.extentGetBlock dir.inode (o / fs.blockSize)).exec s =
      some (fs.blockFor s dir (o / fs.blockSize), s) :=
  hret.exec_eq (lt_of_le_of_lt (Nat.div_le_self o fs.blockSize) ((not_le.mp ho).trans hsize))

theorem exec_iteration {σ : Type} {loop : σ → Option (β × Ext4Store)} {stop : β} {hole : Ext4M β}
    {rest : ℕ → Mem → Ext4M β} {skip : σ} {next : Option σ} (hhole : hole.exec s = loop skip)
    (hrest : ∃ r, (rest (fs.blockFor s dir (o / fs.blockSize)) (fs.blockAround s dir o)).exec s =
      next.elim (some r) loop) :
    ∃ r, (if dir.size ≤ o then pure stop
        else fs.extentGetBlock dir.inode (o / fs.blockSize) >>= fun b =>
          if b = 0 then hole else fs.readBlock b >>= rest b : Ext4M β).exec s =
      Option.elim (if dir.size ≤ o then none
        else if fs.blockFor s dir (o / fs.blockSize) = 0 then some skip else next) (some r) loop := by
  by_cases hend : dir.size ≤ o
  · rw [if_pos hend, if_pos hend]
    exact ⟨_, rfl⟩
  rw [if_neg hend, if_neg hend, exec_bind, exec_blockFor hret hsize hend, bind_some]
  by_cases h0 : fs.blockFor s dir (o / fs.blockSize) = 0
  · rw [if_pos h0, if_pos h0, hhole]
    exact ⟨(stop, s), rfl⟩
  · rwa [if_neg h0, if_neg h0, exec_bind, exec_blockAround, bind_some]

theorem findFreeEntrySpace_ne_none_iff (required : ℕ) :
    (fs.findFreeEntrySpace dir required (dir.size + 1) 0).exec s ≠ none ↔
      Halts (fs.skipNext s dir fun o =>
        (scanSpace (fs.blockAround s dir o) fs.blockSize required fs.blockSize 0).isSome) 0 := by
  refine offsets_ne_none_iff (fun k o => (fs.findFreeEntrySpace dir required k o).exec s)
    (fun o o' h => (skipNext_eq_some h).1) (fun _ => rfl) fun k o => ?_
  rw [skipNext]
  refine exec_iteration hret hsize rfl ?_
  cases scanSpace (fs.blockAround s dir o) fs.blockSize required fs.blockSize 0 with
  | none => exact ⟨(none, s), rfl⟩
  | some p => exact ⟨_, rfl⟩

theorem unlinkLoop_ne_none_iff (name : List UInt8) :
    (fs.unlinkLoop dir name (dir.size + 1) 0).exec s ≠ none ↔ Halts (fs.skipNext s dir fun o =>
        (scanEntry (fs.blockAround s dir o) fs.blockSize name fs.blockSize 0 none).isSome) 0 := by
  refine offsets_ne_none_iff (fun k o => (fs.unlinkLoop dir name k o).exec s)
    (fun o o' h => (skipNext_eq_some h).1) (fun _ => rfl) fun k o => ?_
  rw [skipNext]
  refine exec_iteration hret hsize rfl ?_
  cases scanEntry (fs.blockAround s dir o) fs.blockSize name fs.blockSize 0 none with
  | none => exact ⟨(none, s), rfl⟩
  | some p => exact ⟨_, rfl⟩

/-! ## `finddir` -/

theorem finddirLoop_ne_none_iff (name : List UInt8) :
    (fs.finddirLoop dir name (dir.size + 1) 0).exec s ≠ none ↔ Halts (fs.finddirStep s dir name) 0 := by
  refine offsets_ne_none_iff (fun k o => (fs.finddirLoop dir name k o).exec s)
    (fun o o' h => ?_) (fun _ => rfl) fun k o => ?_
  · unfold finddirStep at h
    split_ifs at h with hend
    all_goals exact not_le.mp hend
  refine exec_iteration hret hsize rfl ?_
  cases scanBlock (fs.blockAround s dir o) fs.blockSize name fs.blockSize 0 o with
  | inl ino => exact ⟨_, rfl⟩
  | inr o' => exact ⟨(none, s), rfl⟩

omit hret in
theorem finddirStep_le (h : fs.finddirStep s dir name o = some o') :
    fs.finddirNext s dir o = some o' := by
  unfold finddirStep at h
  unfold finddirNext
  split_ifs at h ⊢ with hend h0
  · exact h
  have ho : o < 2 ^ 32 := (not_le.mp hend).trans hsize
  rcases scanBlock_cases (fs.blockAround s dir o) fs.blockSize name fs.blockSize 0 ho with
    ⟨ino, q, hscan, -⟩ | hscan
  · rw [hscan] at h
    cases h
  · rwa [hscan] at h

omit hret in
theorem finddirNext_le (h : fs.finddirNext s dir o = some o') :
    fs.finddirStep s dir (List.replicate 256 0) o = some o' := by
  unfold finddirNext at h
  unfold finddirStep
  split_ifs at h ⊢ with hend h0
  · exact h
  · have ho : o < 2 ^ 32 := (not_le.mp hend).trans hsize
    rwa [scanBlock_long (by rw [List.length_replicate]) ho]

/-- **`finddir` returns for every name** exactly if it does not come back to an offset. -/
theorem finddir_halts_iff :
    (∀ name, (fs.finddirLoop dir name (dir.size + 1) 0).exec s ≠ none) ↔ fs.FinddirEnds s dir := by
  have hends : Halts (fs.finddirNext s dir) 0 ↔ fs.FinddirEnds s dir := by
    refine halts_iff (S := Finset.range dir.size) fun n o o' _ h => Finset.mem_range.mpr ?_
    unfold finddirNext at h
    split_ifs at h with hend
    all_goals exact not_le.mp hend
  rw [← hends]
  constructor
  · intro h
    refine Halts.mono ((finddirLoop_ne_none_iff hret hsize _).mp (h (List.replicate 256 0))) ?_
    exact fun o o' ho => finddirNext_le hsize ho
  · intro h name
    exact (finddirLoop_ne_none_iff hret hsize name).mpr (h.mono fun o o' ho => finddirStep_le hsize ho)

end Loops

/-! ## `readdir` -/

section Readdir

variable (fs s dir)

/-- One entry or hole of `readdir`: the offset and the number of entries so far. -/
def readdirStep (index : ℕ) (x : ℕ × ℕ) : Option (ℕ × ℕ) := (fs.readdirNext s dir x.1).bind fun o =>
    if fs.EntryInUse s dir x.1 then if x.2 = index then none else some (o, (x.2 + 1) % 2 ^ 32)
    else some (o, x.2)

/-- One iteration of its outer loop. -/
def readdirPass (index : ℕ) (x : ℕ × ℕ) : Option (ℕ × ℕ) :=
  if dir.size ≤ x.1 then none
  else if fs.blockFor s dir (x.1 / fs.blockSize) = 0 then
    some ((x.1 + (fs.blockSize - x.1 % fs.blockSize)) % 2 ^ 32, x.2)
  else
    (scanIndex (fs.blockAround s dir x.1) fs.blockSize dir.size index fs.blockSize
      (x.1 % fs.blockSize) x.1 x.2).getRight?

variable {fs s dir} {index : ℕ}

theorem readdirNext_lt (h : fs.readdirNext s dir o = some o') : o < dir.size := by
  unfold readdirNext at h
  split_ifs at h with hend
  all_goals exact not_le.mp hend

theorem readdirStep_found (hused : fs.EntryInUse s dir o) (hc : c = index) :
    fs.readdirStep s dir index (o, c) = none := by
  unfold readdirStep
  cases fs.readdirNext s dir o with
  | none => rfl
  | some o' => exact (if_pos hused).trans (if_pos hc)

variable {size n : ℕ} {x : ℕ × ℕ}

theorem scanIndex_stop (h : bs ≤ p ∨ size ≤ o) : scanIndex m bs size index fuel p o c = .inr (o, c) := by
  cases fuel with
  | zero => rfl
  | succ fuel => rw [scanIndex, if_pos h]

theorem add_in_block (hdvd : bs ∣ 2 ^ 32) (ho : o < 2 ^ 32) (h : o % bs + k < bs) :
    (o + k) / bs = o / bs ∧ (o + k) % bs = o % bs + k ∧ o + k < 2 ^ 32 := by
  have hpos : 0 < bs := by omega
  have hsum : o + k = bs * (o / bs) + (o % bs + k) := by
    have := Nat.div_add_mod o bs
    omega
  obtain ⟨q, hq⟩ := hdvd
  have hlt : o / bs < q := by
    rwa [Nat.div_lt_iff_lt_mul hpos, Nat.mul_comm, ← hq]
  refine ⟨?_, ?_, ?_⟩
  · rw [hsum, Nat.mul_add_div hpos, Nat.div_eq_of_lt h, Nat.add_zero]
  · rw [hsum, Nat.mul_add_mod, Nat.mod_eq_of_lt h]
  calc o + k = bs * (o / bs) + (o % bs + k) := hsum
    _ < bs * (o / bs) + bs := Nat.add_lt_add_left h _
    _ = bs * (o / bs + 1) := (Nat.mul_succ _ _).symm
    _ ≤ bs * q := Nat.mul_le_mul_left bs hlt
    _ = 2 ^ 32 := hq.symm

theorem scanIndex_jump (index : ℕ) (hdvd : fs.blockSize ∣ 2 ^ 32) (hsize : dir.size < 2 ^ 32)
    (ho : o < dir.size) (h0 : fs.blockFor s dir (o / fs.blockSize) ≠ 0)
    (hfuel : fs.blockSize ≤ fuel + o % fs.blockSize) :
    match scanIndex (fs.blockAround s dir o) fs.blockSize dir.size index fuel (o % fs.blockSize) o c with
    | .inl _ => Halts (fs.readdirStep s dir index) (o, c)
    | .inr x => ∃ n, 0 < n ∧ orbit (fs.readdirStep s dir index) (o, c) n = some x := by
  have hpos : 0 < fs.blockSize := Nat.pos_of_dvd_of_pos hdvd (by norm_num)
  induction fuel generalizing o c with
  | zero => exact absurd (Nat.mod_lt o hpos) (by omega)
  | succ fuel ih =>
    have hmod := Nat.mod_lt o hpos
    rw [scanIndex, if_neg (not_or.mpr ⟨not_le.mpr hmod, not_le.mpr ho⟩)]
    have hnext : fs.readdirNext s dir o =
        if deRecLen (fs.blockAround s dir o) (o % fs.blockSize) = 0 then
          some ((o + fs.blockSize) % 2 ^ 32)
        else some ((o + deRecLen (fs.blockAround s dir o) (o % fs.blockSize)) % 2 ^ 32) := by
      rw [readdirNext, if_neg (not_le.mpr ho), if_neg h0]
    by_cases hfound : deInode (fs.blockAround s dir o) (o % fs.blockSize) ≠ 0 ∧ c = index
    · rw [if_pos hfound]
      exact halts_of_none (readdirStep_found ⟨h0, hfound.1⟩ hfound.2)
    rw [if_neg hfound]
    -- one entry
    have hstep : ∀ o', fs.readdirNext s dir o = some o' → fs.readdirStep s dir index (o, c) =
        some (o', if deInode (fs.blockAround s dir o) (o % fs.blockSize) ≠ 0 then (c + 1) % 2 ^ 32
          else c) := by
      intro o' ho'
      rw [readdirStep, ho', bind_some]
      by_cases hused : deInode (fs.blockAround s dir o) (o % fs.blockSize) ≠ 0
      · rw [if_pos ⟨h0, hused⟩, if_neg fun h => hfound ⟨hused, h⟩, if_pos hused]
      · rw [if_neg fun h => hused h.2, if_neg hused]
    by_cases hlen : deRecLen (fs.blockAround s dir o) (o % fs.blockSize) = 0
    · rw [if_pos hlen]
      rw [if_pos hlen] at hnext
      exact ⟨1, Nat.one_pos, hstep _ hnext⟩
    rw [if_neg hlen]
    rw [if_neg hlen] at hnext
    by_cases hin : o % fs.blockSize + deRecLen (fs.blockAround s dir o) (o % fs.blockSize) < fs.blockSize
    · obtain ⟨hdiv, hmod', hlt⟩ := add_in_block hdvd (ho.trans hsize) hin
      rw [Nat.mod_eq_of_lt hlt] at hnext ⊢
      by_cases hend : dir.size ≤ o + deRecLen (fs.blockAround s dir o) (o % fs.blockSize)
      · rw [scanIndex_stop (.inr hend)]
        exact ⟨1, Nat.one_pos, hstep _ hnext⟩
      have hsame : fs.blockAround s dir (o + deRecLen (fs.blockAround s dir o) (o % fs.blockSize)) =
          fs.blockAround s dir o := by rw [blockAround, hdiv, blockAround]
      have hrest := ih (not_le.mp hend) (by rwa [hdiv])
        (c := if deInode (fs.blockAround s dir o) (o % fs.blockSize) ≠ 0 then (c + 1) % 2 ^ 32 else c)
        (by omega)
      rw [hsame, hmod'] at hrest
      revert hrest
      cases scanIndex (fs.blockAround s dir o) fs.blockSize dir.size index fuel
        (o % fs.blockSize + deRecLen (fs.blockAround s dir o) (o % fs.blockSize))
        (o + deRecLen (fs.blockAround s dir o) (o % fs.blockSize)) _ with
      | inl p => exact fun h => (halts_of_next (hstep _ hnext)).mpr h
      | inr x =>
        rintro ⟨n, -, hn⟩
        refine ⟨n + 1, Nat.succ_pos n, ?_⟩
        rwa [orbit_succ_left, hstep _ hnext]
    · rw [scanIndex_stop (.inl (not_lt.mp hin))]
      exact ⟨1, Nat.one_pos, hstep _ hnext⟩

theorem readdirPass_halts_iff (hdvd : fs.blockSize ∣ 2 ^ 32) (hsize : dir.size < 2 ^ 32) (x : ℕ × ℕ) :
    Halts (fs.readdirPass s dir index) x ↔ Halts (fs.readdirStep s dir index) x := by
  refine halts_iff_of_jump (fun x h => ?_) (fun x y h => ?_) x
  · unfold readdirPass at h
    split_ifs at h with hend h0
    · refine halts_of_none ?_
      rw [readdirStep, readdirNext, if_pos hend, bind_none]
    have hjump := scanIndex_jump index hdvd hsize (not_le.mp hend) h0 (c := x.2)
      (Nat.le_add_right fs.blockSize _)
    revert h hjump
    cases scanIndex (fs.blockAround s dir x.1) fs.blockSize dir.size index fs.blockSize
      (x.1 % fs.blockSize) x.1 x.2 with
    | inl p => exact fun _ h => h
    | inr y => exact fun h _ => absurd h (some_ne_none y)
  unfold readdirPass at h
  split_ifs at h with hend h0
  · refine ⟨1, Nat.one_pos, ?_⟩
    rw [orbit_succ_left, readdirStep, readdirNext, if_neg hend, if_pos h0, bind_some,
      if_neg fun h => h.1 h0, h]
    rfl
  have hjump := scanIndex_jump index hdvd hsize (not_le.mp hend) h0 (c := x.2)
    (Nat.le_add_right fs.blockSize _)
  revert h hjump
  cases scanIndex (fs.blockAround s dir x.1) fs.blockSize dir.size index fs.blockSize
    (x.1 % fs.blockSize) x.1 x.2 with
  | inl p => exact fun h _ => absurd h.symm (some_ne_none y)
  | inr z =>
    intro h hjump
    cases h
    exact hjump

/-- The entries in use among the first `n` that `readdir` comes to. -/
def usedBefore (fs : Ext4) (s : Ext4Store) (dir : Ext4Node) : ℕ → ℕ
  | 0 => 0
  | n + 1 =>
    usedBefore fs s dir n +
      if ∃ o ∈ orbit (fs.readdirNext s dir) 0 n, fs.EntryInUse s dir o then 1 else 0

theorem usedBefore_mono {m : ℕ} (h : m ≤ n) : fs.usedBefore s dir m ≤ fs.usedBefore s dir n := by
  induction n, h using Nat.le_induction with
  | base => exact le_rfl
  | succ n _ ih => exact ih.trans (Nat.le_add_right _ _)

theorem usedBefore_le (n : ℕ) : fs.usedBefore s dir n ≤ n := by
  induction n with
  | zero => exact le_rfl
  | succ n ih =>
    rw [usedBefore]
    split_ifs <;> omega

theorem usedBefore_succ (h : orbit (fs.readdirNext s dir) 0 n = some o) : fs.usedBefore s dir (n + 1) =
      fs.usedBefore s dir n + if fs.EntryInUse s dir o then 1 else 0 := by
  rw [usedBefore, h]
  simp

theorem orbit_readdirStep (hindex : index < 2 ^ 32)
    (h : orbit (fs.readdirStep s dir index) (0, 0) n = some x) :
    orbit (fs.readdirNext s dir) 0 n = some x.1 ∧ x.2 = fs.usedBefore s dir n ∧ x.2 ≤ index := by
  induction n generalizing x with
  | zero =>
    cases h
    exact ⟨rfl, rfl, Nat.zero_le _⟩
  | succ n ih =>
    obtain ⟨y, hy, hstep⟩ := bind_eq_some_iff.mp h
    obtain ⟨horbit, hused, hle⟩ := ih hy
    obtain ⟨o, ho, hx⟩ := bind_eq_some_iff.mp hstep
    rw [orbit_succ, horbit, bind_some, ho, usedBefore_succ horbit, ← hused]
    split_ifs at hx ⊢ with huse hidx
    · cases hx
      have hlt : y.2 + 1 < 2 ^ 32 := by omega
      refine ⟨rfl, Nat.mod_eq_of_lt hlt, ?_⟩
      omega
    · cases hx
      exact ⟨rfl, rfl, hle⟩

theorem orbit_readdirStep_eq (hindex : index < 2 ^ 32)
    (h : orbit (fs.readdirNext s dir) 0 n = some o) (hle : fs.usedBefore s dir n ≤ index) :
    orbit (fs.readdirStep s dir index) (0, 0) n = some (o, fs.usedBefore s dir n) := by
  induction n generalizing o with
  | zero =>
    cases h
    rfl
  | succ n ih =>
    obtain ⟨o', ho', hstep⟩ := bind_eq_some_iff.mp h
    rw [usedBefore_succ ho'] at hle ⊢
    rw [orbit_succ, ih ho' (le_trans (Nat.le_add_right _ _) hle), bind_some, readdirStep, hstep,
      bind_some]
    split_ifs at hle ⊢ with huse hidx
    · exact absurd hidx (by omega)
    · rw [Nat.mod_eq_of_lt (by omega)]
    · rfl

theorem ReaddirEnds.halts (h : fs.ReaddirEnds s dir) (hindex : index < 2 ^ 32) :
    Halts (fs.readdirStep s dir index) (0, 0) := by
  refine (halts_iff (S := Finset.range dir.size ×ˢ Finset.range (index + 1)) ?_).mpr ?_
  · intro n x y hx hy
    obtain ⟨o, ho, -⟩ := bind_eq_some_iff.mp hy
    exact Finset.mem_product.mpr ⟨Finset.mem_range.mpr (readdirNext_lt ho),
      Finset.mem_range.mpr (Nat.lt_succ_of_le (orbit_readdirStep hindex hx).2.2)⟩
  intro i j x hij hi hj
  obtain ⟨hi1, hi2, -⟩ := orbit_readdirStep hindex hi
  obtain ⟨hj1, hj2, -⟩ := orbit_readdirStep hindex hj
  obtain ⟨k, o, hik, hkj, hk, hused⟩ := h i j x.1 hij hi1 hj1
  have hlt : fs.usedBefore s dir k < fs.usedBefore s dir (k + 1) := by
    rw [usedBefore_succ hk, if_pos hused]
    exact Nat.lt_succ_self _
  have hle : fs.usedBefore s dir i ≤ fs.usedBefore s dir k := usedBefore_mono hik
  have hle' : fs.usedBefore s dir (k + 1) ≤ fs.usedBefore s dir j := usedBefore_mono hkj
  omega

theorem exists_last_used (hlt : ∀ n, ∃ o, orbit (fs.readdirNext s dir) 0 n = some o) {i j : ℕ}
    (hij : i < j) (hi : orbit (fs.readdirNext s dir) 0 i = some o)
    (hj : orbit (fs.readdirNext s dir) 0 j = some o)
    (hnone : ∀ k o', i ≤ k → k < j → orbit (fs.readdirNext s dir) 0 k = some o' →
      ¬fs.EntryInUse s dir o') :
    ∃ m ≤ dir.size, ∀ n o', m ≤ n → orbit (fs.readdirNext s dir) 0 n = some o' →
      ¬fs.EntryInUse s dir o' := by
  classical
  have hafter : ∃ m, ∀ n o', m ≤ n → orbit (fs.readdirNext s dir) 0 n = some o' →
      ¬fs.EntryInUse s dir o' := by
    refine ⟨i, fun n o' hn ho' => ?_⟩
    have hper : orbit (fs.readdirNext s dir) 0 i = orbit (fs.readdirNext s dir) 0 (i + (j - i)) := by
      rw [hi, Nat.add_sub_cancel' hij.le, hj]
    have hdiv := Nat.div_add_mod (n - i) (j - i)
    have hmod := Nat.mod_lt (n - i) (Nat.sub_pos_of_lt hij)
    have heq := orbit_period hper (Nat.le_add_right i ((n - i) % (j - i))) ((n - i) / (j - i))
    rw [Nat.mul_comm, show i + (n - i) % (j - i) + (j - i) * ((n - i) / (j - i)) = n by omega, ho'] at heq
    exact hnone _ o' (Nat.le_add_right _ _) (by omega) heq.symm
  refine ⟨Nat.find hafter, ?_, Nat.find_spec hafter⟩
  -- the last entry in use would come again if an offset before it did
  by_contra hbig
  have hgo : orbit (fs.readdirNext s dir) 0 ((Finset.range dir.size).card + 1) ≠ none := by
    obtain ⟨o', ho'⟩ := hlt ((Finset.range dir.size).card + 1)
    rw [ho']
    exact some_ne_none o'
  obtain ⟨a, b, x, hab, hb, ha, hb'⟩ := exists_repeat
    (fun n o' o'' _ h => Finset.mem_range.mpr (readdirNext_lt h)) hgo
  rw [Finset.card_range] at hb
  refine Nat.find_min hafter (Nat.sub_one_lt (by omega)) fun n o' hn ho' hused => ?_
  have hper : orbit (fs.readdirNext s dir) 0 a = orbit (fs.readdirNext s dir) 0 (a + (b - a)) := by
    rw [ha, Nat.add_sub_cancel' hab.le, hb']
  have hagain := orbit_period hper (show a ≤ n by omega) 1
  rw [ho'] at hagain
  exact Nat.find_spec hafter _ o' (by omega) hagain hused

/-- **`readdir` returns for every index** exactly if it does not come back without an entry in use. -/
theorem readdir_halts_iff (hsize : dir.size < 2 ^ 32) :
    (∀ index < 2 ^ 32, Halts (fs.readdirStep s dir index) (0, 0)) ↔ fs.ReaddirEnds s dir := by
  refine ⟨fun h i j o hij hi hj => ?_, fun h index hindex => h.halts hindex⟩
  by_contra hnone
  have hlt : ∀ n, ∃ o, orbit (fs.readdirNext s dir) 0 n = some o := by
    intro n
    refine ne_none_iff_exists'.mp fun hn => ?_
    exact not_halts_of_repeat hij hi hj ⟨n, hn⟩
  obtain ⟨m, hm, hlast⟩ := exists_last_used hlt hij hi hj fun k o' hik hkj hk hused =>
    hnone ⟨k, o', hik, hkj, hk, hused⟩
  have hconst : ∀ n, fs.usedBefore s dir n ≤ fs.usedBefore s dir m := by
    intro n
    rcases le_total n m with hnm | hnm
    · exact usedBefore_mono hnm
    induction n, hnm using Nat.le_induction with
    | base => exact le_rfl
    | succ n hmn ih =>
      obtain ⟨o', ho'⟩ := hlt n
      rwa [usedBefore_succ ho', if_neg (hlast n o' hmn ho')]
  have hindex : fs.usedBefore s dir m < 2 ^ 32 := lt_of_le_of_lt ((usedBefore_le m).trans hm) hsize
  obtain ⟨n, hn⟩ := h _ hindex
  obtain ⟨o', ho'⟩ := hlt n
  rw [orbit_readdirStep_eq hindex ho' (hconst n)] at hn
  cases hn

theorem scanIndex_lt (hc : c < 2 ^ 32)
    (h : scanIndex m bs size index fuel p o c = .inr x) : x.2 < 2 ^ 32 := by
  induction fuel generalizing p o c with
  | zero => exact Sum.inr.inj h ▸ hc
  | succ fuel ih =>
    have hc' : (if deInode m p ≠ 0 then (c + 1) % 2 ^ 32 else c) < 2 ^ 32 := by
      split_ifs
      · exact Nat.mod_lt _ (by norm_num)
      · exact hc
    rw [scanIndex] at h
    by_cases hend : bs ≤ p ∨ size ≤ o
    · rw [if_pos hend] at h
      exact Sum.inr.inj h ▸ hc
    rw [if_neg hend] at h
    by_cases hfound : deInode m p ≠ 0 ∧ c = index
    · rw [if_pos hfound] at h
      cases h
    rw [if_neg hfound] at h
    by_cases hlen : deRecLen m p = 0
    · rw [if_pos hlen] at h
      exact Sum.inr.inj h ▸ hc'
    · rw [if_neg hlen] at h
      exact ih hc' h

theorem orbit_readdirPass_lt
    (h : orbit (fs.readdirPass s dir index) (0, 0) n = some x) : x.2 < 2 ^ 32 := by
  induction n generalizing x with
  | zero => exact Option.some.inj h ▸ Nat.two_pow_pos 32
  | succ n ih =>
    obtain ⟨y, hy, hstep⟩ := bind_eq_some_iff.mp h
    unfold readdirPass at hstep
    split_ifs at hstep
    · have hlt := ih hy
      rwa [← Option.some.inj hstep]
    · exact scanIndex_lt (ih hy) (Sum.getRight?_eq_some_iff.mp hstep)

theorem readdir_ne_none_iff (hret : BlocksReturn fs s dir.inode) (hsize : dir.size < 2 ^ 32)
    (hdvd : fs.blockSize ∣ 2 ^ 32) :
    (fs.readdir dir index).exec s ≠ none ↔ Halts (fs.readdirStep s dir index) (0, 0) := by
  rw [← readdirPass_halts_iff hdvd hsize]
  have hcard : (Finset.range dir.size ×ˢ Finset.range (2 ^ 32)).card < dir.size * 2 ^ 32 + 1 := by
    rw [Finset.card_product, Finset.card_range, Finset.card_range]
    exact Nat.lt_succ_self _
  refine loop_ne_none_iff (a := (0, 0)) (fun k x => (fs.readdirLoop dir index k x.1 x.2).exec s)
    (fun x h => absurd rfl h) (fun k x => ?_) (fun n x y hx hy => ?_) hcard
  · refine exec_iteration hret hsize rfl ?_
    cases scanIndex (fs.blockAround s dir x.1) fs.blockSize dir.size index fs.blockSize
      (x.1 % fs.blockSize) x.1 x.2 with
    | inl p => exact ⟨_, rfl⟩
    | inr y => exact ⟨(none, s), rfl⟩
  · refine Finset.mem_product.mpr ⟨Finset.mem_range.mpr ?_,
      Finset.mem_range.mpr (orbit_readdirPass_lt hx)⟩
    unfold readdirPass at hy
    split_ifs at hy with hend
    all_goals exact not_le.mp hend

end Readdir

/-! ## All lookups -/

theorem unlink_ne_none_iff (name : List UInt8) : (fs.unlink dir name).exec s ≠ none ↔
      (fs.unlinkLoop dir name (dir.size + 1) 0).exec s ≠ none := by
  rw [unlink, exec_bind]
  cases (fs.unlinkLoop dir name (dir.size + 1) 0).exec s with
  | none => exact iff_of_false (fun h => h rfl) fun h => h rfl
  | some r =>
    refine iff_of_true ?_ (some_ne_none r)
    rw [bind_some]
    cases r.1 with
    | none => exact some_ne_none _
    | some ino =>
      simp only [exec_bind, exec_readInode, bind_some]
      split_ifs <;> exact some_ne_none _

theorem finddir_ne_none_iff (name : List UInt8) : (fs.finddir dir name).exec s ≠ none ↔
      (fs.finddirLoop dir name (dir.size + 1) 0).exec s ≠ none := by
  rw [finddir, exec_bind]
  cases (fs.finddirLoop dir name (dir.size + 1) 0).exec s with
  | none => exact iff_of_false (fun h => h rfl) fun h => h rfl
  | some r =>
    refine iff_of_true ?_ (some_ne_none r)
    rw [bind_some]
    cases r.1 <;> exact some_ne_none _

theorem unlink_halts_iff (hret : BlocksReturn fs s dir.inode) (hsize : dir.size < 2 ^ 32)
    (hdvd : fs.blockSize ∣ 2 ^ 32) :
    (∀ name, (fs.unlink dir name).exec s ≠ none) ↔ dir.size + fs.blockSize ≤ 2 ^ 32 := by
  have hpos : 0 < fs.blockSize := Nat.pos_of_dvd_of_pos hdvd (by norm_num)
  constructor
  · intro h
    by_contra hbig
    have hhalt := (unlinkLoop_ne_none_iff hret hsize _).mp
      ((unlink_ne_none_iff _).mp (h (List.replicate 256 0)))
    refine skip_not_halts (fun o ho => ?_) hdvd (not_le.mp hbig) hhalt
    rw [skipNext, if_neg (not_le.mpr ho), scanEntry_long (by rw [List.length_replicate])]
    simp
  · intro h name
    rw [unlink_ne_none_iff, unlinkLoop_ne_none_iff hret hsize]
    exact skip_halts (fun o o' ho => skipNext_eq_some ho) hpos h

/-- **All lookups return** exactly if no way through the extent tree meets an index block twice, the
offset of the last block has 32 bits, and neither `finddir` nor `readdir` comes back to an offset. -/
theorem lookups_return_iff (hdvd : fs.blockSize ∣ 2 ^ 32) (s : Ext4Store) (hsize : dir.size < 2 ^ 32) :
    ((∀ logical < 2 ^ 32, (fs.extentGetBlock dir.inode logical).exec s ≠ none) ∧
      (∀ name, (fs.finddir dir name).exec s ≠ none) ∧
      (∀ index < 2 ^ 32, (fs.readdir dir index).exec s ≠ none) ∧
      (∀ name, (fs.unlink dir name).exec s ≠ none) ∧
      ∀ required, (fs.findFreeEntrySpace dir required (dir.size + 1) 0).exec s ≠ none) ↔
    (∀ logical < 2 ^ 32, fs.TreeEnds s.disk dir.inode logical) ∧
      dir.size + fs.blockSize ≤ 2 ^ 32 ∧ fs.FinddirEnds s dir ∧ fs.ReaddirEnds s dir := by
  have hpos : 0 < fs.blockSize := Nat.pos_of_dvd_of_pos hdvd (by norm_num)
  simp only [extentGetBlock_ne_none_iff, finddir_ne_none_iff]
  refine and_congr_right fun htree => ?_
  have hret : BlocksReturn fs s dir.inode := fun l hl => extentGetBlock_ne_none_iff.mpr (htree l hl)
  simp only [finddir_halts_iff hret hsize, unlink_halts_iff hret hsize hdvd,
    readdir_ne_none_iff hret hsize hdvd, readdir_halts_iff hsize,
    findFreeEntrySpace_ne_none_iff hret hsize]
  constructor
  · rintro ⟨hfind, hread, hskip, -⟩
    exact ⟨hskip, hfind, hread⟩
  · rintro ⟨hskip, hfind, hread⟩
    exact ⟨hfind, hread, hskip, fun required =>
      skip_halts (fun o o' ho => skipNext_eq_some ho) hpos hskip⟩

/-- A directory of eight bytes, without a block and in an empty block. -/
def holeDir : Ext4Node where
  isDir := true
  ino := 13
  inode := newInode 0x41ED 2 8 none
  size := 8

def zeroDir : Ext4Node := { holeDir with inode := newInode 0x41ED 2 8 (some 10) }

theorem lookups_return_iff_hole :
    (∀ logical < 2 ^ 32, (small.extentGetBlock holeDir.inode logical).exec ⟨smallDisk, []⟩ ≠ none) ∧
      (∀ name, (small.finddir holeDir name).exec ⟨smallDisk, []⟩ ≠ none) ∧
      (∀ index < 2 ^ 32, (small.readdir holeDir index).exec ⟨smallDisk, []⟩ ≠ none) ∧
      (∀ name, (small.unlink holeDir name).exec ⟨smallDisk, []⟩ ≠ none) ∧
      ∀ required, (small.findFreeEntrySpace holeDir required (holeDir.size + 1) 0).exec
        ⟨smallDisk, []⟩ ≠ none := by
  refine (lookups_return_iff (by decide) _ (by decide)).mpr ⟨fun l _ root h => ?_, by decide,
    fun i j o hij hi hj => ?_, fun i j o hij hi hj => ?_⟩
  · rw [rootIndex, if_neg (by decide +kernel)] at h
    cases h
  · exact not_halts_of_repeat hij hi hj ⟨2, by decide +kernel⟩
  · exact absurd ⟨2, by decide +kernel⟩ (not_halts_of_repeat hij hi hj)

/-- **`finddir` does not return** from a block that starts with a length of zero. -/
theorem finddir_hangs : (small.finddir zeroDir [0x66]).exec ⟨smallDisk, []⟩ = none := by
  decide +kernel

end Ext4

end KeonOS
