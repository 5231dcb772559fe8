import KeonOS.Ext4.Extend

/-!
# Reading and writing a file

A file on a consistent volume reads back what was written, and a write changes no other file.

* **`Ext4.exec_read`**: what `read` returns;
* **`Ext4.exec_writeLoop`**: the whole loop;
* **`Ext4.write_read_law`**: the law of a write.
-/

namespace KeonOS

open List Option BlockM

namespace Ext4

variable {fs : Ext4} {use : ℕ → BlockUse} {live : ℕ → Prop} {s : Ext4Store}

/-- Byte `x` of the file with the given inode; a hole reads as zero. -/
def fileByte (fs : Ext4) (d : ℕ → Mem) (inode : Mem) (x : ℕ) : UInt8 :=
  if fs.mapOf d inode (x / fs.blockSize) = 0 then 0
  else d (fs.mapOf d inode (x / fs.blockSize)) (x % fs.blockSize)

def fileBytes (fs : Ext4) (d : ℕ → Mem) (inode : Mem) (x n : ℕ) : List UInt8 :=
  (List.range n).map fun k => fs.fileByte d inode (x + k)

theorem fileBytes_add (d : ℕ → Mem) (inode : Mem) (x n k : ℕ) :
    fs.fileBytes d inode x (n + k) = fs.fileBytes d inode x n ++ fs.fileBytes d inode (x + n) k := by
  simp only [fileBytes, range_add, map_append, List.map_map, Function.comp_def, Nat.add_assoc]

/-! ## Blocks and offsets -/

variable {x k n ino offset size fuel done l : ℕ} {inode m : Mem} {f : Ext4Node} {s' : Ext4Store}
  {use' : ℕ → BlockUse} {data : List UInt8} {d : ℕ → Mem}

theorem div_mod_add {bs : ℕ} (h : x % bs + k < bs) :
    (x + k) / bs = x / bs ∧ (x + k) % bs = x % bs + k := by
  have hpos : 0 < bs := by omega
  have hx : x + k = bs * (x / bs) + (x % bs + k) := by
    have := Nat.div_add_mod x bs
    omega
  rw [hx]
  exact ⟨by rw [Nat.mul_add_div hpos, Nat.div_eq_of_lt h, Nat.add_zero],
    by rw [Nat.mul_add_mod, Nat.mod_eq_of_lt h]⟩

/-! ## Reading -/

theorem exec_readPiece (hn : n ≤ fs.blockSize - x % fs.blockSize) (hbs : 0 < fs.blockSize) :
    (fs.readPiece (fs.mapOf s.disk inode (x / fs.blockSize)) (x % fs.blockSize) n).exec s =
      some (fs.fileBytes s.disk inode x n, s) := by
  have hmod := Nat.mod_lt x hbs
  have hpos : ∀ k < n, (x + k) / fs.blockSize = x / fs.blockSize ∧
      (x + k) % fs.blockSize = x % fs.blockSize + k := fun k hk => div_mod_add (by omega)
  rw [readPiece, fileBytes]
  split_ifs with h0
  · refine congrArg some (Prod.ext (ext_getElem (by simp) fun k h1 h2 => ?_) rfl)
    have hk : k < n := by simpa using h1
    simp [fileByte, (hpos k hk).1, h0]
  · refine congrArg some (Prod.ext (map_congr_left fun k hk => ?_) rfl)
    have hk' := mem_range.mp hk
    rw [fileByte, (hpos k hk').1, (hpos k hk').2, if_neg h0]
    exact (Mem.slice_apply (by omega)).trans (by rw [Nat.zero_add])

theorem exec_readLoop (hbs : 0 < fs.blockSize)
    (hok : fs.InodeOk s.disk use ino inode) (hlt : offset + size < 2 ^ 32)
    (hfuel : size < fuel + done) (hdone : done ≤ size) :
    (fs.readLoop inode offset size fuel done).exec s =
      some (fs.fileBytes s.disk inode (offset + done) (size - done), s) := by
  induction fuel generalizing done with
  | zero => omega
  | succ fuel ih =>
    rw [readLoop]
    split_ifs with hend
    · rw [Nat.sub_eq_zero_of_le hend]
      rfl
    have hcur : (offset + done) % 2 ^ 32 = offset + done := Nat.mod_eq_of_lt (by omega)
    have hmod := Nat.mod_lt (offset + done) hbs
    simp only [hcur, exec_bind, exec_extentGetBlock hok, bind_some]
    generalize hto : min (fs.blockSize - (offset + done) % fs.blockSize) (size - done) = n
    rw [exec_readPiece (by omega) hbs, bind_some, ih (by omega) (by omega), bind_some,
      exec_pure, show size - done = n + (size - (done + n)) by omega, fileBytes_add,
      Nat.add_assoc]

theorem exec_read (hbs : 0 < fs.blockSize)
    (hok : fs.InodeOk s.disk use f.ino f.inode) (hlt : offset + size < 2 ^ 32) :
    (fs.read f offset size).exec s =
      some (fs.fileBytes s.disk f.inode offset (min size (f.size - offset)), s) := by
  rw [read]
  by_cases hend : f.size ≤ offset
  · rw [if_pos hend, Nat.sub_eq_zero_of_le hend, Nat.min_zero]
    rfl
  have hn : (if f.size < (offset + size) % 2 ^ 32 then f.size - offset else size) =
      min size (f.size - offset) := by
    split_ifs <;> omega
  simp only [if_neg hend, hn]
  exact exec_readLoop hbs hok (by omega) (by omega) (Nat.zero_le _)

/-! ## One block of a write -/

/-- Block `l` of file `ino` is mapped to `p`, which may have been allocated for it. -/
structure Ready (fs : Ext4) (live : ℕ → Prop) (ino l p : ℕ) (use use' : ℕ → BlockUse) (m m' : Mem)
    (s s' : Ext4Store) : Prop where
  ne_zero : p ≠ 0
  uses : ∀ b, use b ≠ .free → use' b = use b
  effect : AllocEffect fs use s.disk s'.disk
  consistent : fs.Consistent s'.disk use' live
  inode : fs.InodeOk s'.disk use' ino m'
  map : ∀ x, fs.mapOf s'.disk m' x = if x = l then p else fs.mapOf s.disk m x
  mapped : fs.mapOf s.disk m l ≠ 0 → fs.mapOf s.disk m l = p
  outside : ∀ x, x < 40 ∨ 100 ≤ x → m' x = m x
  events : EventsOk use s.events → EventsOk use' s'.events
  inodes : ∀ n, .allocInode n ∈ s'.events → .allocInode n ∈ s.events

theorem NotMapped.eventsOk (h : NotMapped fs use live s s')
    (hev : EventsOk use s.events) : EventsOk use s'.events := by
  rcases h.events with he | ⟨b, hfree, he⟩
  · rwa [he]
  · rw [he]
    exact hev.giveBack hfree

theorem NotMapped.inodes (h : NotMapped fs use live s s') (n : ℕ)
    (hn : .allocInode n ∈ s'.events) : .allocInode n ∈ s.events := by
  rcases h.events with he | ⟨b, -, he⟩
  · rwa [he] at hn
  · rw [he] at hn
    simpa using hn

theorem exec_mapBlock (hw : fs.WellFormed)
    (h : fs.Consistent s.disk use live) (hok : fs.InodeOk s.disk use ino m) (hl : l + 1 < 2 ^ 32) :
    (∃ s', (fs.mapBlock m l).exec s = some ((0, m), s') ∧ NotMapped fs use live s s') ∨
    ∃ p m' s' use', (fs.mapBlock m l).exec s = some ((p, m'), s') ∧
      Ready fs live ino l p use use' m m' s s' := by
  rw [mapBlock, exec_bind, exec_extentGetBlock hok, bind_some]
  by_cases hmap : fs.mapOf s.disk m l = 0
  · rw [if_neg (not_not.mpr hmap), exec_bind]
    rcases exec_extentAllocateBlocks hw.blocksFit h hok hl hmap with
      ⟨s', hexec, hnot⟩ | ⟨b, m', s', hexec, hm⟩
    · rw [hexec]
      exact .inl ⟨s', rfl, hnot⟩
    have hmap' : fs.mapOf s'.disk m' l = b := by rw [hm.map, if_pos rfl]
    rw [hexec, bind_some, if_pos rfl, exec_bind, exec_extentGetBlock hm.inode, hmap']
    refine .inr ⟨b, m', s', _, rfl, hm.ne_zero, fun c hc => update_use hm.free _ hc, hm.effect,
      hm.consistent, hm.inode, hm.map, fun h0 => absurd hmap h0, hm.outside, fun hev => ?_, ?_⟩
    · rw [hm.events]
      exact hev.alloc hm.free BlockUse.noConfusion
    · rw [hm.events]
      intro n hn
      simpa using hn
  · rw [if_pos hmap]
    refine .inr ⟨_, m, s, use, rfl, hmap, fun _ _ => rfl, .refl, h, hok, fun x => ?_, fun _ => rfl,
      fun _ _ => rfl, id, fun _ => id⟩
    split_ifs with hx
    · rw [hx]
    · rfl

theorem exec_writePiece (s : Ext4Store) (p : ℕ) (data : Mem) {a : ℕ} (hn : a + n ≤ fs.blockSize) :
    ∃ v, (fs.writePiece p a n data).exec s = some ((), s.put p v) ∧
      ∀ x < fs.blockSize, v x = if a ≤ x ∧ x < a + n then data (x - a) else s.disk p x := by
  rw [writePiece]
  split_ifs with hpart
  · refine ⟨_, rfl, fun x hx => ?_⟩
    rw [Mem.copy]
    split_ifs
    · rfl
    · exact (Mem.slice_apply hx).trans (by rw [Nat.zero_add])
  · refine ⟨_, rfl, fun x hx => ?_⟩
    have hin : a ≤ x ∧ x < a + n := by omega
    rw [Mem.copy_apply hin.1 hin.2, if_pos hin]

section Bytes

variable {d : ℕ → Mem} {ino l p : ℕ} {m : Mem} {v : Mem}

theorem InodeOk.mapOf_put (hok : fs.InodeOk d use ino m) (hp : use p = .data ino l) (x : ℕ) :
    fs.mapOf (Function.update d p v) m x = fs.mapOf d m x := by
  refine hok.mapOf_congr fun b hb => Function.update_of_ne ?_ _ _
  rintro rfl
  rw [hp] at hb
  cases hb

theorem InodeOk.fileByte_put (hok : fs.InodeOk d use ino m) (hp : use p = .data ino l)
    (hmap : fs.mapOf d m l = p) (hne : p ≠ 0) (x : ℕ) :
    fs.fileByte (Function.update d p v) m x =
      if x / fs.blockSize = l then v (x % fs.blockSize) else fs.fileByte d m x := by
  rw [fileByte, hok.mapOf_put hp, fileByte]
  split_ifs with h0 hl hl
  · rw [hl, hmap] at h0
    exact absurd h0 hne
  · rfl
  · rw [hl, hmap, Function.update_self]
  · refine congrFun (Function.update_of_ne ?_ _ _) _
    intro heq
    have hu := hok.use_mapOf h0
    rw [heq, hp] at hu
    exact hl (BlockUse.data.inj hu).2.symm

end Bytes

theorem Ready.fileByte {p : ℕ} {m' : Mem}
    (h : Ready fs live ino l p use use' m m' s s') (hok : fs.InodeOk s.disk use ino m)
    (hx : fs.mapOf s.disk m (x / fs.blockSize) ≠ 0) :
    fs.fileByte s'.disk m' x = fs.fileByte s.disk m x := by
  have hmap : fs.mapOf s'.disk m' (x / fs.blockSize) = fs.mapOf s.disk m (x / fs.blockSize) := by
    rw [h.map]
    split_ifs with hl
    · rw [hl] at hx ⊢
      exact (h.mapped hx).symm
    · rfl
  have hu := hok.use_mapOf hx
  rw [Ext4.fileByte, hmap, h.effect.keep _ (fun g => ?_) fun k => ?_, Ext4.fileByte]
  · rw [hu]
    exact BlockUse.noConfusion
  · rw [hu]
    exact BlockUse.noConfusion

/-! ## The loop -/

/-- What holds in the loop of `write` after `done` bytes; `m₀` and `s₀` are from before it. -/
structure WriteInv (fs : Ext4) (live : ℕ → Prop) (ino offset : ℕ) (data : List UInt8)
    (use₀ : ℕ → BlockUse) (m₀ : Mem) (s₀ : Ext4Store) (done : ℕ) (use : ℕ → BlockUse) (m : Mem)
    (s : Ext4Store) : Prop where
  consistent : fs.Consistent s.disk use live
  inode : fs.InodeOk s.disk use ino m
  uses : ∀ b, use₀ b ≠ .free → use b = use₀ b
  tables : SameTables fs s₀.disk s.disk
  keep : ∀ c, use₀ c ≠ .free → (∀ g, use₀ c ≠ .blockBitmap g) → (∀ k, use₀ c ≠ .desc k) →
    (∀ l, use₀ c ≠ .data ino l) → s.disk c = s₀.disk c
  map : ∀ x, fs.mapOf s₀.disk m₀ x ≠ 0 → fs.mapOf s.disk m x = fs.mapOf s₀.disk m₀ x
  written : offset + data.length < 2 ^ 32 → ∀ x, offset ≤ x → x < offset + done →
    fs.mapOf s.disk m (x / fs.blockSize) ≠ 0 ∧ fs.fileByte s.disk m x = data.getD (x - offset) 0
  old : offset + data.length < 2 ^ 32 → ∀ x, x < offset ∨ offset + done ≤ x →
    fs.mapOf s₀.disk m₀ (x / fs.blockSize) ≠ 0 →
    fs.fileByte s.disk m x = fs.fileByte s₀.disk m₀ x
  outside : ∀ x, x < 40 ∨ 100 ≤ x → m x = m₀ x
  events : EventsOk use₀ s₀.events → EventsOk use s.events
  inodes : ∀ n, .allocInode n ∈ s.events → .allocInode n ∈ s₀.events

namespace WriteInv

variable {ino offset : ℕ} {data : List UInt8} {use₀ : ℕ → BlockUse} {m₀ m : Mem} {s₀ : Ext4Store}
  {done : ℕ}

theorem init (offset : ℕ) (data : List UInt8) (h : fs.Consistent s₀.disk use₀ live)
    (hok : fs.InodeOk s₀.disk use₀ ino m₀) :
    WriteInv fs live ino offset data use₀ m₀ s₀ 0 use₀ m₀ s₀ :=
  ⟨h, hok, fun _ _ => rfl, fun _ _ => rfl, fun _ _ _ _ _ => rfl, fun _ _ => rfl,
    fun _ x h1 h2 => by omega, fun _ _ _ _ => rfl, fun _ _ => rfl, id, fun _ => id⟩

theorem stop (h : WriteInv fs live ino offset data use₀ m₀ s₀ done use m s)
    (hnot : NotMapped fs use live s s') :
    WriteInv fs live ino offset data use₀ m₀ s₀ done use m s' := by
  have htree : ∀ b, use b = .tree ino → s'.disk b = s.disk b := by
    intro b hb
    refine hnot.effect.keep b (fun g => ?_) fun k => ?_ <;>
    · rw [hb]
      exact BlockUse.noConfusion
  have hbyte : ∀ x, fs.fileByte s'.disk m x = fs.fileByte s.disk m x := by
    intro x
    rw [fileByte, h.inode.mapOf_congr htree, fileByte]
    split_ifs with h0
    · rfl
    · have hu := h.inode.use_mapOf h0
      rw [hnot.effect.keep _ (fun g => ?_) fun k => ?_] <;>
      · rw [hu]
        exact BlockUse.noConfusion
  refine ⟨hnot.consistent, h.inode.congr htree fun _ _ => rfl, h.uses,
    fun g hg => (hnot.effect.tables g hg).trans (h.tables g hg), fun c h0 h1 h2 h3 => ?_,
    fun x hx => ?_, fun hlt x h1 h2 => ?_, fun hlt x hx hm => ?_, h.outside,
    fun hev => hnot.eventsOk (h.events hev), fun n hn => h.inodes n (hnot.inodes n hn)⟩
  · rw [← h.keep c h0 h1 h2 h3]
    rw [← h.uses c h0] at h1 h2
    exact hnot.effect.keep c h1 h2
  · rw [h.inode.mapOf_congr htree, h.map x hx]
  · rw [h.inode.mapOf_congr htree, hbyte]
    exact h.written hlt x h1 h2
  · rw [hbyte]
    exact h.old hlt x hx hm

section Step

variable {cur p n : ℕ} {use' : ℕ → BlockUse} {m' v : Mem} {s' : Ext4Store}

theorem step (h : WriteInv fs live ino offset data use₀ m₀ s₀ done use m s) (hbs : 0 < fs.blockSize)
    (hcur : offset + data.length < 2 ^ 32 → cur = offset + done)
    (hr : Ready fs live ino (cur / fs.blockSize) p use use' m m' s s')
    (hn : cur % fs.blockSize + n ≤ fs.blockSize)
    (hv : ∀ x < fs.blockSize, v x =
      if cur % fs.blockSize ≤ x ∧ x < cur % fs.blockSize + n then
        Mem.ofBytes (data.drop done) (x - cur % fs.blockSize) else s'.disk p x) :
    WriteInv fs live ino offset data use₀ m₀ s₀ (done + n) use' m' (s'.put p v) := by
  have hmapp : fs.mapOf s'.disk m' (cur / fs.blockSize) = p := by rw [hr.map, if_pos rfl]
  have hup : use' p = .data ino (cur / fs.blockSize) := by
    have := hr.inode.use_mapOf (hmapp.trans_ne hr.ne_zero)
    rwa [hmapp] at this
  have hmap : ∀ x, fs.mapOf (s'.put p v).disk m' x = fs.mapOf s'.disk m' x := hr.inode.mapOf_put hup
  have hbyte := hr.inode.fileByte_put (v := v) hup hmapp hr.ne_zero
  have hmap' : ∀ x, fs.mapOf s.disk m x ≠ 0 → fs.mapOf s'.disk m' x = fs.mapOf s.disk m x := by
    intro x hx
    rw [hr.map]
    split_ifs with hxl
    · rw [hxl] at hx ⊢
      exact (hr.mapped hx).symm
    · rfl
  -- a byte that is mapped and not written now is as before this turn
  have hsame : ∀ x, fs.mapOf s.disk m (x / fs.blockSize) ≠ 0 → x < cur ∨ cur + n ≤ x →
      fs.fileByte (s'.put p v).disk m' x = fs.fileByte s.disk m x := by
    intro x hx hout
    have hready := hr.fileByte h.inode hx
    refine (hbyte x).trans ?_
    split_ifs with hxl
    · have hmod := Nat.mod_lt x hbs
      have hx' := Nat.div_add_mod x fs.blockSize
      have hc := Nat.div_add_mod cur fs.blockSize
      rw [hxl] at hx'
      rw [hv _ hmod, if_neg (by omega), ← hready, fileByte, hxl, hmapp, if_neg hr.ne_zero]
    · exact hready
  refine ⟨hr.consistent.put (.inr ⟨_, _, hup⟩), hr.inode.congr (fun b hb => ?_) fun _ _ => rfl,
    fun b hb => ?_, fun g hg => ?_, fun c h0 h1 h2 h3 => ?_, fun x hx => ?_, fun hlt x h1 h2 => ?_,
    fun hlt x hx hm => ?_, fun x hx => (hr.outside x hx).trans (h.outside x hx),
    fun hev => hr.events (h.events hev), fun k hk => h.inodes k (hr.inodes k hk)⟩
  · refine Store.put_disk_of_ne ?_
    rintro rfl
    rw [hup] at hb
    cases hb
  · have hu := h.uses b hb
    rw [hr.uses b (hu ▸ hb), hu]
  · rw [Store.put_disk_of_ne, hr.effect.tables g hg, h.tables g hg]
    rintro rfl
    rw [hr.consistent.desc g hg] at hup
    cases hup
  · have hu := h.uses c h0
    have hu' := hr.uses c (hu ▸ h0)
    rw [Store.put_disk_of_ne, hr.effect.keep c (hu ▸ h1) (hu ▸ h2), h.keep c h0 h1 h2 h3]
    rintro rfl
    rw [hu', hu] at hup
    exact h3 _ hup
  · have hm := h.map x hx
    rw [hmap, hmap' x (hm ▸ hx), hm]
  · have hc := hcur hlt
    by_cases hx : x < cur
    · obtain ⟨hm, hb⟩ := h.written hlt x h1 (hc ▸ hx)
      rw [hmap, hmap' _ hm, hsame x hm (.inl hx)]
      exact ⟨hm, hb⟩
    -- a byte that is written now
    obtain ⟨k, rfl⟩ := Nat.exists_eq_add_of_le (not_lt.mp hx)
    obtain ⟨hdiv, hmod⟩ := div_mod_add (show cur % fs.blockSize + k < fs.blockSize by omega)
    rw [hmap, hdiv, hmapp]
    refine ⟨hr.ne_zero, (hbyte _).trans ?_⟩
    rw [if_pos hdiv, hmod, hv _ (by omega), if_pos ⟨by omega, by omega⟩, Nat.add_sub_cancel_left,
      Mem.ofBytes, getD_eq_getElem?_getD, getElem?_drop, ← getD_eq_getElem?_getD]
    congr 1
    omega
  · have hm' := h.map _ hm
    rw [hsame x (hm' ▸ hm) (by omega)]
    exact h.old hlt x (by omega) hm

end Step

end WriteInv

theorem exec_writeLoop (fuel : ℕ) (hw : fs.WellFormed)
    {use₀ : ℕ → BlockUse} {m₀ : Mem} {s₀ : Ext4Store}
    (hfuel : data.length < fuel + done) (hdone : done ≤ data.length)
    (h : WriteInv fs live ino offset data use₀ m₀ s₀ done use m s) :
    ∃ n m' s' use', (fs.writeLoop offset data fuel done m).exec s = some ((n, m'), s') ∧
      n ≤ data.length ∧ WriteInv fs live ino offset data use₀ m₀ s₀ n use' m' s' := by
  have hbs : 1 < fs.blockSize := lt_of_lt_of_le (by norm_num) hw.desc_fits
  induction fuel generalizing done m s use with
  | zero => omega
  | succ fuel ih =>
    rw [writeLoop]
    by_cases hend : data.length ≤ done
    · rw [if_pos hend]
      exact ⟨done, m, s, use, rfl, hdone, h⟩
    have hcur : offset + data.length < 2 ^ 32 → (offset + done) % 2 ^ 32 = offset + done :=
      fun hlt => Nat.mod_eq_of_lt (by omega)
    have hlt : (offset + done) % 2 ^ 32 < 2 ^ 32 := Nat.mod_lt _ (by norm_num)
    simp only [if_neg hend, exec_bind]
    generalize (offset + done) % 2 ^ 32 = cur at hcur hlt ⊢
    have hmod := Nat.mod_lt cur (Nat.zero_lt_of_lt hbs)
    have hl : cur / fs.blockSize + 1 < 2 ^ 32 := by
      have := Nat.div_le_div_left (c := 2) hbs (a := cur) (by norm_num)
      omega
    rcases exec_mapBlock hw h.consistent h.inode hl with ⟨s', hexec, hnot⟩ | ⟨p, m', s', use', hexec, hr⟩
    · rw [hexec]
      exact ⟨done, m, s', use, rfl, hdone, h.stop hnot⟩
    rw [hexec, bind_some, if_neg hr.ne_zero]
    generalize hto : min (fs.blockSize - cur % fs.blockSize) (data.length - done) = n
    obtain ⟨v, hpiece, hv⟩ := exec_writePiece s' p (Mem.ofBytes (data.drop done))
      (show cur % fs.blockSize + n ≤ fs.blockSize by omega)
    rw [exec_bind, hpiece, bind_some]
    exact ih (by omega) (by omega) (h.step (Nat.zero_lt_of_lt hbs) hcur hr (by omega) hv)

/-! ## The call -/

/-- The object holds the inode that is on the disk. -/
structure Current (fs : Ext4) (d : ℕ → Mem) (f : Ext4Node) : Prop where
  inode : f.inode = fs.inodeOf d f.ino
  size : f.size = inodeSizeOf f.inode

/-- Every block below the size of the file is mapped. -/
def Filled (fs : Ext4) (d : ℕ → Mem) (f : Ext4Node) : Prop :=
  ∀ l, l * fs.blockSize < f.size → fs.mapOf d f.inode l ≠ 0

section AfterWrite

variable {f : Ext4Node} {m : Mem} {stop : ℕ}

@[simp]
theorem afterWrite_ino : (f.afterWrite m stop).ino = f.ino := by
  rw [Ext4Node.afterWrite]
  split_ifs <;> rfl

@[simp]
theorem afterWrite_isDir : (f.afterWrite m stop).isDir = f.isDir := by
  rw [Ext4Node.afterWrite]
  split_ifs <;> rfl

theorem afterWrite_size : (f.afterWrite m stop).size = max f.size stop := by
  rw [Ext4Node.afterWrite]
  split_ifs <;> simp only <;> omega

theorem afterWrite_inode (hx : x < iSizeLo ∨ iSizeLo + 4 ≤ x) : (f.afterWrite m stop).inode x = m x := by
  rw [Ext4Node.afterWrite]
  split_ifs
  · exact Mem.writeLE_apply_of_notMem hx
  · rfl

theorem sameNode_afterWrite : SameNode m (f.afterWrite m stop).inode :=
  fun _ h1 _ => afterWrite_inode (.inr (le_trans (by norm_num) h1))

theorem inodeSizeOf_afterWrite (hsize : f.size = inodeSizeOf f.inode) (hstop : stop < 2 ^ 32)
    (hm : ∀ x, x < 40 ∨ 100 ≤ x → m x = f.inode x) :
    (f.afterWrite m stop).size = inodeSizeOf (f.afterWrite m stop).inode := by
  rw [Ext4Node.afterWrite]
  split_ifs
  · rw [inodeSizeOf, Mem.readLE_writeLE, Nat.add_mul_mod_self_left, Nat.mod_eq_of_lt (by omega),
      Nat.mod_eq_of_lt (by omega)]
  have hlo : m.readLE iSizeLo 4 = f.inode.readLE iSizeLo 4 :=
    Mem.readLE_congr fun i hi => hm _ (.inl (by simp only [iSizeLo]; omega))
  have hhi : m.readLE iSizeHigh 4 = f.inode.readLE iSizeHigh 4 :=
    Mem.readLE_congr fun i hi => hm _ (.inr (by simp only [iSizeHigh]; omega))
  rw [inodeSizeOf, hlo, hhi, hsize, inodeSizeOf]

end AfterWrite

structure Wrote (fs : Ext4) (live : ℕ → Prop) (f : Ext4Node) (offset : ℕ) (data : List UInt8)
    (use use' : ℕ → BlockUse) (s s' : Ext4Store) (n : ℕ) (f' : Ext4Node) : Prop where
  le : n ≤ data.length
  ino : f'.ino = f.ino
  isDir : f'.isDir = f.isDir
  size : f'.size = max f.size ((offset + n) % 2 ^ 32)
  consistent : fs.Consistent s'.disk use' live
  inode : f'.inode = fs.inodeOf s'.disk f.ino
  inodeSize : f.size = inodeSizeOf f.inode → f'.size = inodeSizeOf f'.inode
  uses : ∀ b, use b ≠ .free → use' b = use b
  tables : SameTables fs s.disk s'.disk
  keep : ∀ c, use c ≠ .free → (∀ g, use c ≠ .blockBitmap g) → (∀ k, use c ≠ .desc k) →
    (∀ g k, use c ≠ .inodeTable g k) → (∀ l, use c ≠ .data f.ino l) → s'.disk c = s.disk c
  others : ∀ j, 0 < j → fs.inodeGroup j < fs.groupsCount → j ≠ f.ino →
    fs.inodeOf s'.disk j = fs.inodeOf s.disk j
  map : ∀ x, fs.mapOf s.disk f.inode x ≠ 0 → fs.mapOf s'.disk f'.inode x = fs.mapOf s.disk f.inode x
  written : offset + data.length < 2 ^ 32 → ∀ x, offset ≤ x → x < offset + n →
    fs.mapOf s'.disk f'.inode (x / fs.blockSize) ≠ 0 ∧
      fs.fileByte s'.disk f'.inode x = data.getD (x - offset) 0
  old : offset + data.length < 2 ^ 32 → ∀ x, x < offset ∨ offset + n ≤ x →
    fs.mapOf s.disk f.inode (x / fs.blockSize) ≠ 0 →
    fs.fileByte s'.disk f'.inode x = fs.fileByte s.disk f.inode x
  outside : ∀ x, x < iSizeLo ∨ iSizeLo + 4 ≤ x → x < 40 ∨ 100 ≤ x → f'.inode x = f.inode x
  events : EventsOk use s.events → EventsOk use' s'.events
  inodes : ∀ k, .allocInode k ∈ s'.events → .allocInode k ∈ s.events

theorem exec_write (hw : fs.WellFormed) (h : fs.Consistent s.disk use live)
    (hlive : live f.ino) (hok : fs.InodeOk s.disk use f.ino f.inode) (offset : ℕ)
    (data : List UInt8) :
    ∃ n f' s' use', (fs.write f offset data).exec s = some ((n, f'), s') ∧
      Wrote fs live f offset data use use' s s' n f' := by
  obtain ⟨h0, hg⟩ := h.live_pos f.ino hlive
  obtain ⟨n, m, s₁, use', hexec, hn, hinv⟩ := exec_writeLoop (data.length + 1) hw (by omega)
    (Nat.zero_le _) (WriteInv.init offset data h hok)
  generalize hf' : f.afterWrite m ((offset + n) % 2 ^ 32) = f'
  have hino : f'.ino = f.ino := hf' ▸ afterWrite_ino
  have hnode : SameNode m f'.inode := hf' ▸ sameNode_afterWrite
  have hout : ∀ x, x < iSizeLo ∨ iSizeLo + 4 ≤ x → f'.inode x = m x :=
    fun x hx => hf' ▸ afterWrite_inode hx
  have hshort : f'.inode.slice 0 inodeBytes = f'.inode :=
    Mem.slice_eq_self_of_eq hinv.inode.short fun x hx => hout x (.inr (le_trans (by norm_num) hx))
  have hok' : fs.InodeOk s₁.disk use' f.ino f'.inode := hinv.inode.sameNode hnode hshort
  have hwrite := hinv.consistent.write hw h0 hg hok'
  -- the inode tables hold no byte of the file and no node of its tree
  have hdata : ∀ b, use' b ≠ .free → (∀ g k, use' b ≠ .inodeTable g k) →
      fs.withInode s₁.disk f.ino f'.inode b = s₁.disk b :=
    fun b _ hb => hinv.consistent.withInode_of_use h0 hg hb
  have hmap : ∀ x, fs.mapOf (fs.withInode s₁.disk f.ino f'.inode) f'.inode x = fs.mapOf s₁.disk m x := by
    intro x
    rw [hok'.mapOf_congr fun b hb => ?_, hnode.mapOf_eq fun hu => (hinv.inode.entries hu).1]
    exact hdata b (by rw [hb]; exact BlockUse.noConfusion) fun _ _ => by
      rw [hb]
      exact BlockUse.noConfusion
  have hbyte : ∀ x, fs.fileByte (fs.withInode s₁.disk f.ino f'.inode) f'.inode x =
      fs.fileByte s₁.disk m x := by
    intro x
    rw [fileByte, hmap, fileByte]
    split_ifs with hx
    · rfl
    · have hu := hinv.inode.use_mapOf hx
      rw [hdata _ (by rw [hu]; exact BlockUse.noConfusion) fun _ _ => by
        rw [hu]
        exact BlockUse.noConfusion]
  refine ⟨n, f', ⟨fs.withInode s₁.disk f.ino f'.inode, s₁.events⟩, use', ?_, ?_⟩
  · rw [write, exec_bind, hexec, bind_some]
    simp only [hf', exec_bind, exec_writeInode, bind_some, exec_pure, hino]
    rfl
  refine ⟨hn, hino, hf' ▸ afterWrite_isDir, hf' ▸ afterWrite_size,
    { hwrite with
      live_pos := fun j hj => hwrite.live_pos j (.inl hj)
      inodes := fun j hj => hwrite.inodes j (.inl hj) },
    ?_, fun hsize => ?_, hinv.uses, fun g hg' => ?_, fun c h0' h1 h2 h3 h4 => ?_,
    fun j hj hgj hne => ?_, fun x hx => (hmap x).trans (hinv.map x hx), fun hlt x h1 h2 => ?_,
    fun hlt x h1 h2 => (hbyte x).trans (hinv.old hlt x h1 h2),
    fun x h1 h2 => (hout x h1).trans (hinv.outside x h2), hinv.events, hinv.inodes⟩
  · exact ((hinv.consistent.inodeOf_withInode h0 hg).trans hshort).symm
  · rw [← hf']
    exact inodeSizeOf_afterWrite hsize (Nat.mod_lt _ (by norm_num)) hinv.outside
  · exact (hinv.consistent.sameTables_withInode h0 hg g hg').trans (hinv.tables g hg')
  · have hu := hinv.uses c h0'
    exact (hdata c (hu ▸ h0') (hu ▸ h3)).trans (hinv.keep c h0' h1 h2 h4)
  · refine (hinv.consistent.inodeOf_withInode_of_ne hw h0 hg hj hgj hne).trans ?_
    refine h.inodeOf_eq hinv.tables (fun b g k hb => ?_) hj hgj
    refine hinv.keep b ?_ ?_ ?_ ?_ <;> simp [hb]
  · obtain ⟨hm, hb⟩ := hinv.written hlt x h1 h2
    exact ⟨(hmap _).trans_ne hm, (hbyte x).trans hb⟩

/-! ## Reading on two volumes -/

section Same

variable {s' : Ext4Store} {use' : ℕ → BlockUse} {m : Mem} {ino : ℕ}

theorem exec_readLoop_same (hbs : 0 < fs.blockSize) (hok : fs.InodeOk s.disk use ino m)
    (hok' : fs.InodeOk s'.disk use' ino m)
    (hmap : ∀ l, fs.mapOf s'.disk m l = fs.mapOf s.disk m l)
    (hdata : ∀ l, fs.mapOf s.disk m l ≠ 0 → s'.disk (fs.mapOf s.disk m l) = s.disk (fs.mapOf s.disk m l))
    (done : ℕ) (hfuel : size < fuel + done) (hdone : done ≤ size) :
    ∃ l, (fs.readLoop m offset size fuel done).exec s = some (l, s) ∧
      (fs.readLoop m offset size fuel done).exec s' = some (l, s') := by
  induction fuel generalizing done with
  | zero => omega
  | succ fuel ih =>
    rw [readLoop]
    by_cases hend : size ≤ done
    · rw [if_pos hend]
      exact ⟨[], rfl, rfl⟩
    simp only [if_neg hend, exec_bind, exec_extentGetBlock hok, exec_extentGetBlock hok',
      bind_some, hmap]
    generalize (offset + done) % 2 ^ 32 = cur
    have hmod := Nat.mod_lt cur hbs
    generalize hto : min (fs.blockSize - cur % fs.blockSize) (size - done) = n
    obtain ⟨rest, hrest, hrest'⟩ := ih (done + n) (by omega) (by omega)
    -- the piece is the same on both volumes
    obtain ⟨piece, hpiece, hpiece'⟩ : ∃ piece,
        (fs.readPiece (fs.mapOf s.disk m (cur / fs.blockSize)) (cur % fs.blockSize) n).exec s =
          some (piece, s) ∧
        (fs.readPiece (fs.mapOf s.disk m (cur / fs.blockSize)) (cur % fs.blockSize) n).exec s' =
          some (piece, s') := by
      rw [readPiece]
      split_ifs with h0
      · exact ⟨_, rfl, rfl⟩
      · refine ⟨_, rfl, ?_⟩
        rw [exec_bind, exec_readBlock, hdata _ h0]
        rfl
    rw [hpiece, hpiece', bind_some, bind_some, hrest, hrest']
    exact ⟨piece ++ rest, rfl, rfl⟩

end Same

theorem exec_read_same (hbs : 0 < fs.blockSize)
    (hok : fs.InodeOk s.disk use f.ino f.inode) (hok' : fs.InodeOk s'.disk use' f.ino f.inode)
    (hblk : ∀ b, use b = .tree f.ino ∨ (∃ l, use b = .data f.ino l) → s'.disk b = s.disk b)
    (offset size : ℕ) :
    ∃ l, (fs.read f offset size).exec s = some (l, s) ∧
      (fs.read f offset size).exec s' = some (l, s') := by
  rw [read]
  by_cases hend : f.size ≤ offset
  · rw [if_pos hend]
    exact ⟨[], rfl, rfl⟩
  · rw [if_neg hend]
    refine exec_readLoop_same hbs hok hok' (fun l => hok.mapOf_congr fun b hb => hblk b (.inl hb))
      (fun l hl => hblk _ (.inr ⟨l, hok.use_mapOf hl⟩)) 0 (by omega) (Nat.zero_le _)

/-! ## The law -/

theorem Filled.mapped (h : fs.Filled d f) (hx : x < f.size) :
    fs.mapOf d f.inode (x / fs.blockSize) ≠ 0 :=
  h _ (lt_of_le_of_lt (Nat.div_mul_le_self x fs.blockSize) hx)

theorem fileBytes_eq_take (hn : n ≤ data.length)
    (h : ∀ x, offset ≤ x → x < offset + n → fs.fileByte d m x = data.getD (x - offset) 0) :
    fs.fileBytes d m offset n = data.take n := by
  refine ext_getElem (by simp [fileBytes, hn]) fun k h1 h2 => ?_
  have hk : k < n := by simpa [fileBytes] using h1
  simp only [fileBytes, getElem_map, getElem_range, getElem_take]
  rw [h _ (Nat.le_add_right _ _) (by omega), Nat.add_sub_cancel_left,
    getD_eq_getElem?_getD, getElem?_eq_getElem (by omega), getD_some]

section Law

variable {f f' : Ext4Node} {offset n : ℕ} {data : List UInt8} {use' : ℕ → BlockUse} {s' : Ext4Store}
  (h : Wrote fs live f offset data use use' s s' n f')
include h

theorem Wrote.current (hf : fs.Current s.disk f) : fs.Current s'.disk f' :=
  ⟨by rw [h.inode, h.ino], h.inodeSize hf.size⟩

theorem Wrote.inodeOk (hlive : live f.ino) : fs.InodeOk s'.disk use' f'.ino f'.inode := by
  rw [h.ino, h.inode]
  exact h.consistent.inodes f.ino hlive

theorem Wrote.filled (hbs : 0 < fs.blockSize) (hfull : fs.Filled s.disk f) (hoff : offset ≤ f.size)
    (hlen : offset + data.length < 2 ^ 32) : fs.Filled s'.disk f' := by
  have hle := h.le
  intro l hl
  rw [h.size, Nat.mod_eq_of_lt (by omega)] at hl
  by_cases hold : l * fs.blockSize < f.size
  · rw [h.map l (hfull l hold)]
    exact hfull l hold
  · have := (h.written hlen (l * fs.blockSize) (by omega) (by omega)).1
    rwa [Nat.mul_div_cancel _ hbs] at this

theorem Wrote.read_written (hlive : live f.ino)
    (hbs : 0 < fs.blockSize) (hlen : offset + data.length < 2 ^ 32) :
    (fs.read f' offset n).exec s' = some (data.take n, s') := by
  have hle := h.le
  have hsize := h.size
  rw [exec_read hbs (h.inodeOk hlive) (by omega), Nat.min_eq_left (by omega),
    fileBytes_eq_take hle fun x h1 h2 => (h.written hlen x h1 h2).2]

theorem Wrote.read_old (hlive : live f.ino)
    (hbs : 0 < fs.blockSize) (hok : fs.InodeOk s.disk use f.ino f.inode)
    (hfull : fs.Filled s.disk f) (hsize : f.size < 2 ^ 32) (hlen : offset + data.length < 2 ^ 32)
    (hx : x + k ≤ f.size) (hout : x + k ≤ offset ∨ offset + n ≤ x) :
    (fs.read f x k).exec s = some (fs.fileBytes s.disk f.inode x k, s) ∧
      (fs.read f' x k).exec s' = some (fs.fileBytes s.disk f.inode x k, s') := by
  have hsize' := h.size
  rw [exec_read hbs hok (by omega), exec_read hbs (h.inodeOk hlive) (by omega),
    Nat.min_eq_left (by omega), Nat.min_eq_left (by omega)]
  refine ⟨rfl, congrArg some (Prod.ext (map_congr_left fun i hi => ?_) rfl)⟩
  have hi' := mem_range.mp hi
  exact h.old hlen (x + i) (by omega) (hfull.mapped (by omega))

theorem Wrote.read_other (hcons : fs.Consistent s.disk use live) (hbs : 0 < fs.blockSize) {g : Ext4Node}
    (hlive : live g.ino) (hne : g.ino ≠ f.ino) (hg : fs.Current s.disk g) :
    fs.Current s'.disk g ∧ ∀ x k, ∃ l, (fs.read g x k).exec s = some (l, s) ∧
      (fs.read g x k).exec s' = some (l, s') := by
  obtain ⟨h0, hgroup⟩ := hcons.live_pos g.ino hlive
  have hinode : g.inode = fs.inodeOf s'.disk g.ino := by
    rw [h.others g.ino h0 hgroup hne]
    exact hg.inode
  have hok : fs.InodeOk s.disk use g.ino g.inode := by
    rw [hg.inode]
    exact hcons.inodes g.ino hlive
  have hok' : fs.InodeOk s'.disk use' g.ino g.inode := by
    rw [hinode]
    exact h.consistent.inodes g.ino hlive
  refine ⟨⟨hinode, hg.size⟩, exec_read_same hbs hok hok' fun b hb => ?_⟩
  · rcases hb with hb | ⟨l, hb⟩
    · refine h.keep b ?_ ?_ ?_ ?_ ?_ <;> simp [hb]
    · refine h.keep b ?_ ?_ ?_ ?_ ?_ <;> simp [hb, hne]

end Law

/-- **The law of a write** to a file without holes, at most at its end: what was written reads back, the
other bytes and files are as before, and the volume stays consistent. -/
theorem write_read_law (s : Ext4Store) (offset : ℕ) (data : List UInt8) (hw : fs.WellFormed)
    (h : fs.Consistent s.disk use live) {f : Ext4Node} (hlive : live f.ino)
    (hf : fs.Current s.disk f) (hfull : fs.Filled s.disk f) (hoff : offset ≤ f.size)
    (hlen : offset + data.length < 2 ^ 32) :
    ∃ n f' s', (fs.write f offset data).exec s = some ((n, f'), s') ∧ n ≤ data.length ∧
      f'.size = max f.size (offset + n) ∧
      (fs.read f' offset n).exec s' = some (data.take n, s') ∧
      (∀ x k, x + k ≤ f.size → x + k ≤ offset ∨ offset + n ≤ x →
        ∃ l, (fs.read f x k).exec s = some (l, s) ∧ (fs.read f' x k).exec s' = some (l, s')) ∧
      (∀ g : Ext4Node, live g.ino → g.ino ≠ f.ino → fs.Current s.disk g →
        fs.Current s'.disk g ∧ ∀ x k, ∃ l, (fs.read g x k).exec s = some (l, s) ∧
          (fs.read g x k).exec s' = some (l, s')) ∧
      f'.ino = f.ino ∧ fs.Current s'.disk f' ∧ fs.Filled s'.disk f' ∧
      ∃ use', fs.Consistent s'.disk use' live := by
  have hbs : 0 < fs.blockSize := lt_of_lt_of_le (by norm_num) hw.desc_fits
  have hok : fs.InodeOk s.disk use f.ino f.inode := by
    rw [hf.inode]
    exact h.inodes f.ino hlive
  have hsize : f.size < 2 ^ 32 := by
    rw [hf.size]
    exact Nat.mod_lt _ (by norm_num)
  obtain ⟨n, f', s', use', hexec, hwr⟩ := exec_write hw h hlive hok offset data
  have hle := hwr.le
  refine ⟨n, f', s', hexec, hle, ?_, hwr.read_written hlive hbs hlen, fun x k hx hout => ?_,
    fun g hg hne hcur => hwr.read_other h hbs hg hne hcur, hwr.ino, hwr.current hf,
    hwr.filled hbs hfull hoff hlen, use', hwr.consistent⟩
  · rw [hwr.size, Nat.mod_eq_of_lt (by omega)]
  · exact ⟨_, hwr.read_old hlive hbs hok hfull hsize hlen hx hout⟩

def smallFile : Ext4Node :=
  ⟨false, 12, small.inodeOf smallDisk 12, inodeSizeOf (small.inodeOf smallDisk 12)⟩

theorem small_current : small.Current smallDisk smallFile := ⟨rfl, rfl⟩

theorem small_filled : small.Filled smallDisk smallFile := by
  intro l hl
  have hsize : smallFile.size = 1024 := by decide +kernel
  have hl0 : l = 0 := by
    simp only [small] at hl
    omega
  subst hl0
  decide +kernel

/-- A write across the end of `f`. -/
theorem write_read_law_small :
    ∃ n f' s', (small.write smallFile 1023 [1, 2]).exec ⟨smallDisk, []⟩ = some ((n, f'), s') ∧
      f'.size = max smallFile.size (1023 + n) ∧
      (small.read f' 1023 n).exec s' = some ([1, 2].take n, s') := by
  obtain ⟨n, f', s', hexec, -, hsize, hread, -⟩ :=
    write_read_law ⟨smallDisk, []⟩ 1023 [1, 2] small_wellFormed small_consistent
      (show smallLive 12 by simp [smallLive]) small_current small_filled (by decide +kernel) (by decide)
  exact ⟨n, f', s', hexec, hsize, hread⟩

end Ext4

end KeonOS
