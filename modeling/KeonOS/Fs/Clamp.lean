import KeonOS.Fs.KeonFs
import KeonOS.Fat.Model
import KeonOS.Ext4.Atomic

/-!
# The length of a read

The three `read` methods cut the length down to the end of the file by comparing `offset + size` with
the size of the file. The sum has 32 bits: when it wraps, nothing is cut off.

* `clampSize`, **`clampSize_le_iff`**: the comparison;
* **`read_clamped_iff`**: which reads are clamped.
-/

namespace KeonOS

open List

/-! ## The comparison -/

/-- `(offset + size > this->size) ? (this->size - offset) : size` -/
def clampSize (fileSize offset size : ℕ) : ℕ :=
  if fileSize < (offset + size) % 2 ^ 32 then fileSize - offset else size

section Clamp

variable {S offset size : ℕ}

theorem clampSize_le : clampSize S offset size ≤ size := by
  unfold clampSize
  split_ifs <;> omega

theorem clampSize_of_lt (h : offset + size < 2 ^ 32) : clampSize S offset size ≤ S - offset := by
  unfold clampSize
  split_ifs <;> omega

theorem clampSize_of_ge (hS : S < 2 ^ 32) (hsize : size < 2 ^ 32) (hoffset : offset < S)
    (h : 2 ^ 32 ≤ offset + size) : clampSize S offset size = size ∧ S - offset < size := by
  have hmod : (offset + size) % 2 ^ 32 = offset + size - 2 ^ 32 := by omega
  unfold clampSize
  rw [hmod, if_neg (by omega)]
  exact ⟨rfl, by omega⟩

theorem clampSize_le_iff (hS : S < 2 ^ 32) (hsize : size < 2 ^ 32) (hoffset : offset < S) :
    clampSize S offset size ≤ S - offset ↔ offset + size < 2 ^ 32 := by
  refine ⟨fun hle => ?_, clampSize_of_lt⟩
  by_contra hge
  obtain ⟨heq, hlt⟩ := clampSize_of_ge hS hsize hoffset (by omega)
  omega

end Clamp

/-- What a read may do: `positions` are the positions in the file of the bytes that it copies. -/
structure Clamped (fileSize offset size : ℕ) (positions : List ℕ) : Prop where
  past : fileSize ≤ offset → positions = []
  count : positions.length ≤ min size (fileSize - offset)
  inside : ∀ p ∈ positions, p < fileSize

variable {S offset size n fuel : ℕ}

theorem Clamped.nil : Clamped S offset size [] := ⟨fun _ => rfl, Nat.zero_le _, by simp⟩

theorem clamped_range_iff (hoffset : offset < S) (hn : n ≤ size) :
    Clamped S offset size (List.range' offset n) ↔ n ≤ S - offset := by
  constructor
  · intro h
    have := h.count
    rw [length_range'] at this
    omega
  intro h
  refine ⟨fun hle => by omega, ?_, fun p hp => ?_⟩
  · rw [length_range']
    omega
  · have := (mem_range'_1.mp hp).2
    omega

theorem bytesAt_eq_map (m : Mem) (a n : ℕ) : m.bytesAt a n = (List.range' a n).map m := by
  rw [List.range'_eq_map_range, List.map_map]
  rfl

theorem mapM_eq_some {α β : Type} {f : α → Option β} {g : α → β} {l : List α}
    (h : ∀ a ∈ l, f a = some (g a)) : l.mapM f = some (l.map g) := by
  induction l with
  | nil => rfl
  | cons a l ih =>
    rw [mapM_cons, h a (mem_cons_self ..), ih fun b hb => h b (mem_cons_of_mem a hb)]
    rfl

/-! ## The initrd -/

/-- The positions that `KeonFS_File::read` copies. -/
def KeonFile.positions (f : KeonFile) (offset size : ℕ) : List ℕ :=
  if f.size ≤ offset then [] else List.range' offset (clampSize f.size offset size)

theorem KeonFile.read_eq (m : Mem) (f : KeonFile) (offset size : ℕ) :
    f.read m offset size = (f.positions offset size).map fun p => m (f.data + p) := by
  unfold KeonFile.read KeonFile.positions
  by_cases h : f.size ≤ offset
  · rw [if_pos h, if_pos h]
    rfl
  · rw [if_neg h, if_neg h]
    change m.bytesAt _ (clampSize f.size offset size) = _
    rw [bytesAt_eq_map, List.range'_eq_map_range, List.range'_eq_map_range, List.map_map, List.map_map]
    simp [Nat.add_assoc]

theorem KeonFile.clamped_iff {f : KeonFile} (hS : f.size < 2 ^ 32) (hsize : size < 2 ^ 32) :
    Clamped f.size offset size (f.positions offset size) ↔ f.size ≤ offset ∨ offset + size < 2 ^ 32 := by
  unfold KeonFile.positions
  by_cases hoffset : f.size ≤ offset
  · rw [if_pos hoffset]
    exact iff_of_true .nil (.inl hoffset)
  · rw [if_neg hoffset, clamped_range_iff (by omega) clampSize_le,
      clampSize_le_iff hS hsize (by omega), or_iff_right hoffset]

/-! ## FAT32 -/

namespace Fat32

variable (fs : Fat32)

def clusterAt (d : FatDisk) (f : FatFile) (i : ℕ) : ℕ := (fs.getNextCluster d)^[i] f.firstCluster

/-- The byte that `FAT32_File::read` takes for position `p`. -/
def sourceByte (d : FatDisk) (f : FatFile) (p : ℕ) : UInt8 :=
  d.read (fs.clusterToLba (fs.clusterAt d f (p / fs.clusterSize))) fs.sectorsPerCluster
    (p % fs.clusterSize)

/-- The positions that `FAT32_File::read` copies: from `offset` on, as many as it returns. -/
def positions (f : FatFile) (offset size : ℕ) (d : FatDisk) : List ℕ :=
  List.range' offset (fs.readFile f offset size d).length

def EndsInside (f : FatFile) (offset : ℕ) (d : FatDisk) : Prop :=
  ∃ i, offset / fs.clusterSize < i ∧ i * fs.clusterSize ≤ f.size ∧ endMark ≤ fs.clusterAt d f i

variable {fs} {d : FatDisk} {f : FatFile}

theorem clusterAt_succ (i : ℕ) : fs.clusterAt d f (i + 1) = fs.getNextCluster d (fs.clusterAt d f i) :=
  Function.iterate_succ_apply' _ _ _

variable {i inner : ℕ}

theorem bytesAt_cluster (hn : inner + n ≤ fs.clusterSize) :
    (d.read (fs.clusterToLba (fs.clusterAt d f i)) fs.sectorsPerCluster).bytesAt inner n =
      (List.range' (i * fs.clusterSize + inner) n).map (fs.sourceByte d f) := by
  rw [bytesAt_eq_map, List.range'_eq_map_range, List.range'_eq_map_range, List.map_map, List.map_map]
  refine map_congr_left fun k hk => ?_
  have hk' := mem_range.mp hk
  have hpos : 0 < fs.clusterSize := by omega
  have hdiv : (i * fs.clusterSize + inner + k) / fs.clusterSize = i := by
    rw [Nat.add_assoc, Nat.mul_comm, Nat.mul_add_div hpos, Nat.div_eq_of_lt (by omega), Nat.add_zero]
  have hmod : (i * fs.clusterSize + inner + k) % fs.clusterSize = inner + k := by
    rw [Nat.add_assoc, Nat.mul_comm, Nat.mul_add_mod, Nat.mod_eq_of_lt (by omega)]
  simp only [Function.comp_apply, sourceByte, hdiv, hmod]

theorem not_start_lt {k : ℕ} (hn : n ≤ fs.clusterSize) (hk : i < k) :
    ¬ k * fs.clusterSize < i * fs.clusterSize + n := by
  have := Nat.mul_le_mul_right fs.clusterSize (Nat.succ_le_of_lt hk)
  rw [Nat.succ_mul] at this
  omega

/-- **The loop of `FAT32_File::read`** copies less than `rest` bytes only if the chain ends there. -/
theorem readLoop_eq {rest : ℕ} (hinner : inner < fs.clusterSize) (hfuel : rest ≤ fuel) : ∃ n ≤ rest,
      fs.readLoop d fuel (fs.clusterAt d f i) inner rest =
        (List.range' (i * fs.clusterSize + inner) n).map (fs.sourceByte d f) ∧
      ((n = rest ∧ ∀ k, i < k → k * fs.clusterSize < i * fs.clusterSize + inner + rest →
          fs.clusterAt d f k < endMark) ∨
        n < rest ∧ ∃ k, i < k ∧ k * fs.clusterSize = i * fs.clusterSize + inner + n ∧
          endMark ≤ fs.clusterAt d f k ∧ ∀ j, i < j → j < k → fs.clusterAt d f j < endMark) := by
  induction fuel generalizing i inner rest with
  | zero =>
    obtain rfl : rest = 0 := by omega
    refine ⟨0, le_rfl, rfl, .inl ⟨rfl, fun k hk hlt => absurd hlt ?_⟩⟩
    exact not_start_lt hinner.le hk
  | succ fuel ih =>
    rw [readLoop]
    by_cases hrest : rest = 0
    · rw [if_pos hrest]
      refine ⟨0, Nat.zero_le _, rfl, .inl ⟨hrest.symm, fun k hk hlt => absurd hlt ?_⟩⟩
      rw [hrest]
      exact not_start_lt hinner.le hk
    rw [if_neg hrest]
    by_cases hfits : rest ≤ fs.clusterSize - inner
    · simp only [Nat.min_eq_right hfits, Nat.sub_self, if_true]
      refine ⟨rest, le_rfl, bytesAt_cluster (by omega), .inl ⟨rfl, fun k hk hlt => absurd hlt ?_⟩⟩
      rw [Nat.add_assoc]
      exact not_start_lt (by omega) hk
    have hmin : min (fs.clusterSize - inner) rest = fs.clusterSize - inner := by omega
    have hstep : (i + 1) * fs.clusterSize = i * fs.clusterSize + inner + (fs.clusterSize - inner) := by
      rw [Nat.succ_mul]
      omega
    simp only [hmin, ← clusterAt_succ]
    rw [if_neg (by omega)]
    by_cases hend : endMark ≤ fs.clusterAt d f (i + 1)
    · rw [if_pos hend]
      exact ⟨fs.clusterSize - inner, by omega, bytesAt_cluster (by omega),
        .inr ⟨by omega, i + 1, Nat.lt_succ_self i, hstep, hend, fun j h1 h2 => by omega⟩⟩
    rw [if_neg hend]
    have hpos : 0 < fs.clusterSize := by omega
    obtain ⟨n, hn, hloop, hcases⟩ : ∃ n ≤ rest - (fs.clusterSize - inner), _ ∧ _ := ih hpos (by omega)
    refine ⟨fs.clusterSize - inner + n, by omega, ?_, ?_⟩
    · rw [hloop, bytesAt_cluster (by omega), ← map_append, Nat.add_zero, hstep, List.range'_append_1]
    rcases hcases with ⟨hall, hbelow⟩ | ⟨hless, k, hk, heq, hlast, hbelow⟩
    · refine .inl ⟨by omega, fun k hk hlt => ?_⟩
      rcases Nat.lt_or_eq_of_le (Nat.succ_le_of_lt hk) with h | rfl
      · exact hbelow k h (by omega)
      · exact not_le.mp hend
    · refine .inr ⟨by omega, k, by omega, by omega, hlast, fun j h1 h2 => ?_⟩
      rcases Nat.lt_or_eq_of_le (Nat.succ_le_of_lt h1) with h | rfl
      · exact hbelow j h h2
      · exact not_le.mp hend

theorem readFile_eq (hpos : 0 < fs.clusterSize) (offset size : ℕ) :
    fs.readFile f offset size d = (fs.positions f offset size d).map (fs.sourceByte d f) := by
  unfold positions
  by_cases hoffset : f.size ≤ offset
  · rw [readFile, if_pos hoffset]
    rfl
  obtain ⟨n, -, hloop, -⟩ := readLoop_eq (d := d) (f := f) (i := offset / fs.clusterSize)
    (Nat.mod_lt offset hpos) (le_refl (clampSize f.size offset size))
  have hread : fs.readFile f offset size d = (List.range' offset n).map (fs.sourceByte d f) := by
    rw [Nat.div_add_mod'] at hloop
    rwa [readFile, if_neg hoffset]
  rw [hread, length_map, length_range']

theorem clamped_iff (hpos : 0 < fs.clusterSize) (hS : f.size < 2 ^ 32) (hsize : size < 2 ^ 32) :
    Clamped f.size offset size (fs.positions f offset size d) ↔
      f.size ≤ offset ∨ offset + size < 2 ^ 32 ∨ fs.EndsInside f offset d := by
  by_cases hoffset : f.size ≤ offset
  · refine iff_of_true ?_ (.inl hoffset)
    rw [positions, readFile, if_pos hoffset]
    exact .nil
  obtain ⟨n, hn, hloop, hcases⟩ := readLoop_eq (d := d) (f := f) (i := offset / fs.clusterSize)
    (Nat.mod_lt offset hpos) (le_refl (clampSize f.size offset size))
  rw [Nat.div_add_mod'] at hloop hcases
  have hlen : (fs.readFile f offset size d).length = n := by
    rw [readFile, if_neg hoffset]
    change (fs.readLoop d (clampSize f.size offset size)
      (fs.clusterAt d f (offset / fs.clusterSize)) _ (clampSize f.size offset size)).length = n
    rw [hloop, length_map, length_range']
  rw [positions, hlen, clamped_range_iff (by omega) (hn.trans clampSize_le), or_iff_right hoffset]
  by_cases hsum : offset + size < 2 ^ 32
  · exact iff_of_true (hn.trans (clampSize_of_lt hsum)) (.inl hsum)
  obtain ⟨hclamp, hlt⟩ := clampSize_of_ge hS hsize (not_le.mp hoffset) (not_lt.mp hsum)
  rw [or_iff_right hsum]
  constructor
  · intro hle
    rcases hcases with ⟨hall, -⟩ | ⟨-, k, hk, heq, hlast, -⟩
    · omega
    · exact ⟨k, hk, by omega, hlast⟩
  rintro ⟨i, hi, hin, hlast⟩
  rcases hcases with ⟨-, hbelow⟩ | ⟨-, k, hk, heq, -, hbelow⟩
  · exact absurd hlast (not_le.mpr (hbelow i hi (by omega)))
  have hki : k ≤ i := by
    by_contra hgt
    exact absurd hlast (not_le.mpr (hbelow i hi (by omega)))
  have := Nat.mul_le_mul_right fs.clusterSize hki
  omega

end Fat32

/-! ## ext4 -/

namespace Ext4

variable (fs : Ext4)

/-- The byte that `Ext4File::read` takes for position `p`; a hole reads as zero. -/
def sourceByte (d : ℕ → Mem) (inode : Mem) (p : ℕ) : Option UInt8 :=
  (fs.blockOf d inode (p / fs.blockSize)).map fun b => if b = 0 then 0 else d b (p % fs.blockSize)

/-- The positions that the loop of `Ext4File::read` copies, with `done` of `size` bytes read. -/
def loopPositions (offset size : ℕ) : ℕ → ℕ → List ℕ
  | 0, _ => []
  | fuel + 1, done =>
    if size ≤ done then []
    else
      let current := (offset + done) % 2 ^ 32
      let toRead := min (fs.blockSize - current % fs.blockSize) (size - done)
      List.range' current toRead ++ loopPositions offset size fuel (done + toRead)

/-- The positions that `Ext4File::read` copies. -/
def positions (f : Ext4Node) (offset size : ℕ) : List ℕ :=
  if f.size ≤ offset then []
  else fs.loopPositions offset (clampSize f.size offset size) (clampSize f.size offset size + 1) 0

variable {fs} {s : Ext4Store}

theorem exec_readPiece_eq {physical a : ℕ} (hn : a + n ≤ fs.blockSize) :
    (fs.readPiece physical a n).exec s =
      some ((List.range n).map fun k => if physical = 0 then 0 else s.disk physical (a + k), s) := by
  rw [readPiece]
  split_ifs with h0
  · simp
  · refine congrArg some (Prod.ext (map_congr_left fun k hk => ?_) rfl)
    have hk' := mem_range.mp hk
    exact (Mem.slice_apply (by omega)).trans (by rw [Nat.zero_add])

variable {inode : Mem} {done current : ℕ}

theorem exec_readLoop_succ {toRead : ℕ}
    (hbs : 0 < fs.blockSize) (hdone : done < size) (hcur : (offset + done) % 2 ^ 32 = current)
    (hto : min (fs.blockSize - current % fs.blockSize) (size - done) = toRead) :
    (fs.readLoop inode offset size (fuel + 1) done).exec s =
      (fs.blockOf s.disk inode (current / fs.blockSize)).bind fun b =>
        ((fs.readLoop inode offset size fuel (done + toRead)).exec s).map fun r =>
          ((List.range toRead).map (fun k =>
            if b = 0 then 0 else s.disk b (current % fs.blockSize + k)) ++ r.1, r.2) := by
  have hmod := Nat.mod_lt current hbs
  rw [readLoop, if_neg (by omega)]
  simp only [hcur, hto, BlockM.exec_bind]
  rw [(readOnly_extentGetBlock _ _).exec_eq, blockOf]
  cases (fs.extentGetBlock inode (current / fs.blockSize)).exec ⟨s.disk, []⟩ with
  | none => rfl
  | some r =>
    simp only [Option.map_some, Option.bind_some, exec_readPiece_eq
      (show current % fs.blockSize + toRead ≤ fs.blockSize by omega), BlockM.exec_pure]
    cases (fs.readLoop inode offset size fuel (done + toRead)).exec s <;> rfl

theorem mapM_piece {d : ℕ → Mem} (hpos : 0 < n) (hn : current % fs.blockSize + n ≤ fs.blockSize) :
    (List.range' current n).mapM (fs.sourceByte d inode) =
      (fs.blockOf d inode (current / fs.blockSize)).map fun b =>
        (List.range n).map fun k => if b = 0 then 0 else d b (current % fs.blockSize + k) := by
  have hsource : ∀ k < n, fs.sourceByte d inode (current + k) =
      (fs.blockOf d inode (current / fs.blockSize)).map fun b =>
        if b = 0 then 0 else d b (current % fs.blockSize + k) := by
    intro k hk
    obtain ⟨hdiv, hpos⟩ := div_mod_add (show current % fs.blockSize + k < fs.blockSize by omega)
    rw [sourceByte, hdiv, hpos]
  cases hb : fs.blockOf d inode (current / fs.blockSize) with
  | none =>
    obtain ⟨n, rfl⟩ : ∃ k, n = k + 1 := ⟨n - 1, by omega⟩
    have hfirst : fs.sourceByte d inode current = none := by simpa [hb] using hsource 0 hpos
    rw [List.range'_succ, mapM_cons, hfirst]
    rfl
  | some b =>
    rw [List.range'_eq_map_range, mapM_map]
    exact mapM_eq_some fun k hk => by
      rw [Function.comp_apply, hsource k (mem_range.mp hk), hb, Option.map_some]

/-- **The loop of `Ext4File::read`** returns the bytes, unless the search for a block does not end. -/
theorem exec_readLoop_eq (hbs : 0 < fs.blockSize) (hfuel : size < fuel + done) (hdone : done ≤ size) :
    (fs.readLoop inode offset size fuel done).exec s =
      ((fs.loopPositions offset size fuel done).mapM (fs.sourceByte s.disk inode)).map (·, s) := by
  induction fuel generalizing done with
  | zero => omega
  | succ fuel ih =>
    rw [loopPositions]
    by_cases hend : size ≤ done
    · rw [readLoop, if_pos hend, if_pos hend]
      rfl
    rw [if_neg hend]
    simp only
    generalize hcur : (offset + done) % 2 ^ 32 = current
    generalize hto : min (fs.blockSize - current % fs.blockSize) (size - done) = toRead
    have hmod := Nat.mod_lt current hbs
    rw [exec_readLoop_succ hbs (by omega) hcur hto, ih (by omega) (by omega), mapM_append,
      mapM_piece (by omega) (by omega)]
    cases fs.blockOf s.disk inode (current / fs.blockSize) with
    | none => rfl
    | some b =>
      cases (fs.loopPositions offset size fuel (done + toRead)).mapM (fs.sourceByte s.disk inode) <;>
        rfl

theorem length_loopPositions (hbs : 0 < fs.blockSize)
    (hfuel : size < fuel + done) (hdone : done ≤ size) :
    (fs.loopPositions offset size fuel done).length = size - done := by
  induction fuel generalizing done with
  | zero => omega
  | succ fuel ih =>
    rw [loopPositions]
    split_ifs with hend
    · rw [Nat.sub_eq_zero_of_le hend]
      rfl
    · have hmod := Nat.mod_lt ((offset + done) % 2 ^ 32) hbs
      rw [length_append, length_range', ih (by omega) (by omega)]
      omega

theorem loopPositions_lt (hsum : offset + size < 2 ^ 32) :
    ∀ p ∈ fs.loopPositions offset size fuel done, p < offset + size := by
  induction fuel generalizing done with
  | zero => simp [loopPositions]
  | succ fuel ih =>
    rw [loopPositions]
    split_ifs with hend
    · simp
    intro p hp
    rcases mem_append.mp hp with hp | hp
    · have := (mem_range'_1.mp hp).2
      omega
    · exact ih p hp

theorem exec_read_eq (hbs : 0 < fs.blockSize) (f : Ext4Node) (offset size : ℕ) :
    (fs.read f offset size).exec s =
      ((fs.positions f offset size).mapM (fs.sourceByte s.disk f.inode)).map (·, s) := by
  unfold positions
  rw [read]
  by_cases hoffset : f.size ≤ offset
  · rw [if_pos hoffset, if_pos hoffset]
    rfl
  · rw [if_neg hoffset, if_neg hoffset]
    exact exec_readLoop_eq hbs (by exact Nat.lt_succ_self _) (Nat.zero_le _)

theorem clamped_iff (hbs : 0 < fs.blockSize) {f : Ext4Node} (hS : f.size < 2 ^ 32)
    (hsize : size < 2 ^ 32) :
    Clamped f.size offset size (fs.positions f offset size) ↔
      f.size ≤ offset ∨ offset + size < 2 ^ 32 := by
  unfold positions
  by_cases hoffset : f.size ≤ offset
  · rw [if_pos hoffset]
    exact iff_of_true .nil (.inl hoffset)
  rw [if_neg hoffset, or_iff_right hoffset, ← clampSize_le_iff hS hsize (not_le.mp hoffset)]
  have hlen : (fs.loopPositions offset (clampSize f.size offset size)
      (clampSize f.size offset size + 1) 0).length = clampSize f.size offset size :=
    length_loopPositions hbs (by omega) (Nat.zero_le _)
  constructor
  · intro h
    have := h.count
    omega
  intro hle
  have hcut : clampSize f.size offset size ≤ size := clampSize_le
  refine ⟨fun h => absurd h hoffset, by omega, fun p hp => ?_⟩
  have := loopPositions_lt (by omega) p hp
  omega

end Ext4

/-! ## The three methods -/

/-- **Which reads are clamped**: those with an offset past the end, and those whose sum of offset and size
does not wrap. On FAT32 the end of the chain also stops a read. -/
theorem read_clamped_iff {offset size : ℕ} (hsize : size < 2 ^ 32) :
    (∀ (m : Mem) (f : KeonFile), f.size < 2 ^ 32 →
      f.read m offset size = (f.positions offset size).map (fun p => m (f.data + p)) ∧
      (Clamped f.size offset size (f.positions offset size) ↔
        f.size ≤ offset ∨ offset + size < 2 ^ 32)) ∧
    (∀ (fs : Fat32) (d : FatDisk) (f : FatFile), 0 < fs.sectorsPerCluster → f.size < 2 ^ 32 →
      fs.readFile f offset size d = (fs.positions f offset size d).map (fs.sourceByte d f) ∧
      (Clamped f.size offset size (fs.positions f offset size d) ↔
        f.size ≤ offset ∨ offset + size < 2 ^ 32 ∨ fs.EndsInside f offset d)) ∧
    (∀ (fs : Ext4) (s : Ext4Store) (f : Ext4Node), 0 < fs.blockSize → f.size < 2 ^ 32 →
      (fs.read f offset size).exec s =
        ((fs.positions f offset size).mapM (fs.sourceByte s.disk f.inode)).map (·, s) ∧
      (Clamped f.size offset size (fs.positions f offset size) ↔
        f.size ≤ offset ∨ offset + size < 2 ^ 32)) := by
  refine ⟨fun m f hS => ?_, fun fs d f hpos hS => ?_, fun fs s f hbs hS => ?_⟩
  · exact ⟨f.read_eq m offset size, KeonFile.clamped_iff hS hsize⟩
  · have hcluster : 0 < fs.clusterSize := Nat.mul_pos hpos (by norm_num)
    exact ⟨Fat32.readFile_eq hcluster offset size, Fat32.clamped_iff hcluster hS hsize⟩
  · exact ⟨Ext4.exec_read_eq hbs f offset size, Ext4.clamped_iff hbs hS hsize⟩

def tenBytes : KeonFile := ⟨[], 10, 32⟩

/-- A volume with clusters of one sector, and one with blocks of 1024 bytes. -/
def tenFat : Fat32 := ⟨0, 0, 2, 2, 1, 3⟩

def tenExt4 : Ext4 := ⟨1024, 256, 16, 8192, 32, 1, 1, false⟩

def tenHoles : Ext4Node := ⟨false, 11, fun _ => 0, 10⟩

theorem read_clamped_ten : Clamped 10 4 4 (tenBytes.positions 4 4) ∧
      Clamped 10 4 4 (tenFat.positions ⟨2, 10, 5, 0⟩ 4 4 ⟨fun _ _ => 0, [], []⟩) ∧
      Clamped 10 4 4 (tenExt4.positions tenHoles 4 4) := by
  obtain ⟨hkeon, hfat, hext4⟩ := @read_clamped_iff 4 4 (by norm_num)
  exact ⟨((hkeon (fun _ => 0) tenBytes (by decide)).2).mpr (.inr (by norm_num)),
    ((hfat tenFat _ ⟨2, 10, 5, 0⟩ (by decide) (by norm_num)).2).mpr (.inr (.inl (by norm_num))),
    ((hext4 tenExt4 ⟨fun _ _ => 0, []⟩ tenHoles (by decide) (by decide)).2).mpr (.inr (by norm_num))⟩

/-- The sum `4 + (2 ^ 32 - 1)` wraps to 3, and all of the `2 ^ 32 - 1` bytes are copied. -/
theorem read_not_clamped : (tenBytes.read (fun _ => 0) 4 (2 ^ 32 - 1)).length = 2 ^ 32 - 1 ∧
      ¬ Clamped tenBytes.size 4 (2 ^ 32 - 1) (tenBytes.positions 4 (2 ^ 32 - 1)) := by
  have hsize : tenBytes.size = 10 := rfl
  constructor
  · rw [KeonFile.read_eq, length_map, KeonFile.positions, hsize, if_neg (by norm_num),
      length_range', clampSize]
    norm_num
  · rw [KeonFile.clamped_iff (by rw [hsize]; norm_num) (by norm_num), hsize]
    norm_num

end KeonOS
