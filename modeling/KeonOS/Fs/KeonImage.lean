import KeonOS.Fs.Clamp

/-!
# What the mount of an initrd image checks

The constructor of `KeonFS_MountNode` follows the headers of an image. It compares the end of the data of
each file with `fs_size`, with a sum of 32 bits, and takes the positions of the headers as they are.

* **`keonLoop_eq_some`**: an image that is mounted has been followed along its chain;
* **`keon_image_safe_iff`**: the images for which they do.
-/

namespace KeonOS

open List

/-! ## The chain of headers -/

/-- `info->total_files` and `info->fs_size` -/
def keonTotal (m : Mem) : ℕ := m.readLE 4 4
def keonFsSize (m : Mem) : ℕ := m.readLE 12 4

/-- `hdr->next_header` -/
def keonNext (m : Mem) (hdr : ℕ) : ℕ := m.readLE (hdr + 76) 4

/-- The headers that the loop of the constructor reads, with `count` children so far. -/
def keonVisited (m : Mem) (fsSize : ℕ) : ℕ → ℕ → ℕ → List ℕ
  | 0, _, _ => []
  | n + 1, hdr, count =>
    hdr ::
      if fsSize < (m.readLE (hdr + 72) 4 + m.readLE (hdr + 68) 4) % 2 ^ 32 then []
      else if 128 ≤ count then []
      else if keonNext m hdr = 0 then []
      else keonVisited m fsSize n (keonNext m hdr) (count + 1)

def keonHeaderAt (m : Mem) (i : ℕ) : ℕ := (keonNext m)^[i] keonInfoSize

def Reached (m : Mem) (i : ℕ) : Prop := i < keonTotal m ∧ ∀ j < i, keonHeaderAt m (j + 1) ≠ 0

section Loop

variable {m : Mem} {fsSize n hdr : ℕ} {children cs : List KeonFile}

theorem keonLoop_eq_some (h : keonLoop m fsSize n hdr children = some cs) :
    cs = children ++ (keonVisited m fsSize n hdr children.length).map (keonChild m) ∧
      (∀ x ∈ keonVisited m fsSize n hdr children.length,
        ((keonChild m x).data + (keonChild m x).size) % 2 ^ 32 ≤ fsSize) ∧
      ∀ x, x ∈ keonVisited m fsSize n hdr children.length ↔
        ∃ k < n, (∀ j < k, (keonNext m)^[j + 1] hdr ≠ 0) ∧ x = (keonNext m)^[k] hdr := by
  induction n generalizing hdr children with
  | zero =>
    rw [keonLoop, Option.some.injEq] at h
    refine ⟨?_, ?_, fun x => ⟨?_, ?_⟩⟩
    · rw [← h, keonVisited, map_nil, append_nil]
    · simp [keonVisited]
    · simp [keonVisited]
    · rintro ⟨k, hk, -⟩
      exact absurd hk (Nat.not_lt_zero k)
  | succ n ih =>
    rw [keonLoop] at h
    rw [keonVisited]
    split_ifs at h with hrange hcount hnext
    · rw [if_neg hrange, if_neg hcount, if_pos (show keonNext m hdr = 0 from hnext)]
      rw [Option.some.injEq] at h
      refine ⟨h.symm, ?_, fun x => ?_⟩
      · exact forall_mem_singleton.mpr (not_lt.mp hrange)
      rw [mem_singleton]
      constructor
      · rintro rfl
        exact ⟨0, Nat.succ_pos n, by simp, rfl⟩
      · rintro ⟨k, -, hne, rfl⟩
        cases k with
        | zero => rfl
        | succ k => exact absurd hnext (hne 0 (Nat.succ_pos k))
    rw [if_neg hrange, if_neg hcount, if_neg (show ¬ keonNext m hdr = 0 from hnext)]
    obtain ⟨hcs, hsum, hmem⟩ := ih h
    rw [length_append, length_singleton] at hcs hsum hmem
    refine ⟨?_, ?_, fun x => ?_⟩
    · rw [hcs, map_cons, append_assoc]
      rfl
    · exact forall_mem_cons.mpr ⟨not_lt.mp hrange, hsum⟩
    rw [mem_cons]
    constructor
    · rintro (rfl | hx)
      · exact ⟨0, Nat.succ_pos n, by simp, rfl⟩
      obtain ⟨k, hk, hne, rfl⟩ := (hmem x).mp hx
      refine ⟨k + 1, Nat.succ_lt_succ hk, fun j hj => ?_, rfl⟩
      cases j with
      | zero => exact hnext
      | succ j => exact hne j (Nat.lt_of_succ_lt_succ hj)
    · rintro ⟨k, hk, hne, rfl⟩
      cases k with
      | zero => exact .inl rfl
      | succ k =>
        exact .inr ((hmem _).mpr ⟨k, Nat.lt_of_succ_lt_succ hk,
          fun j hj => hne (j + 1) (Nat.succ_lt_succ hj), rfl⟩)

end Loop

/-! ## Safety -/

/-- The headers, the data of the files and what a read copies stay inside `fs_size` bytes. -/
structure ImageSafe (m : Mem) (children : List KeonFile) (offset size : ℕ) : Prop where
  headers : ∀ hdr ∈ keonVisited m (keonFsSize m) (keonTotal m) keonInfoSize 0,
    hdr + keonHeaderSize ≤ keonFsSize m
  ranges : ∀ c ∈ children, c.data + c.size ≤ keonFsSize m
  reads : ∀ c ∈ children, ∀ p ∈ c.positions offset size, c.data + p < keonFsSize m

/-- The headers of the image are inside it, and no sum of `offset` and `size` in them wraps. -/
def ImageSound (m : Mem) : Prop := ∀ i, Reached m i → keonHeaderAt m i + keonHeaderSize ≤ keonFsSize m ∧
    m.readLE (keonHeaderAt m i + 72) 4 + m.readLE (keonHeaderAt m i + 68) 4 < 2 ^ 32

section Safe

variable {m : Mem} {children : List KeonFile} {offset size : ℕ}

theorem keon_read_inside_iff {c : KeonFile} (hsize : size < 2 ^ 32) {fsSize : ℕ}
    (hfs : fsSize < 2 ^ 32) (hrange : c.data + c.size ≤ fsSize) :
    (∀ p ∈ c.positions offset size, c.data + p < fsSize) ↔ c.size ≤ offset ∨ offset + size < 2 ^ 32 := by
  constructor
  · intro h
    by_contra hno
    push Not at hno
    obtain ⟨hlt, hsum⟩ := hno
    obtain ⟨hclamp, -⟩ := clampSize_of_ge (by omega) hsize hlt hsum
    have hlast : offset + size - 1 ∈ c.positions offset size := by
      rw [KeonFile.positions, if_neg (by omega), hclamp, mem_range'_1]
      omega
    have := h _ hlast
    omega
  · intro h p hp
    have := ((KeonFile.clamped_iff (by omega) hsize).mpr h).inside p hp
    omega

/-- **Which mounted images are safe.** -/
theorem keon_image_safe_iff (hmount : keonMount m = some children) (hsize : size < 2 ^ 32) :
    ImageSafe m children offset size ↔ ImageSound m ∧ (offset + size < 2 ^ 32 ∨
        ∀ i, Reached m i → m.readLE (keonHeaderAt m i + 68) 4 ≤ offset) := by
  rw [keonMount] at hmount
  split_ifs at hmount
  obtain ⟨hcs, hsum, hmem⟩ := keonLoop_eq_some hmount
  have hvisited : ∀ x, x ∈ keonVisited m (keonFsSize m) (keonTotal m) keonInfoSize 0 ↔
      ∃ i, Reached m i ∧ x = keonHeaderAt m i := by
    intro x
    refine (hmem x).trans ⟨?_, ?_⟩
    · rintro ⟨k, hk, hne, rfl⟩
      exact ⟨k, ⟨hk, hne⟩, rfl⟩
    · rintro ⟨k, ⟨hk, hne⟩, rfl⟩
      exact ⟨k, hk, hne, rfl⟩
  have hchild : ∀ i, Reached m i → keonChild m (keonHeaderAt m i) ∈ children := by
    intro i hi
    rw [hcs, nil_append]
    exact mem_map_of_mem ((hvisited _).mpr ⟨i, hi, rfl⟩)
  have hfs : keonFsSize m < 2 ^ 32 := m.readLE_lt 12 4
  constructor
  · rintro ⟨hheaders, hranges, hreads⟩
    refine ⟨fun i hi => ⟨hheaders _ ((hvisited _).mpr ⟨i, hi, rfl⟩), ?_⟩, ?_⟩
    · exact lt_of_le_of_lt (hranges _ (hchild i hi)) hfs
    by_contra hno
    push Not at hno
    obtain ⟨hwrap, i, hi, hlt⟩ := hno
    have hc := hchild i hi
    rcases (keon_read_inside_iff hsize hfs (hranges _ hc)).mp (hreads _ hc) with h | h
    · exact absurd hlt (not_lt.mpr h)
    · omega
  rintro ⟨hsound, hread⟩
  have hrange : ∀ i, Reached m i → (keonChild m (keonHeaderAt m i)).data +
      (keonChild m (keonHeaderAt m i)).size ≤ keonFsSize m := by
    intro i hi
    have hwrap : (keonChild m (keonHeaderAt m i)).data + (keonChild m (keonHeaderAt m i)).size <
        2 ^ 32 := (hsound i hi).2
    have hle := hsum _ ((hvisited _).mpr ⟨i, hi, rfl⟩)
    rwa [Nat.mod_eq_of_lt hwrap] at hle
  have hchildren : ∀ c ∈ children, ∃ i, Reached m i ∧ c = keonChild m (keonHeaderAt m i) := by
    intro c hc
    rw [hcs, nil_append, List.mem_map] at hc
    obtain ⟨x, hx, rfl⟩ := hc
    obtain ⟨i, hi, rfl⟩ := (hvisited x).mp hx
    exact ⟨i, hi, rfl⟩
  refine ⟨fun x hx => ?_, fun c hc => ?_, fun c hc => ?_⟩
  · obtain ⟨i, hi, rfl⟩ := (hvisited x).mp hx
    exact (hsound i hi).1
  · obtain ⟨i, hi, rfl⟩ := hchildren c hc
    exact hrange i hi
  · obtain ⟨i, hi, rfl⟩ := hchildren c hc
    refine (keon_read_inside_iff hsize hfs (hrange i hi)).mpr ?_
    rcases hread with h | h
    · exact .inr h
    · exact .inl (h i hi)

end Safe

def oneHeader (fsSize size offset : ℕ) : Mem :=
  Mem.ofBytes (infoBytes 1 fsSize ++ headerBytes [0x61] size offset 0)

theorem keon_image_safe_one : ImageSafe (oneHeader 120 4 116) [⟨[0x61], 4, 116⟩] 1 100 := by
  refine (keon_image_safe_iff (by decide +kernel) (by norm_num)).mpr ⟨fun i hi => ?_, .inl (by norm_num)⟩
  have htotal : keonTotal (oneHeader 120 4 116) = 1 := by decide +kernel
  obtain rfl : i = 0 := by
    have := hi.1
    omega
  decide +kernel

/-- The sum of offset `2 ^ 32 - 16` and size `20` wraps to 4. -/
theorem keon_image_unsafe :
    keonMount (oneHeader 120 20 (2 ^ 32 - 16)) = some [⟨[0x61], 20, 2 ^ 32 - 16⟩] ∧
      ¬ ImageSafe (oneHeader 120 20 (2 ^ 32 - 16)) [⟨[0x61], 20, 2 ^ 32 - 16⟩] 0 0 := by
  have hfs : keonFsSize (oneHeader 120 20 (2 ^ 32 - 16)) = 120 := by decide +kernel
  refine ⟨by decide +kernel, fun h => ?_⟩
  have := h.ranges _ (mem_singleton_self _)
  rw [hfs] at this
  norm_num at this

end KeonOS
