import KeonOS.Boot.MemoryMap

/-!
# What is reserved at boot

`pfa_init_from_multiboot2` on any boot information: the count of the used frames, the frames that are
free, those of the kernel, of the bitmap and of the modules, and the place of the bitmap. The bitmap is
put behind the kernel without a look at what lies there, and the pages of a module are counted from its
size alone.

* `overlaps`, **`usedFrames_pfaInit`**: a frame in several entries is counted off for each of them;
* **`boot_reservation_iff`**: when everything that has to be reserved is reserved.
-/

namespace KeonOS

open Word List

/-! ## What has to hold -/

/-- The modules, from `mod_start` up to `mod_end`. -/
def modules : List MultibootTag → List (ℕ × ℕ)
  | [] => []
  | .module modStart modEnd :: tags => (modStart, modEnd) :: modules tags
  | _ :: tags => modules tags

def modulePages (m : ℕ × ℕ) : ℕ := (sub64 m.2 m.1 % 2 ^ 32 + 4095) % 2 ^ 32 / 4096

namespace BootInfo

/-- The fields have their widths, and the kernel is where `linker.ld` puts it. -/
structure Valid (b : BootInfo) : Prop where
  entries : ∀ e ∈ availableEntries b.tags, e.addr < 2 ^ 64 ∧ e.len < 2 ^ 64
  mods : ∀ m ∈ modules b.tags, m.1 < 2 ^ 32 ∧ m.2 < 2 ^ 32
  start : b.kernelStart = 0x100000
  start_le : b.kernelStart ≤ b.kernelEnd
  end_le : b.kernelEnd ≤ 2 ^ 31
  aligned : b.kernelEnd % 4096 = 0

def bitmapStart (b : BootInfo) : ℕ := b.kernelEnd + 0x1000

def bitmapEnd (b : BootInfo) : ℕ := b.bitmapStart + (memUpper b.tags / 4096 / 32 + 1) * 4

end BootInfo

/-- Frame `g` has a byte between the addresses `a` and `z`. -/
def Meets (g a z : ℕ) : Prop := ∃ x, a ≤ x ∧ x < z ∧ x / 4096 = g

def InRegion (tags : List MultibootTag) (g : ℕ) : Prop :=
  ∃ e ∈ availableEntries tags, e.addr ≤ 4096 * g ∧ 4096 * (g + 1) ≤ e.addr + e.len

/-- The number of set bits below `total_frames`. -/
def Pfa.usedCount (p : Pfa) : ℕ := ((Finset.range p.totalFrames).filter fun g => p.isUsed g = true).card

/-- The bitmap has no byte between the addresses `a` and `z`. -/
def BootInfo.BitmapApart (b : BootInfo) (a z : ℕ) : Prop :=
  ∀ x, b.bitmapStart ≤ x → x < b.bitmapEnd → ¬(a ≤ x ∧ x < z)

/-- **What the start of the frame allocator is for**, with boot information of `size` bytes. -/
structure BootReserved (b : BootInfo) (size : ℕ) : Prop where
  count : (pfaInit b).usedFrames = (pfaInit b).usedCount
  free : ∀ g, (pfaInit b).isUsed g = false → InRegion b.tags g
  low : ∀ g, Meets g 0 0x100000 → (pfaInit b).isUsed g = true
  kernel : ∀ g, Meets g b.kernelStart b.kernelEnd → (pfaInit b).isUsed g = true
  bitmap : ∀ g, Meets g b.bitmapStart b.bitmapEnd → (pfaInit b).isUsed g = true
  mods : ∀ m ∈ modules b.tags, ∀ g, Meets g m.1 m.2 → (pfaInit b).isUsed g = true
  apart_mods : ∀ m ∈ modules b.tags, b.BitmapApart m.1 m.2
  apart_info : b.BitmapApart b.mb2 (b.mb2 + size)

/-! ## The count -/

/-- The number of available entries that frame `g` lies in. -/
def coverCount (es : List MmapEntry) (g : ℕ) : ℕ := es.countP fun e => e.firstFrame ≤ g ∧ g < e.lastFrame

/-- How often a frame is in one more entry. -/
def overlaps (tags : List MultibootTag) : ℕ :=
  ∑ g ∈ Finset.range (memUpper tags / 4096), (coverCount (availableEntries tags) g - 1)

theorem sub64_one_add (u : ℕ) : sub64 u 1 + 1 ≡ u [MOD 2 ^ 64] := by
  unfold sub64 Nat.ModEq
  split_ifs <;> omega

variable {n : ℕ} {es : List MmapEntry} {tags : List MultibootTag} {m : ℕ × ℕ}

namespace Pfa

variable {p : Pfa}

theorem usedFrames_clearFrames {f : ℕ} :
    (p.clearFrames f n).usedFrames + n ≡ p.usedFrames [MOD 2 ^ 64] := by
  induction n generalizing p f with
  | zero => rfl
  | succ n ih =>
    exact (ih.add_right 1).trans (sub64_one_add _)

theorem usedFrames_foldl_release (es : List MmapEntry) :
    (es.foldl release p).usedFrames + (es.map fun e => e.lastFrame - e.firstFrame).sum ≡
      p.usedFrames [MOD 2 ^ 64] := by
  induction es generalizing p with
  | nil => rfl
  | cons e es ih =>
    rw [foldl_cons, map_cons, sum_cons, add_left_comm, add_comm]
    exact (ih.add_right _).trans usedFrames_clearFrames

end Pfa

theorem sum_lengths (h : ∀ e ∈ es, e.lastFrame ≤ n) :
    (es.map fun e => e.lastFrame - e.firstFrame).sum = ∑ g ∈ Finset.range n, coverCount es g := by
  induction es with
  | nil => exact Finset.sum_const_zero.symm
  | cons e es ih =>
    obtain ⟨he, hes⟩ := forall_mem_cons.mp h
    have hone : ∑ g ∈ Finset.range n, (if e.firstFrame ≤ g ∧ g < e.lastFrame then 1 else 0) =
        e.lastFrame - e.firstFrame := by
      have hset : (Finset.range n).filter (fun g => e.firstFrame ≤ g ∧ g < e.lastFrame) =
          Finset.Ico e.firstFrame e.lastFrame := by
        ext g
        simp only [Finset.mem_filter, Finset.mem_range, Finset.mem_Ico]
        omega
      rw [← Finset.card_filter, hset, Nat.card_Ico]
    rw [map_cons, sum_cons, ih hes, ← hone, ← Finset.sum_add_distrib]
    refine Finset.sum_congr rfl fun g _ => ?_
    rw [coverCount, coverCount, countP_cons, add_comm]
    simp

theorem coverCount_pos {g : ℕ} : 0 < coverCount es g ↔ ∃ e ∈ es, e.firstFrame ≤ g ∧ g < e.lastFrame := by
  rw [coverCount, countP_pos_iff]
  simp

namespace Pfa

variable {p : Pfa} {k : ℕ}

theorem usedFrames_release_lt (h : p.usedFrames < 2 ^ 64) (es : List MmapEntry) :
    (es.foldl release p).usedFrames < 2 ^ 64 := by
  have hclear : ∀ {n f : ℕ} {p : Pfa}, p.usedFrames < 2 ^ 64 →
      (p.clearFrames f n).usedFrames < 2 ^ 64 := by
    intro n
    induction n with
    | zero => exact fun h => h
    | succ n ih =>
      intro f p h
      refine ih ?_
      change sub64 p.usedFrames 1 < 2 ^ 64
      unfold sub64
      split_ifs <;> omega
  induction es generalizing p with
  | nil => exact h
  | cons e es ih => exact ih (hclear h)

structure OffBy (p : Pfa) (k : ℕ) : Prop where
  lt : p.usedFrames < 2 ^ 64
  count : p.usedFrames + k ≡ p.usedCount [MOD 2 ^ 64]

theorem usedCount_le (p : Pfa) : p.usedCount ≤ p.totalFrames :=
  (Finset.card_filter_le _ _).trans (Finset.card_range _).le

theorem OffBy.eq_iff (h : p.OffBy k) : p.usedFrames = p.usedCount ↔ 2 ^ 64 ∣ k := by
  have hlt : p.usedCount < 2 ^ 64 := p.usedCount_le.trans_lt (p.total_le.trans_lt (by norm_num))
  have hcount : (p.usedFrames + k) % 2 ^ 64 = p.usedCount % 2 ^ 64 := h.count
  have := h.lt
  omega

theorem OffBy.markFrame (h : p.OffBy k) (f : ℕ) : (p.markFrame f).OffBy k := by
  by_cases hf : f < p.totalFrames ∧ p.isUsed f = false
  · have hset : p.markFrame f = p.setBit (f / 32) (f % 32) := by
      rw [Pfa.markFrame, if_pos hf.1, if_pos hf.2]
    have hcount : (p.setBit (f / 32) (f % 32)).usedCount = p.usedCount + 1 := by
      have hins : (Finset.range p.totalFrames).filter
          (fun g => (p.setBit (f / 32) (f % 32)).isUsed g = true) =
          insert f ((Finset.range p.totalFrames).filter fun g => p.isUsed g = true) := by
        ext g
        rw [Finset.mem_filter, Finset.mem_insert, Finset.mem_filter,
          isUsed_setBit (Nat.mod_lt _ (by norm_num)), Nat.div_add_mod', Bool.or_eq_true,
          decide_eq_true_iff, Finset.mem_range]
        constructor
        · rintro ⟨hg, rfl | hused⟩
          · exact .inl rfl
          · exact .inr ⟨hg, hused⟩
        · rintro (rfl | ⟨hg, hused⟩)
          · exact ⟨hf.1, .inl rfl⟩
          · exact ⟨hg, .inr hused⟩
      rw [usedCount, totalFrames_setBit, hins, Finset.card_insert_of_notMem (by simp [hf.2])]
      rfl
    rw [hset]
    refine ⟨Nat.mod_lt _ (by norm_num), ?_⟩
    rw [hcount]
    refine Nat.ModEq.trans ?_ (h.count.add_right 1)
    rw [add_right_comm]
    exact (Nat.mod_modEq _ _).add_right k
  · have hsame : p.markFrame f = p := by
      rw [Pfa.markFrame]
      split_ifs with h1 h2
      · exact absurd ⟨h1, h2⟩ hf
      · rfl
      · rfl
    rwa [hsame]

theorem OffBy.mark (h : p.OffBy k) (rs : List (ℕ × ℕ)) :
    (rs.foldl (fun p r => pfaMarkUsed p r.1 r.2) p).OffBy k := by
  have hframes : ∀ {p : Pfa} (f n : ℕ), p.OffBy k → (p.markFrames f n).OffBy k := by
    intro p f n hp
    induction n with
    | zero => exact hp
    | succ n ih => exact ih.markFrame _
  induction rs generalizing p with
  | nil => exact h
  | cons r rs ih => exact ih (hframes _ _ h)

end Pfa

theorem lastFrame_le {e : MmapEntry} (he : e ∈ availableEntries tags) :
    e.lastFrame ≤ memUpper tags / 4096 := by
  rw [MmapEntry.lastFrame, alignDown, Nat.mul_div_cancel _ (by norm_num)]
  exact Nat.div_le_div_right (le_foldl_limit.2 e he)

theorem offBy_release (tags : List MultibootTag) :
    ((availableEntries tags).foldl Pfa.release (.full tags)).OffBy (overlaps tags) := by
  set q := (availableEntries tags).foldl Pfa.release (.full tags) with hq
  set n := memUpper tags / 4096 with hn
  have htotal : q.totalFrames = n := Pfa.totalFrames_foldl_release
  -- the frames that are free, and those that are not
  have hfree : q.usedCount + ((Finset.range n).filter fun g =>
      0 < coverCount (availableEntries tags) g).card = n := by
    have hiff : ∀ g, ¬q.isUsed g = true ↔ 0 < coverCount (availableEntries tags) g := by
      intro g
      rw [Bool.not_eq_true, hq, Pfa.isUsed_foldl_release, Pfa.isUsed_full, coverCount_pos]
      exact or_iff_left Bool.noConfusion
    rw [Pfa.usedCount, htotal]
    simp only [← hiff]
    rw [Finset.card_filter_add_card_filter_not, Finset.card_range]
  have hcover : ∑ g ∈ Finset.range n, coverCount (availableEntries tags) g =
      overlaps tags + ((Finset.range n).filter fun g =>
        0 < coverCount (availableEntries tags) g).card := by
    rw [overlaps, Finset.card_filter, ← Finset.sum_add_distrib]
    refine Finset.sum_congr rfl fun g _ => ?_
    split_ifs <;> omega
  have hused := Pfa.usedFrames_foldl_release (p := .full tags) (availableEntries tags)
  rw [sum_lengths fun e he => lastFrame_le he, ← hn, hcover, ← add_assoc, ← hq] at hused
  refine ⟨Pfa.usedFrames_release_lt ?_ _, Nat.ModEq.add_right_cancel' _ (hused.trans ?_)⟩
  · exact (Nat.div_le_self _ _).trans_lt (memUpper_lt tags)
  · rw [hfree]
    rfl

theorem usedFrames_pfaInit (b : BootInfo) :
    (pfaInit b).usedFrames = (pfaInit b).usedCount ↔ 2 ^ 64 ∣ overlaps b.tags := by
  have h : (pfaInit b).OffBy (overlaps b.tags) := by
    rw [pfaInit]
    exact (offBy_release b.tags).mark _
  exact h.eq_iff

/-! ## The frames -/

section Frames

variable {b : BootInfo} (hv : b.Valid) {g : ℕ}

theorem isUsed_of_reserved (h : Reserved b g) : (pfaInit b).isUsed g = true := by
  rw [← Bool.not_eq_false, isUsed_pfaInit]
  exact fun hfree => hfree.2 h

include hv in
theorem free_inside_iff : (∀ g, (pfaInit b).isUsed g = false → InRegion b.tags g) ↔
    ∀ e ∈ availableEntries b.tags, 2 ^ 64 ≤ e.addr + 4095 →
      ∀ g < e.lastFrame, ¬Reserved b g → InRegion b.tags g := by
  constructor
  · intro h e he hwrap g hg hres
    have hfirst : e.firstFrame = 0 := by
      have := (hv.entries e he).1
      rw [MmapEntry.firstFrame, alignUp64, alignDown, add64]
      omega
    exact h g ((isUsed_pfaInit b g).mpr ⟨⟨e, he, by omega, hg⟩, hres⟩)
  intro h g hfree
  obtain ⟨⟨e, he, hfirst, hlast⟩, hres⟩ := (isUsed_pfaInit b g).mp hfree
  by_cases hwrap : 2 ^ 64 ≤ e.addr + 4095
  · exact h e he hwrap g hlast hres
  refine ⟨e, he, ?_, ?_⟩
  · rw [MmapEntry.firstFrame, alignUp64, alignDown, add64] at hfirst
    omega
  · rw [MmapEntry.lastFrame, alignDown, MmapEntry.limit, add64] at hlast
    omega

theorem used_low (h : Meets g 0 0x100000) : (pfaInit b).isUsed g = true := by
  obtain ⟨x, -, hx, rfl⟩ := h
  refine isUsed_of_reserved ⟨(0, 256), mem_append_left _ (by simp), ?_⟩
  exact (exists_add64_eq (by norm_num)).mpr ⟨Nat.zero_le _, by omega⟩

include hv

theorem used_kernel (h : Meets g b.kernelStart b.kernelEnd) : (pfaInit b).isUsed g = true := by
  obtain ⟨x, hx, hx', rfl⟩ := h
  have hend := hv.end_le
  refine isUsed_of_reserved ⟨(b.kernelStart, sub64 b.kernelEnd b.kernelStart / 4096 + 2),
    mem_append_left _ (by simp), ?_⟩
  rw [sub64_of_le hv.start_le, exists_add64_eq (by omega)]
  omega

theorem used_bitmap (h : Meets g b.bitmapStart b.bitmapEnd) : (pfaInit b).isUsed g = true := by
  obtain ⟨x, hx, hx', rfl⟩ := h
  have hend := hv.end_le
  have hal := hv.aligned
  have hupper := memUpper_lt b.tags
  refine isUsed_of_reserved ⟨(add64 b.kernelEnd 0x1000, (memUpper b.tags / 4096 / 32 + 1) * 4 / 4096 + 1),
    mem_append_left _ (by simp), ?_⟩
  rw [BootInfo.bitmapEnd] at hx'
  rw [BootInfo.bitmapStart] at hx hx'
  rw [add64_of_lt (by omega), exists_add64_eq (by omega)]
  omega

omit hv in
theorem mem_moduleRanges (hm : m ∈ modules tags) : (m.1, modulePages m) ∈ moduleRanges tags := by
  induction tags with
  | nil => cases hm
  | cons t tags ih =>
    cases t with
    | module modStart modEnd =>
      rcases mem_cons.mp hm with rfl | hm
      · exact mem_cons_self
      · exact mem_cons_of_mem _ (ih hm)
    | mmap entries => exact ih hm
    | other => exact ih hm

theorem module_used_iff (hm : m ∈ modules b.tags) :
    (∀ g, Meets g m.1 m.2 → (pfaInit b).isUsed g = true) ↔
      ∀ g, m.1 / 4096 + modulePages m ≤ g → Meets g m.1 m.2 → Released b.tags g → Reserved b g := by
  constructor
  · intro h g _ hmeets hrel
    by_contra hres
    have hfree := (isUsed_pfaInit b g).mpr ⟨hrel, hres⟩
    rw [h g hmeets] at hfree
    cases hfree
  intro h g hmeets
  by_cases hg : g < m.1 / 4096 + modulePages m
  · obtain ⟨x, hx, -, rfl⟩ := hmeets
    have hpages : modulePages m < 2 ^ 32 := (Nat.div_le_self _ _).trans_lt (Nat.mod_lt _ (by norm_num))
    have hlt := (hv.mods m hm).1
    refine isUsed_of_reserved ⟨_, mem_append_right _ (mem_moduleRanges hm), ?_⟩
    exact (exists_add64_eq (by omega)).mpr ⟨Nat.div_le_div_right hx, hg⟩
  · rw [← Bool.not_eq_false, isUsed_pfaInit]
    exact fun hfree => hfree.2 (h g (not_lt.mp hg) hmeets hfree.1)

end Frames

/-- **What is reserved at boot** is what should be, for every boot information, exactly when overlapping
entries are a multiple of `2 ^ 64` frames, no entry in the last page releases a frame that is not
available, the frames of a module behind its marked pages are marked for something else, and nothing lies
where the bitmap is put. -/
theorem boot_reservation_iff {b : BootInfo} (hv : b.Valid) (size : ℕ) : BootReserved b size ↔
      2 ^ 64 ∣ overlaps b.tags ∧
      (∀ e ∈ availableEntries b.tags, 2 ^ 64 ≤ e.addr + 4095 →
        ∀ g < e.lastFrame, ¬Reserved b g → InRegion b.tags g) ∧
      (∀ m ∈ modules b.tags, ∀ g, m.1 / 4096 + modulePages m ≤ g → Meets g m.1 m.2 →
        Released b.tags g → Reserved b g) ∧
      (∀ m ∈ modules b.tags, b.BitmapApart m.1 m.2) ∧ b.BitmapApart b.mb2 (b.mb2 + size) := by
  rw [← usedFrames_pfaInit, ← free_inside_iff hv]
  constructor
  · intro h
    exact ⟨h.count, h.free, fun m hm => (module_used_iff hv hm).mp (h.mods m hm), h.apart_mods,
      h.apart_info⟩
  · rintro ⟨hcount, hfree, hmods, hapart, hinfo⟩
    exact ⟨hcount, hfree, fun _ => used_low, fun _ => used_kernel hv, fun _ => used_bitmap hv,
      fun m hm => (module_used_iff hv hm).mpr (hmods m hm), hapart, hinfo⟩

/-! ## A machine with 8 MB -/

def highMemory : MmapEntry := ⟨0x100000, 0x700000, memoryAvailable⟩

/-- A kernel of 1 MB, the boot information at 7 MB, the entries `es` and the module `m`. -/
def smallBoot (es : List MmapEntry) (m : ℕ × ℕ) : BootInfo where
  tags := [.mmap es, .module m.1 m.2]
  kernelStart := 0x100000
  kernelEnd := 0x200000
  mb2 := 0x700000

theorem smallBoot_valid (hes : ∀ e ∈ es, e = highMemory)
    (h1 : m.1 < 2 ^ 32) (h2 : m.2 < 2 ^ 32) : (smallBoot es m).Valid := by
  refine ⟨fun e he => ?_, fun x hx => ?_, rfl, ?_, ?_, ?_⟩
  · rw [show availableEntries (smallBoot es m).tags = es.filter (fun e => e.type == memoryAvailable)
      from append_nil _] at he
    rw [hes e (mem_of_mem_filter he)]
    decide
  · rw [mem_singleton.mp hx]
    exact ⟨h1, h2⟩
  all_goals norm_num [smallBoot]

theorem boot_reservation_small : (smallBoot [highMemory] (0x400000, 0x400123)).Valid ∧
    BootReserved (smallBoot [highMemory] (0x400000, 0x400123)) 0x1000 := by
  have hv : (smallBoot [highMemory] (0x400000, 0x400123)).Valid :=
    smallBoot_valid (by simp) (by norm_num) (by norm_num)
  have hend : (smallBoot [highMemory] (0x400000, 0x400123)).bitmapEnd = 0x201104 := by decide
  refine ⟨hv, (boot_reservation_iff hv _).mpr ⟨?_, ?_, ?_, ?_, ?_⟩⟩
  · have hzero : overlaps (smallBoot [highMemory] (0x400000, 0x400123)).tags = 0 := by
      decide +kernel
    rw [hzero]
    exact dvd_zero _
  · intro e he hwrap
    rw [mem_singleton.mp he] at hwrap
    exact absurd hwrap (by decide)
  · rintro m hm g hg ⟨x, -, hx, rfl⟩
    rw [mem_singleton.mp hm] at hg hx
    have hpages : modulePages (0x400000, 0x400123) = 1 := by decide
    dsimp only at hg hx
    omega
  · intro m hm x hx hx' hmem
    rw [mem_singleton.mp hm] at hmem
    rw [hend] at hx'
    dsimp only at hmem
    omega
  · intro x hx hx' hmem
    rw [hend] at hx'
    change 0x700000 ≤ x ∧ _ at hmem
    omega

/-- **Three boot informations for which it fails**: the same entry twice, a module of one page that starts
inside a page, and a module behind the page after the kernel. -/
theorem boot_reservation_fails : (smallBoot [highMemory, highMemory] (0x400000, 0x401000)).Valid ∧
    (pfaInit (smallBoot [highMemory, highMemory] (0x400000, 0x401000))).usedFrames ≠
      (pfaInit (smallBoot [highMemory, highMemory] (0x400000, 0x401000))).usedCount ∧
    (smallBoot [highMemory] (0x300800, 0x301800)).Valid ∧ Meets 0x301 0x300800 0x301800 ∧
    (pfaInit (smallBoot [highMemory] (0x300800, 0x301800))).isUsed 0x301 = false ∧
    (smallBoot [highMemory] (0x201000, 0x202000)).Valid ∧
    ¬(smallBoot [highMemory] (0x201000, 0x202000)).BitmapApart 0x201000 0x202000 := by
  refine ⟨smallBoot_valid (by simp) (by norm_num) (by norm_num), ?_,
    smallBoot_valid (by simp) (by norm_num) (by norm_num), ⟨0x301000, by decide⟩, ?_,
    smallBoot_valid (by simp) (by norm_num) (by norm_num), ?_⟩
  · have hover : overlaps (smallBoot [highMemory, highMemory] (0x400000, 0x401000)).tags = 0x700 := by
      decide +kernel
    rw [Ne, usedFrames_pfaInit, hover]
    decide
  · rw [isUsed_pfaInit]
    unfold Released Reserved
    decide +kernel
  · intro h
    exact h 0x201000 (by decide) (by decide) ⟨le_rfl, by decide⟩

end KeonOS
