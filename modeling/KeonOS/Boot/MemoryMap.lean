import KeonOS.Mm.Pfa

/-!
# The frame allocator at boot

`pfa_init_from_multiboot2` reads the tags of the boot information: the memory map says which frames
exist and which are free, and the ranges the kernel knows to be occupied are marked used again.

* **`isUsed_pfaInit`**: the free frames are the released ones that are not reserved.
-/

namespace KeonOS

open Word List

/-! ## The code -/

/-- `multiboot_mmap_entry` -/
structure MmapEntry where
  addr : ℕ
  len : ℕ
  type : ℕ

/-- `MULTIBOOT_MEMORY_AVAILABLE` -/
abbrev memoryAvailable : ℕ := 1

/-- The tags of the boot information, as far as they are read. -/
inductive MultibootTag
  | mmap (entries : List MmapEntry)
  | module (modStart modEnd : ℕ)
  | other

/-- What the boot loader hands over, and where the kernel image and the boot information lie. -/
structure BootInfo where
  tags : List MultibootTag
  kernelStart : ℕ
  kernelEnd : ℕ
  mb2 : ℕ

/-- The available entries of all memory maps, in the order of the two nested loops. -/
def availableEntries : List MultibootTag → List MmapEntry
  | [] => []
  | .mmap entries :: tags =>
    (entries.filter fun e => e.type == memoryAvailable) ++ availableEntries tags
  | _ :: tags => availableEntries tags

/-- `entry->addr + entry->len` -/
def MmapEntry.limit (e : MmapEntry) : ℕ := add64 e.addr e.len

def memUpper (tags : List MultibootTag) : ℕ :=
  (availableEntries tags).foldl (fun m e => if m < e.limit then e.limit else m) 0

/-- `n` iterations of the loop that clears the bits of an available entry, from `frame` on. -/
def Pfa.clearFrames (p : Pfa) (frame : ℕ) : ℕ → Pfa
  | 0 => p
  | n + 1 => Pfa.clearFrames (p.clearBit (frame / 32) (frame % 32)) (frame + 1) n

def MmapEntry.firstFrame (e : MmapEntry) : ℕ := alignUp64 4096 e.addr / 4096

def MmapEntry.lastFrame (e : MmapEntry) : ℕ := alignDown 4096 e.limit / 4096

/-- The loop over the frames of one available entry. -/
def Pfa.release (p : Pfa) (e : MmapEntry) : Pfa :=
  p.clearFrames e.firstFrame (e.lastFrame - e.firstFrame)

theorem foldl_limit_lt : ∀ (es : List MmapEntry) {m : ℕ}, m < 2 ^ 64 →
    es.foldl (fun m e => if m < e.limit then e.limit else m) m < 2 ^ 64
  | [], _, h => h
  | e :: es, m, h => by
    rw [foldl_cons]
    refine foldl_limit_lt es ?_
    split_ifs
    · exact Nat.mod_lt _ (by norm_num)
    · exact h

theorem memUpper_lt (tags : List MultibootTag) : memUpper tags < 2 ^ 64 := foldl_limit_lt _ (by norm_num)

/-- The globals after `memset(frame_bitmap, 0xFF, ...)`: every frame is in use. -/
def Pfa.full (tags : List MultibootTag) : Pfa where
  totalFrames := memUpper tags / 4096
  usedFrames := memUpper tags / 4096
  frameBitmap _ := 0xFFFFFFFF#32
  frameBitmapSize := memUpper tags / 4096 / 32 + 1
  total_le := by
    have := memUpper_lt tags
    omega
  size_eq := rfl

/-- The arguments of the calls of `pfa_mark_used` for the modules. -/
def moduleRanges : List MultibootTag → List (ℕ × ℕ)
  | [] => []
  | .module modStart modEnd :: tags =>
    (modStart, (sub64 modEnd modStart % 2 ^ 32 + 4095) % 2 ^ 32 / 4096) :: moduleRanges tags
  | _ :: tags => moduleRanges tags

/-- The arguments of all calls of `pfa_mark_used`, in order. -/
def reservedRanges (b : BootInfo) : List (ℕ × ℕ) :=
  [(0, 256), (b.kernelStart, sub64 b.kernelEnd b.kernelStart / 4096 + 2),
    (add64 b.kernelEnd 0x1000, (memUpper b.tags / 4096 / 32 + 1) * 4 / 4096 + 1), (b.mb2, 64)] ++
  moduleRanges b.tags

@[irreducible] def pfaInit (b : BootInfo) : Pfa :=
  (reservedRanges b).foldl (fun p r => pfaMarkUsed p r.1 r.2)
    ((availableEntries b.tags).foldl Pfa.release (.full b.tags))

/-! ## The bitmap it builds -/

def Released (tags : List MultibootTag) (g : ℕ) : Prop :=
  ∃ e ∈ availableEntries tags, e.firstFrame ≤ g ∧ g < e.lastFrame

def Reserved (b : BootInfo) (g : ℕ) : Prop := ∃ r ∈ reservedRanges b, ∃ i < r.2, add64 (r.1 / 4096) i = g

namespace Pfa

theorem totalFrames_clearFrames : ∀ {n f : ℕ} {p : Pfa}, (p.clearFrames f n).totalFrames = p.totalFrames
  | 0, _, _ => rfl
  | n + 1, f, p => by rw [clearFrames, totalFrames_clearFrames, totalFrames_clearBit]

theorem isUsed_clearFrames : ∀ {n f : ℕ} {p : Pfa} (g : ℕ), (p.clearFrames f n).isUsed g = false ↔
    (f ≤ g ∧ g < f + n) ∨ p.isUsed g = false
  | 0, f, p, g => by
    rw [clearFrames, or_iff_right]
    omega
  | n + 1, f, p, g => by
    rw [clearFrames, isUsed_clearFrames, isUsed_clearBit (Nat.mod_lt _ (by norm_num)),
      Nat.div_add_mod', Bool.and_eq_false_iff, decide_eq_false_iff_not, not_not, ← or_assoc]
    exact or_congr_left (by omega)

theorem isUsed_release {p : Pfa} (e : MmapEntry) (g : ℕ) : (p.release e).isUsed g = false ↔
    (e.firstFrame ≤ g ∧ g < e.lastFrame) ∨ p.isUsed g = false := by
  rw [release, isUsed_clearFrames]
  exact or_congr_left (by omega)

theorem isUsed_foldl_release : ∀ {es : List MmapEntry} {p : Pfa} (g : ℕ),
    (es.foldl release p).isUsed g = false ↔
      (∃ e ∈ es, e.firstFrame ≤ g ∧ g < e.lastFrame) ∨ p.isUsed g = false
  | [], p, g => by simp
  | e :: es, p, g => by
    rw [foldl_cons, isUsed_foldl_release, isUsed_release, exists_mem_cons_iff, or_assoc]
    exact or_left_comm

theorem totalFrames_foldl_release : ∀ {es : List MmapEntry} {p : Pfa},
    (es.foldl release p).totalFrames = p.totalFrames
  | [], _ => rfl
  | e :: es, p => by
    rw [foldl_cons, totalFrames_foldl_release, release, totalFrames_clearFrames]

theorem totalFrames_foldl_mark : ∀ {rs : List (ℕ × ℕ)} {p : Pfa},
    (rs.foldl (fun p r => pfaMarkUsed p r.1 r.2) p).totalFrames = p.totalFrames
  | [], _ => rfl
  | r :: rs, p => by
    rw [foldl_cons, totalFrames_foldl_mark, pfaMarkUsed, totalFrames_markFrames]

theorem isUsed_foldl_mark : ∀ {rs : List (ℕ × ℕ)} {p : Pfa} {g : ℕ}, g < p.totalFrames →
    ((rs.foldl (fun p r => pfaMarkUsed p r.1 r.2) p).isUsed g = false ↔
      (¬ ∃ r ∈ rs, ∃ i < r.2, add64 (r.1 / 4096) i = g) ∧ p.isUsed g = false)
  | [], p, g, _ => by simp
  | r :: rs, p, g, hg => by
    have ht : (pfaMarkUsed p r.1 r.2).totalFrames = p.totalFrames := totalFrames_markFrames
    rw [foldl_cons, isUsed_foldl_mark (ht ▸ hg), pfaMarkUsed,
      ← Bool.not_eq_true ((p.markFrames _ _).isUsed g), isUsed_markFrames,
      exists_mem_cons_iff, not_or, not_or, and_assoc, Bool.not_eq_true, and_iff_right hg]
    exact and_left_comm

theorem isUsed_full (tags : List MultibootTag) (g : ℕ) : (full tags).isUsed g = true :=
  getLsbD_of_full rfl (Nat.mod_lt _ (by norm_num))

theorem mark_mono : ∀ {rs : List (ℕ × ℕ)} {p : Pfa} {g : ℕ}, p.isUsed g = true →
    (rs.foldl (fun p r => pfaMarkUsed p r.1 r.2) p).isUsed g = true
  | [], _, _, h => h
  | r :: rs, p, g, h => by
    rw [foldl_cons]
    exact mark_mono ((isUsed_markFrames g).mpr (.inr h))

end Pfa

theorem exists_add64_eq {f n g : ℕ} (h : f + n ≤ 2 ^ 64) :
    (∃ i < n, add64 f i = g) ↔ f ≤ g ∧ g < f + n := by
  constructor
  · rintro ⟨i, hi, rfl⟩
    rw [add64_of_lt (by omega)]
    omega
  · intro hg
    exact ⟨g - f, by omega, by rw [add64_of_lt (by omega)]; omega⟩

theorem totalFrames_pfaInit (b : BootInfo) : (pfaInit b).totalFrames = memUpper b.tags / 4096 := by
  rw [pfaInit, Pfa.totalFrames_foldl_mark, Pfa.totalFrames_foldl_release]
  rfl

theorem le_foldl_limit : ∀ {es : List MmapEntry} {m : ℕ},
    m ≤ es.foldl (fun m e => if m < e.limit then e.limit else m) m ∧
      ∀ e ∈ es, e.limit ≤ es.foldl (fun m e => if m < e.limit then e.limit else m) m
  | [], m => ⟨le_rfl, by simp⟩
  | e :: es, m => by
    obtain ⟨h1, h2⟩ := @le_foldl_limit es (if m < e.limit then e.limit else m)
    rw [foldl_cons, forall_mem_cons]
    refine ⟨le_trans ?_ h1, le_trans ?_ h1, h2⟩ <;> split_ifs <;> omega

theorem Released.lt {b : BootInfo} {g : ℕ} (h : Released b.tags g) : g < (pfaInit b).totalFrames := by
  obtain ⟨e, he, -, hg⟩ := h
  have hle : e.limit ≤ memUpper b.tags := le_foldl_limit.2 e he
  rw [MmapEntry.lastFrame, alignDown, Nat.mul_div_cancel _ (by norm_num)] at hg
  rw [totalFrames_pfaInit]
  exact lt_of_lt_of_le hg (Nat.div_le_div_right hle)

theorem isUsed_pfaInit (b : BootInfo) (g : ℕ) :
    (pfaInit b).isUsed g = false ↔ Released b.tags g ∧ ¬ Reserved b g := by
  by_cases hr : Released b.tags g
  · have hlt := hr.lt
    rw [totalFrames_pfaInit] at hlt
    rw [pfaInit, Pfa.isUsed_foldl_mark (by rwa [Pfa.totalFrames_foldl_release]),
      Pfa.isUsed_foldl_release, Pfa.isUsed_full]
    exact and_comm.trans (and_congr_left fun _ => or_iff_left Bool.noConfusion)
  · refine iff_of_false (fun h => ?_) fun h => hr h.1
    have : ((availableEntries b.tags).foldl Pfa.release (.full b.tags)).isUsed g = true := by
      rw [← Bool.not_eq_false, Pfa.isUsed_foldl_release, Pfa.isUsed_full]
      exact fun h => h.elim hr Bool.noConfusion
    rw [pfaInit, Pfa.mark_mono this] at h
    exact Bool.noConfusion h

end KeonOS
