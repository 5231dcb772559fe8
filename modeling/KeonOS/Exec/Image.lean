import KeonOS.Exec.Progress

/-!
# The image of a loaded program

* **`kex_image_iff`**: the image of a loaded program is correct exactly when `NoClobber` holds.
-/

namespace KeonOS

open Word List

/-! ## The image -/

section Image

variable {f : KFile} {phs : List Phdr} {v : ℕ → Option UInt8} {x : ℕ}

/-- Every segment shows its bytes: the file range, and zeros up to `p_memsz`. -/
def ImageOk (f : KFile) (phs : List Phdr) (view : ℕ → Option UInt8) : Prop :=
  ∀ ph ∈ phs, Loadable ph → ∀ x, InSegment ph x → view x = some (segByte f ph x)

/-- No segment has a nonzero byte on a page of a later one. -/
def NoClobber (f : KFile) (phs : List Phdr) : Prop :=
  phs.Pairwise fun ph later => Loadable ph → Loadable later →
    ∀ x, InSegment ph x → HasPage later (x / 4096) → segByte f ph x = 0

def SegmentsDisjoint (phs : List Phdr) : Prop :=
  phs.Pairwise fun ph ph' => Loadable ph → Loadable ph' → ∀ x, InSegment ph x → ¬ InSegment ph' x

theorem imageByte_of_not_inSegment (hg : ∀ ph ∈ phs, Loadable ph → GoodSegment f ph)
    (hx : ∀ ph ∈ phs, Loadable ph → ¬ InSegment ph x) :
    imageByte f phs v x =
      if ∃ ph ∈ phs, Loadable ph ∧ HasPage ph (x / 4096) then some 0 else v x := by
  induction phs generalizing v with
  | nil => simp [imageByte]
  | cons ph phs ih =>
    rw [imageByte, ih (fun q hq => hg q (mem_cons_of_mem _ hq))
      fun q hq => hx q (mem_cons_of_mem _ hq)]
    by_cases hl : ∃ q ∈ phs, Loadable q ∧ HasPage q (x / 4096)
    · obtain ⟨q, hq, hlq⟩ := hl
      rw [if_pos ⟨q, hq, hlq⟩, if_pos ⟨q, mem_cons_of_mem _ hq, hlq⟩]
    rw [if_neg hl, loadView]
    by_cases hp : Loadable ph ∧ HasPage ph (x / 4096)
    · have hni := hx ph mem_cons_self hp.1
      have hfs := (hg ph mem_cons_self hp.1).filesz_le
      unfold InSegment at hni
      rw [if_pos hp, if_pos ⟨ph, mem_cons_self, hp⟩, segByte, if_neg (by omega)]
    · rw [if_neg hp, if_neg]
      rintro ⟨q, (_ | ⟨_, hq⟩), hlq⟩
      exacts [hp hlq, hl ⟨q, hq, hlq⟩]

theorem imageOk_imageByte_iff (hg : ∀ ph ∈ phs, Loadable ph → GoodSegment f ph)
    (hd : SegmentsDisjoint phs) : ImageOk f phs (imageByte f phs v) ↔ NoClobber f phs := by
  induction phs generalizing v with
  | nil => exact iff_of_true (fun ph h => absurd h (not_mem_nil)) List.Pairwise.nil
  | cons ph phs ih =>
    obtain ⟨hd₁, hd₂⟩ := pairwise_cons.1 hd
    have hg₂ : ∀ ph ∈ phs, Loadable ph → GoodSegment f ph :=
      fun q hq => hg q (mem_cons_of_mem _ hq)
    have ih := ih (v := loadView f ph v) hg₂ hd₂
    -- the bytes of the first segment, after the others are loaded
    have hfirst : Loadable ph → ∀ x, InSegment ph x → imageByte f phs (loadView f ph v) x =
        if ∃ q ∈ phs, Loadable q ∧ HasPage q (x / 4096) then some 0 else some (segByte f ph x) := by
      intro hl x hx
      rw [imageByte_of_not_inSegment hg₂ fun q hq hlq => hd₁ q hq hl hlq x hx, loadView,
        if_pos (c := Loadable ph ∧ HasPage ph (x / 4096)) ⟨hl, HasPage.of_inSegment hx⟩]
    constructor
    · intro h
      refine pairwise_cons.2 ⟨fun q hq hl hlq x hx hpg => ?_, ih.1 fun q hq => ?_⟩
      · have hb := h ph mem_cons_self hl x hx
        rw [imageByte, hfirst hl x hx, if_pos ⟨q, hq, hlq, hpg⟩, Option.some.injEq] at hb
        exact hb.symm
      · exact h q (mem_cons_of_mem _ hq)
    intro h
    obtain ⟨h₁, h₂⟩ := pairwise_cons.1 h
    rintro q (_ | ⟨_, hq⟩) hl x hx
    · rw [imageByte, hfirst hl x hx]
      split_ifs with hlater
      · obtain ⟨q, hq, hlq, hpg⟩ := hlater
        rw [h₁ q hq hl hlq x hx hpg]
      · rfl
    · exact ih.2 h₂ q hq hl x hx

end Image

/-! ## The headers of the file -/

section Headers

variable {f : KFile} {slack : Mem}

def fileHeaders (f : KFile) : List Phdr := (List.range (parseEhdr f.byte).ePhnum).map
    (parsePhdr (f.readByte (parseEhdr f.byte).ePhoff))

theorem parsePhdr_congr {m m' : Mem} {i : ℕ}
    (h : ∀ k, 56 * i ≤ k → k < 56 * i + 56 → m k = m' k) : parsePhdr m i = parsePhdr m' i := by
  have hr : ∀ a n, 56 * i ≤ a → a + n ≤ 56 * i + 56 → m.readLE a n = m'.readLE a n :=
    fun a n h1 h2 => Mem.readLE_congr fun k hk => h _ (by omega) (by omega)
  rw [parsePhdr, parsePhdr, hr _ 4 (by omega) (by omega), hr (56 * i + 8) 8 (by omega) (by omega),
    hr (56 * i + 16) 8 (by omega) (by omega), hr (56 * i + 32) 8 (by omega) (by omega),
    hr (56 * i + 40) 8 (by omega) (by omega)]

theorem kexCheck_headers {phs : List Phdr} (h56 : (parseEhdr f.byte).ePhentsize = 56)
    (h : kexCheck f slack = some phs) : phs = fileHeaders f := by
  rw [kexCheck] at h
  split_ifs at h with h1 h2 h3 h4
  rw [not_not] at h3
  cases h
  refine map_congr_left fun i hi => parsePhdr_congr fun k hk1 hk2 => ?_
  rw [mem_range] at hi
  rw [KFile.readInto, h3, phSize, h56, if_pos (by omega)]

theorem parsePhdr_vaddr_lt (m : Mem) (i : ℕ) : (parsePhdr m i).pVaddr < 2 ^ 64 :=
  lt_of_lt_of_le (Mem.readLE_lt _ _ _) (by norm_num)

theorem pVaddr_lt {ph : Phdr} (h : ph ∈ fileHeaders f) : ph.pVaddr < 2 ^ 64 := by
  obtain ⟨i, -, rfl⟩ := List.mem_map.1 h
  exact parsePhdr_vaddr_lt _ i

theorem kexCheck_vaddr_lt {phs : List Phdr} {ph : Phdr} (h : kexCheck f slack = some phs)
    (hph : ph ∈ phs) : ph.pVaddr < 2 ^ 64 := by
  rw [kexCheck] at h
  split_ifs at h
  cases h
  obtain ⟨i, -, rfl⟩ := List.mem_map.1 hph
  exact parsePhdr_vaddr_lt _ i

end Headers

/-! ## The theorem -/

section Correct

variable {s : Mmu} {s' : LoadState} {id : ℕ} {t : Thread} {f : KFile} {slack : Mem}

/-- The bytes of every segment, user access to its pages, and a range that covers it. -/
structure ImageCorrect (f : KFile) (s : Mmu) (t : Thread) : Prop where
  bytes : ImageOk f (fileHeaders f) s.readVirt
  user : ∀ ph ∈ fileHeaders f, Loadable ph → ∀ x, InSegment ph x → pagingIsUserAccessible s x = true
  range : ∀ ph ∈ fileHeaders f, Loadable ph →
    t.userImageStart ≤ ph.pVaddr ∧ ph.pVaddr + ph.pMemsz ≤ t.userImageEnd

theorem kexLoad_loaded (hw : WellFormed s.root s) (h56 : (parseEhdr f.byte).ePhentsize = 56)
    (hg : ∀ ph ∈ fileHeaders f, Loadable ph → GoodSegment f ph)
    (h : kexLoad s id f slack = .loaded s' t) :
    ∃ v, ∀ ph ∈ fileHeaders f, Loadable ph →
      (t.userImageStart ≤ ph.pVaddr ∧ ph.pVaddr + ph.pMemsz ≤ t.userImageEnd) ∧
      ∀ x, InSegment ph x → pagingIsUserAccessible s'.mmu x = true ∧
        s'.mmu.readVirt x = imageByte f (fileHeaders f) v x := by
  have hu : userEnd = 2 ^ 47 := rfl
  rw [kexLoad] at h
  cases hc : kexCheck f slack with
  | none => simp [hc] at h
  | some phs =>
    obtain rfl := kexCheck_headers h56 hc
    rw [hc] at h
    rcases hst : stackPages ⟨s, []⟩ 0 4 with ⟨st, s₁⟩
    rw [hst] at h
    cases st
    case ok =>
      dsimp only at h
      rcases hseg : kexSegments f (fileHeaders f) s₁ (2 ^ 64 - 1) 0 with ⟨st, s₂, minV, maxV⟩
      rw [hseg] at h
      cases st
      case ok =>
        cases h
        obtain ⟨⟨own, hi⟩, -, -, -, hmax, hall⟩ := kexSegments_spec
          (Owns.empty (stackPages_spec (s := ⟨s, []⟩) hw hst))
          (fun ph hph => ⟨pVaddr_lt hph, hg ph hph⟩) (Nat.zero_le _) hseg
        refine ⟨ownByte s₁.mmu fun _ => none, fun ph hph hl => ⟨⟨?_, ?_⟩, fun x hx => ?_⟩⟩
        · exact (alignDown_le 4096 minV).trans (hall ph hph hl).1
        · refine (hall ph hph hl).2.trans ?_
          change maxV ≤ alignUp64 4096 maxV
          rw [alignUp64_of_lt (by omega)]
          exact le_alignUp (by norm_num) maxV
        · obtain ⟨g, hg⟩ := hi.mem _ ⟨ph, hph, hl, HasPage.of_inSegment hx⟩
          exact ⟨hi.owns.accessible hg, (hi.owns.readVirt hg).trans (hi.byte x)⟩
      all_goals simp at h
    all_goals simp at h

/-- **Program images.** If the segments have disjoint addresses in the user half and file ranges inside
the file, the image of a thread that `kex_load` returns is correct exactly when no segment has a nonzero
byte on a page of a later segment. -/
theorem kex_image_iff (hw : WellFormed s.root s) (h56 : (parseEhdr f.byte).ePhentsize = 56)
    (hg : ∀ ph ∈ fileHeaders f, Loadable ph → GoodSegment f ph)
    (hd : SegmentsDisjoint (fileHeaders f)) (h : kexLoad s id f slack = .loaded s' t) :
    ImageCorrect f s'.mmu t ↔ NoClobber f (fileHeaders f) := by
  obtain ⟨v, hv⟩ := kexLoad_loaded hw h56 hg h
  have hbytes : ImageOk f (fileHeaders f) s'.mmu.readVirt ↔
      ImageOk f (fileHeaders f) (imageByte f (fileHeaders f) v) :=
    forall₅_congr fun ph hph hl x hx => by rw [((hv ph hph hl).2 x hx).2]
  rw [imageOk_imageByte_iff hg hd] at hbytes
  exact ⟨fun hi => hbytes.1 hi.bytes, fun hn => ⟨hbytes.2 hn,
    fun ph hph hl x hx => ((hv ph hph hl).2 x hx).1, fun ph hph hl => (hv ph hph hl).1⟩⟩

end Correct

/-! ## A program with two segments -/

def leBytes (n k : ℕ) : List UInt8 := (List.range n).map fun i => UInt8.ofNat (k / 256 ^ i)

def phdrBytes (ph : Phdr) : List UInt8 :=
  leBytes 4 ph.pType ++ leBytes 4 0 ++ leBytes 8 ph.pOffset ++ leBytes 8 ph.pVaddr ++
    leBytes 8 ph.pVaddr ++ leBytes 8 ph.pFilesz ++ leBytes 8 ph.pMemsz ++ leBytes 8 4096

/-- The bytes of an executable with the program headers `phs`, a KEX note after them. -/
def programBytes (eType : ℕ) (phs : List Phdr) : List UInt8 :=
  [0x7F, 0x45, 0x4C, 0x46, 2, 1, 1] ++ leBytes 9 0 ++ leBytes 2 eType ++ leBytes 2 emX86_64 ++
    leBytes 4 1 ++ leBytes 8 0 ++ leBytes 8 64 ++ leBytes 8 0 ++ leBytes 4 0 ++ leBytes 2 64 ++
    leBytes 2 56 ++ leBytes 2 phs.length ++ leBytes 6 0 ++ (phs.map phdrBytes).flatten ++
    leBytes 4 7 ++ leBytes 4 0 ++ leBytes 4 kexNoteTypeVersion ++ kexNoteName

/-- One byte at `v₁` and one byte at `v₂`, the first two of the file. -/
def twoSegments (v₁ v₂ : ℕ) : KFile where
  size := 251
  byte k := (programBytes etExec [⟨ptNote, 232, 0, 19, 19⟩, ⟨ptLoad, 0, v₁, 1, 1⟩,
    ⟨ptLoad, 1, v₂, 1, 1⟩]).getD k 0
  size_lt := by norm_num

theorem twoSegments_spec {v₂ : ℕ} (hv : v₂ = 0x400800 ∨ v₂ = 0x401000) :
    (parseEhdr (twoSegments 0x400000 v₂).byte).ePhentsize = 56 ∧
    fileHeaders (twoSegments 0x400000 v₂) = [⟨ptNote, 232, 0, 19, 19⟩,
      ⟨ptLoad, 0, 0x400000, 1, 1⟩, ⟨ptLoad, 1, v₂, 1, 1⟩] ∧
    kexCheck (twoSegments 0x400000 v₂) (fun _ => 0) = some (fileHeaders (twoSegments 0x400000 v₂)) ∧
    ∀ ph ∈ fileHeaders (twoSegments 0x400000 v₂), Loadable ph →
      GoodSegment (twoSegments 0x400000 v₂) ph := by
  rcases hv with rfl | rfl <;> decide +kernel

theorem segmentsDisjoint_twoSegments {v₂ : ℕ} (hv : v₂ = 0x400800 ∨ v₂ = 0x401000) :
    SegmentsDisjoint (fileHeaders (twoSegments 0x400000 v₂)) := by
  rw [(twoSegments_spec hv).2.1]
  simp only [SegmentsDisjoint, Loadable, InSegment, pairwise_cons, mem_cons,
    not_mem_nil, or_false, forall_eq_or_imp, forall_eq, IsEmpty.forall_iff, implies_true,
    List.Pairwise.nil, and_true]
  refine ⟨⟨fun h => absurd h.1 (by decide), fun h => absurd h.1 (by decide)⟩, fun _ _ x hx => ?_⟩
  omega

theorem kexLoad_twoSegments {v₂ : ℕ} (hv : v₂ = 0x400800 ∨ v₂ = 0x401000) :
    ∃ s' t, kexLoad emptyTables 2 (twoSegments 0x400000 v₂) (fun _ => 0) = .loaded s' t := by
  obtain ⟨-, hh, hc, hg⟩ := twoSegments_spec hv
  obtain ⟨s', t, -, h, -⟩ := @kexLoad_total emptyTables 2 0 _ _ _ wellFormed_emptyTables hc
    (fun ph hph => ⟨pVaddr_lt hph, hg ph hph⟩) (by
      rcases hv with rfl | rfl <;> decide +kernel)
  exact ⟨s', t, h⟩

/-- **A shared page.** The second segment's fresh page wipes out the byte of the first. -/
theorem kex_shared_page : (parseEhdr (twoSegments 0x400000 0x400800).byte).ePhentsize = 56 ∧
    (∀ ph ∈ fileHeaders (twoSegments 0x400000 0x400800), Loadable ph →
      GoodSegment (twoSegments 0x400000 0x400800) ph) ∧
    SegmentsDisjoint (fileHeaders (twoSegments 0x400000 0x400800)) ∧
    ∃ s' t, kexLoad emptyTables 2 (twoSegments 0x400000 0x400800) (fun _ => 0) = .loaded s' t ∧
      s'.mmu.readVirt 0x400000 = some 0 ∧
      ¬ ImageCorrect (twoSegments 0x400000 0x400800) s'.mmu t := by
  obtain ⟨h56, hh, -, hg⟩ := twoSegments_spec (.inl rfl)
  obtain ⟨s', t, h⟩ := kexLoad_twoSegments (.inl rfl)
  obtain ⟨v, hv⟩ := kexLoad_loaded wellFormed_emptyTables h56 hg h
  have hmem : (⟨ptLoad, 0, 0x400000, 1, 1⟩ : Phdr) ∈ fileHeaders (twoSegments 0x400000 0x400800) := by
    exact mem_cons_of_mem _ mem_cons_self
  have hx : s'.mmu.readVirt 0x400000 = some 0 := by
    rw [((hv _ hmem ⟨rfl, by decide⟩).2 0x400000 ⟨by decide, by decide⟩).2, hh]
    rfl
  refine ⟨h56, hg, segmentsDisjoint_twoSegments (.inl rfl), s', t, h, hx, fun hi => ?_⟩
  have hb := hi.bytes _ hmem ⟨rfl, by decide⟩ 0x400000 ⟨by decide, by decide⟩
  rw [hx] at hb
  exact absurd hb (by decide +kernel)

theorem kex_image_iff_twoSegments :
    ∃ s' t, kexLoad emptyTables 2 (twoSegments 0x400000 0x401000) (fun _ => 0) = .loaded s' t ∧
      ImageCorrect (twoSegments 0x400000 0x401000) s'.mmu t := by
  obtain ⟨h56, hh, -, hg⟩ := twoSegments_spec (.inr rfl)
  obtain ⟨s', t, h⟩ := kexLoad_twoSegments (.inr rfl)
  refine ⟨s', t, h, (kex_image_iff wellFormed_emptyTables h56 hg
    (segmentsDisjoint_twoSegments (.inr rfl)) h).2 ?_⟩
  rw [hh]
  simp only [NoClobber, Loadable, InSegment, HasPage, pairwise_cons, mem_cons,
    not_mem_nil, or_false, forall_eq_or_imp, forall_eq, IsEmpty.forall_iff, implies_true,
    List.Pairwise.nil, and_true]
  refine ⟨⟨fun h => absurd h.1 (by decide), fun h => absurd h.1 (by decide)⟩,
    fun _ _ x hx hp => ?_⟩
  omega

end KeonOS
