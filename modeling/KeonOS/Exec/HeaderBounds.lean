import KeonOS.Exec.Elf

/-!
# The loader's accesses to program headers and notes

`kex_load` and `kdl_load` read the program headers into a buffer of `e_phnum * e_phentsize` bytes
and index it as an array of `Elf64_Phdr`. A note goes to a buffer of `p_filesz` bytes; how many of
them `vfs_read` has filled is not looked at.

* **`header_bounds_iff`**: the files for which every access is inside.
-/

namespace KeonOS

open Option

/-- What a run of a loader meets: which `kmalloc` calls find a block (call `i + 1` is for the note of
header `i`), what the blocks held, and how many headers the last loop gets to. -/
structure LoadRun where
  found : ℕ → ℕ → Bool
  old : ℕ → Mem
  mapped : ℕ

/-- Reading a number of `len` bytes from a buffer of `room` bytes: `none` outside. -/
def bufferLoad (m : Mem) (room off len : ℕ) : Option ℕ :=
  if off + len ≤ room then some (m.readLE off len) else none

/-- The bytes that `kmalloc(size)` reserves: the size is rounded up to 16 in 64 bits. -/
def reserved (size : ℕ) : ℕ := (size + 15) % 2 ^ 64 / 16 * 16

/-- The bytes of a buffer that are both allocated and filled. -/
def filled (f : KFile) (e : LoadRun) (call offset size : ℕ) : ℕ :=
  if e.found call size then min (reserved size) (f.readLen offset size) else 0

/-- `kmalloc(size)`, and `vfs_read(file, offset, size, …)` into the block. -/
def readBuffer (f : KFile) (e : LoadRun) (call offset size : ℕ) : ℕ → ℕ → Option ℕ :=
  bufferLoad (f.readInto offset size (e.old call)) (filled f e call offset size)

/-- `strcmp` with a string whose last byte is its terminator. -/
def loadCompare (load : ℕ → ℕ → Option ℕ) : List UInt8 → ℕ → Option Bool
  | [], _ => some true
  | c :: cs, k => do
    let x ← load k 1
    if x = c.toNat then loadCompare load cs (k + 1) else some false

/-- The test of one note, as the loader reads it. -/
def loadNote (load : ℕ → ℕ → Option ℕ) : Option Bool := do
  let type ← load 8 4
  if type = kexNoteTypeVersion then
    let namesz ← load 0 4
    if namesz = 7 then loadCompare load kexNoteName 12 else some false
  else some false

/-- A loop over the headers; the result says whether some step returned `true`. -/
def eachHeader (step : ℕ → Option Bool) : ℕ → Option Bool
  | 0 => some false
  | n + 1 => do
    let b ← eachHeader step n
    let c ← step n
    some (b || c)

/-- The first pass of `kex_load` at header `i`. -/
def noteStep (f : KFile) (e : LoadRun) (ph : ℕ → ℕ → Option ℕ) (i : ℕ) : Option Bool := do
  let type ← ph (56 * i) 4
  if type = ptNote then
    let filesz ← ph (56 * i + 32) 8
    let offset ← ph (56 * i + 8) 8
    loadNote (readBuffer f e (i + 1) offset filesz)
  else some false

/-- The type of header `i`, and the eight-byte fields at the offsets that go with the type. -/
def fieldStep (fields : ℕ → List ℕ) (ph : ℕ → ℕ → Option ℕ) (i : ℕ) : Option Bool := do
  let type ← ph (56 * i) 4
  (fields type).foldlM (fun _ off => (ph (56 * i + off) 8).map fun _ => false) false

/-- The second pass of `kex_load` at header `i`; `p_flags` is read for a segment that is not empty. -/
def segmentStep (ph : ℕ → ℕ → Option ℕ) (i : ℕ) : Option Bool := do
  let type ← ph (56 * i) 4
  if type = ptLoad then
    let vaddr ← ph (56 * i + 16) 8
    let memsz ← ph (56 * i + 40) 8
    let _ ← ph (56 * i + 8) 8
    let _ ← ph (56 * i + 32) 8
    if (vaddr + memsz) % 2 ^ 64 = vaddr then some false else (ph (56 * i + 4) 4).map fun _ => false
  else some false

/-- The fields that the first loop of `kdl_load` reads. -/
def sizeFields (type : ℕ) : List ℕ := if type = ptLoad then [16, 40] else []

def mapFields (type : ℕ) : List ℕ :=
  if type = ptLoad then [16, 40, 8, 32] else if type = ptDynamic then [16] else []

/-- The headers have been read: the loops are reached. -/
def HeadersRead (f : KFile) : Prop :=
  f.readLen 0 ehdrSize = ehdrSize ∧ validateElf (parseEhdr f.byte) = true ∧
    f.readLen (parseEhdr f.byte).ePhoff (phSize (parseEhdr f.byte)) = phSize (parseEhdr f.byte)

instance (f : KFile) : Decidable (HeadersRead f) := inferInstanceAs (Decidable (_ ∧ _))

/-- The accesses of `kex_load`; `none` when one is outside its buffer. -/
def kexHeaders (f : KFile) (e : LoadRun) : Option Bool :=
  let hdr := parseEhdr f.byte
  if HeadersRead f then do
    let ph := readBuffer f e 0 hdr.ePhoff (phSize hdr)
    let noteFound ← eachHeader (noteStep f e ph) hdr.ePhnum
    if noteFound then eachHeader (segmentStep ph) (min e.mapped hdr.ePhnum) else some false
  else some false

/-- The accesses of `kdl_load`; `none` when one is outside its buffer. -/
def kdlHeaders (f : KFile) (e : LoadRun) : Option Bool :=
  let hdr := parseEhdr f.byte
  if HeadersRead f ∧ hdr.eType = etDyn then do
    let ph := readBuffer f e 0 hdr.ePhoff (phSize hdr)
    let _ ← eachHeader (fieldStep sizeFields ph) hdr.ePhnum
    eachHeader (fieldStep mapFields ph) (min e.mapped hdr.ePhnum)
  else some false

/-! ## Conditions on the file -/

def fileHeader (f : KFile) (i : ℕ) : Phdr := parsePhdr (f.readByte (parseEhdr f.byte).ePhoff) i

/-- The note reaches past its type, and past its name or to a byte that differs. -/
def NoteFits (m : Mem) (room : ℕ) : Prop :=
  12 ≤ room ∧ (m.readLE 8 4 = kexNoteTypeVersion → m.readLE 0 4 = 7 →
    19 ≤ room ∨ ∃ k < 7, 12 + k < room ∧ m (12 + k) ≠ kexNoteName.getD k 0)

/-- The headers that `kex_load` looks at, and the notes, are in a buffer of `room` bytes. -/
def KexFits (f : KFile) (e : LoadRun) (room : ℕ) : Prop :=
  (∀ i < (parseEhdr f.byte).ePhnum, 56 * i + 4 ≤ room ∧ ((fileHeader f i).pType = ptNote →
    56 * i + 40 ≤ room ∧ NoteFits (f.readByte (fileHeader f i).pOffset)
      (filled f e (i + 1) (fileHeader f i).pOffset (fileHeader f i).pFilesz))) ∧
  ((∃ i < (parseEhdr f.byte).ePhnum, (fileHeader f i).pType = ptNote ∧
      isKexNote (f.readByte (fileHeader f i).pOffset) = true) →
    ∀ i < min e.mapped (parseEhdr f.byte).ePhnum, (fileHeader f i).pType = ptLoad → 56 * i + 48 ≤ room)

def KdlFits (f : KFile) (e : LoadRun) (room : ℕ) : Prop :=
  (∀ i < (parseEhdr f.byte).ePhnum, 56 * i + 4 ≤ room ∧
    ((fileHeader f i).pType = ptLoad → 56 * i + 48 ≤ room)) ∧
  ∀ i < min e.mapped (parseEhdr f.byte).ePhnum, (fileHeader f i).pType = ptDynamic → 56 * i + 24 ≤ room

/-- The bytes of the header buffer: `ph_size`, when there is a block. -/
def headerRoom (f : KFile) (e : LoadRun) : ℕ :=
  if e.found 0 (phSize (parseEhdr f.byte)) then phSize (parseEhdr f.byte) else 0

/-! ## What a loop reads -/

variable {step : ℕ → Option Bool} {b : Bool}

theorem isSome_eachHeader (n : ℕ) : (eachHeader step n).isSome ↔ ∀ i < n, (step i).isSome := by
  induction n with
  | zero => simp [eachHeader]
  | succ n ih =>
    rw [Nat.forall_lt_succ_right, ← ih, eachHeader]
    cases eachHeader step n <;> cases step n <;> simp

theorem eachHeader_eq_true {n : ℕ}
    (h : eachHeader step n = some b) : b = true ↔ ∃ i < n, step i = some true := by
  induction n generalizing b with
  | zero =>
    cases h
    simp
  | succ n ih =>
    obtain ⟨c, hc, h⟩ := bind_eq_some_iff.mp h
    obtain ⟨d, hd, h⟩ := bind_eq_some_iff.mp h
    cases h
    rw [Nat.exists_lt_succ_right, ← ih hc, hd, Bool.or_eq_true, Option.some.injEq]

theorem isSome_bind_const (x y : Option Bool) : (x.bind fun _ => y).isSome ↔ x.isSome ∧ y.isSome := by
  cases x <;> simp

theorem isSome_two_loops {step' : ℕ → Option Bool} {P Q R : ℕ → Prop}
    (hP : ∀ i, (step i).isSome ↔ P i) (hQ : ∀ i b, step i = some b → (b = true ↔ Q i))
    (hR : ∀ i, (step' i).isSome ↔ R i) (n k : ℕ) :
    ((eachHeader step n).bind fun b => if b then eachHeader step' k else some false).isSome ↔
      (∀ i < n, P i) ∧ ((∃ i < n, Q i) → ∀ i < k, R i) := by
  have hall : (eachHeader step n).isSome ↔ _ := isSome_eachHeader n
  simp only [hP] at hall
  rw [← hall]
  cases hfirst : eachHeader step n with
  | none => simp
  | some b =>
    rw [hfirst, isSome_some, iff_true_left rfl] at hall
    have hfound : b = true ↔ ∃ i < n, Q i := by
      rw [eachHeader_eq_true hfirst]
      refine exists_congr fun i => and_congr_right fun hi => ?_
      obtain ⟨c, hc⟩ := isSome_iff_exists.mp ((hP i).mpr (hall i hi))
      rw [hc, Option.some.injEq, hQ i c hc]
    rw [← hfound]
    cases b <;> simp [isSome_eachHeader, hR]

section

variable {f : KFile} {e : LoadRun} {m : Mem} {room : ℕ}

theorem readBuffer_eq (call offset size : ℕ) : readBuffer f e call offset size =
    bufferLoad (f.readByte offset) (filled f e call offset size) := by
  have hle : filled f e call offset size ≤ f.readLen offset size := by
    rw [filled]
    split_ifs <;> omega
  funext off len
  rw [readBuffer, bufferLoad, bufferLoad]
  by_cases h : off + len ≤ filled f e call offset size
  · rw [if_pos h, if_pos h]
    exact congrArg some (Mem.readLE_congr fun i hi => if_pos (by omega))
  · rw [if_neg h, if_neg h]

theorem loadCompare_cons (c : UInt8) (cs : List UInt8) (k : ℕ) :
    loadCompare (bufferLoad m room) (c :: cs) k =
      if k < room then
        if m k = c then loadCompare (bufferLoad m room) cs (k + 1) else some false
      else none := by
  have hbyte : m.readLE k 1 = c.toNat ↔ m k = c := by simp [Mem.readLE, UInt8.toNat_inj]
  rw [loadCompare, bufferLoad]
  by_cases hk : k < room
  · simp [hk, Nat.succ_le_of_lt hk, hbyte]
  · simp [hk]

variable {cs : List UInt8} {i type : ℕ}

theorem isSome_loadCompare (hcs : cs ≠ []) (k : ℕ) :
    (loadCompare (bufferLoad m room) cs k).isSome ↔ k + cs.length ≤ room ∨
      ∃ j < cs.length, k + j < room ∧ m (k + j) ≠ cs.getD j 0 := by
  induction cs generalizing k with
  | nil => exact absurd rfl hcs
  | cons c cs ih =>
    rw [loadCompare_cons, List.length_cons, Nat.exists_lt_succ_left]
    by_cases hk : k < room
    · by_cases hc : m k = c
      · rw [if_pos hk, if_pos hc]
        cases cs with
        | nil => simp [loadCompare, hk]
        | cons d ds =>
          rw [ih (List.cons_ne_nil d ds)]
          simp [hc, Nat.add_assoc, Nat.add_comm 1]
      · simp [hk, hc]
    · have hno : ∀ j, ¬ k + j < room := by omega
      simp [hk, hno]
      omega

theorem loadCompare_eq_true {k : ℕ} (h : loadCompare (bufferLoad m room) cs k = some b) :
    b = true ↔ ∀ j < cs.length, m (k + j) = cs.getD j 0 := by
  induction cs generalizing k with
  | nil =>
    cases h
    simp
  | cons c cs ih =>
    rw [loadCompare_cons] at h
    rw [List.length_cons, Nat.forall_lt_succ_left]
    split_ifs at h with hk hc
    · rw [ih h]
      simp [hc, Nat.add_assoc, Nat.add_comm 1]
    · cases h
      simp [hc]

theorem isSome_loadNote : (loadNote (bufferLoad m room)).isSome ↔ NoteFits m room := by
  by_cases h12 : 12 ≤ room
  · have h4 : 4 ≤ room := by omega
    by_cases ht : m.readLE 8 4 = kexNoteTypeVersion
    · by_cases h7 : m.readLE 0 4 = 7
      · have hcompare : (loadCompare (bufferLoad m room) kexNoteName 12).isSome ↔
            19 ≤ room ∨ ∃ k < 7, 12 + k < room ∧ m (12 + k) ≠ kexNoteName.getD k 0 :=
          isSome_loadCompare (by decide) 12
        simpa [loadNote, bufferLoad, NoteFits, h12, ht, h4, h7] using hcompare
      · simp [loadNote, bufferLoad, NoteFits, h12, ht, h4, h7]
    · simp [loadNote, bufferLoad, NoteFits, h12, ht]
  · simp [loadNote, bufferLoad, NoteFits, h12]

theorem loadNote_eq (h : loadNote (bufferLoad m room) = some b) : b = isKexNote m := by
  have hfits : NoteFits m room := isSome_loadNote.mp (by rw [h]; rfl)
  have h12 := hfits.1
  have h4 : 4 ≤ room := by omega
  by_cases ht : m.readLE 8 4 = kexNoteTypeVersion
  · by_cases h7 : m.readLE 0 4 = 7
    · have hcompare : loadCompare (bufferLoad m room) kexNoteName 12 = some b := by
        simpa [loadNote, bufferLoad, h12, ht, h4, h7] using h
      have hall : b = true ↔ ∀ k < 7, m (12 + k) = kexNoteName.getD k 0 := loadCompare_eq_true hcompare
      rw [Bool.eq_iff_iff, hall]
      simp [isKexNote, ht, h7]
    · have hb : b = false := by simpa [loadNote, bufferLoad, h12, ht, h4, h7] using h.symm
      simp [isKexNote, hb, h7]
  · have hb : b = false := by simpa [loadNote, bufferLoad, h12, ht] using h.symm
    simp [isKexNote, hb, ht]

theorem noteStep_eq (h4 : 56 * i + 4 ≤ room) : noteStep f e (bufferLoad m room) i =
    if (parsePhdr m i).pType = ptNote then
      if 56 * i + 40 ≤ room then
        loadNote (bufferLoad (f.readByte (parsePhdr m i).pOffset)
          (filled f e (i + 1) (parsePhdr m i).pOffset (parsePhdr m i).pFilesz))
      else none
    else some false := by
  by_cases ht : m.readLE (56 * i) 4 = ptNote
  · by_cases h40 : 56 * i + 40 ≤ room
    · have h16 : 56 * i + 16 ≤ room := by omega
      simp [noteStep, bufferLoad, h4, ht, h40, h16, parsePhdr, readBuffer_eq]
    · simp [noteStep, bufferLoad, h4, ht, h40, parsePhdr]
  · simp [noteStep, bufferLoad, h4, ht, parsePhdr]

theorem isSome_noteStep (i : ℕ) : (noteStep f e (bufferLoad m room) i).isSome ↔
    56 * i + 4 ≤ room ∧ ((parsePhdr m i).pType = ptNote → 56 * i + 40 ≤ room ∧
      NoteFits (f.readByte (parsePhdr m i).pOffset)
        (filled f e (i + 1) (parsePhdr m i).pOffset (parsePhdr m i).pFilesz)) := by
  by_cases h4 : 56 * i + 4 ≤ room
  · rw [noteStep_eq h4, ← isSome_loadNote]
    split_ifs with ht h40 <;> simp [h4, ht]
    · simp [h40]
    · omega
  · simp [noteStep, bufferLoad, h4]

theorem noteStep_eq_true (h : noteStep f e (bufferLoad m room) i = some b) :
    b = true ↔ (parsePhdr m i).pType = ptNote ∧
      isKexNote (f.readByte (parsePhdr m i).pOffset) = true := by
  have h4 := ((isSome_noteStep i).mp (by rw [h]; rfl)).1
  rw [noteStep_eq h4] at h
  split_ifs at h with ht h40
  · rw [loadNote_eq h, and_iff_right ht]
  · cases h
    simp [ht]

theorem isSome_fields (offs : List ℕ) (i : ℕ) (b : Bool) :
    (offs.foldlM (fun _ off => (bufferLoad m room (56 * i + off) 8).map fun _ => false) b).isSome ↔
      ∀ off ∈ offs, 56 * i + off + 8 ≤ room := by
  induction offs generalizing b with
  | nil => simp
  | cons off offs ih =>
    by_cases h : 56 * i + off + 8 ≤ room
    · simp [bufferLoad, h, ← ih false]
    · simp [bufferLoad, h]

theorem isSome_fieldStep {fields : ℕ → List ℕ} (i : ℕ) :
    (fieldStep fields (bufferLoad m room) i).isSome ↔ 56 * i + 4 ≤ room ∧
      ∀ off ∈ fields (parsePhdr m i).pType, 56 * i + off + 8 ≤ room := by
  by_cases h : 56 * i + 4 ≤ room
  · rw [fieldStep, bufferLoad, if_pos h, and_iff_right h]
    exact isSome_fields _ i false
  · simp [fieldStep, bufferLoad, h]

theorem forall_mem_sizeFields : (∀ off ∈ sizeFields type, 56 * i + off + 8 ≤ room) ↔
    (type = ptLoad → 56 * i + 48 ≤ room) := by
  by_cases h : type = ptLoad
  · simp [sizeFields, h]
    omega
  · simp [sizeFields, h]

theorem forall_mem_mapFields : (∀ off ∈ mapFields type, 56 * i + off + 8 ≤ room) ↔
    (type = ptLoad → 56 * i + 48 ≤ room) ∧ (type = ptDynamic → 56 * i + 24 ≤ room) := by
  by_cases h : type = ptLoad
  · simp [mapFields, h]
    omega
  · by_cases hd : type = ptDynamic <;> simp [mapFields, h, hd]

theorem isSome_segmentStep (i : ℕ) : (segmentStep (bufferLoad m room) i).isSome ↔
    56 * i + 4 ≤ room ∧ ((parsePhdr m i).pType = ptLoad → 56 * i + 48 ≤ room) := by
  by_cases h4 : 56 * i + 4 ≤ room
  · by_cases ht : m.readLE (56 * i) 4 = ptLoad
    · by_cases h48 : 56 * i + 48 ≤ room
      · have h : ∀ off len, off + len ≤ 48 → 56 * i + off + len ≤ room := by omega
        simp [segmentStep, bufferLoad, h4, ht, h48, h, parsePhdr]
      · simp [segmentStep, bufferLoad, h4, ht, h48, parsePhdr]
    · simp [segmentStep, bufferLoad, h4, ht, parsePhdr]
  · simp [segmentStep, bufferLoad, h4]

end

section

variable {f : KFile} {e : LoadRun}

theorem readBuffer_headers (h : HeadersRead f) :
    readBuffer f e 0 (parseEhdr f.byte).ePhoff (phSize (parseEhdr f.byte)) =
      bufferLoad (f.readByte (parseEhdr f.byte).ePhoff) (headerRoom f e) := by
  have hsize : phSize (parseEhdr f.byte) ≤ 65535 * 65535 :=
    Nat.mul_le_mul (Nat.le_of_lt_succ (f.byte.readLE_lt 56 2))
      (Nat.le_of_lt_succ (f.byte.readLE_lt 54 2))
  have hreserved : phSize (parseEhdr f.byte) ≤ reserved (phSize (parseEhdr f.byte)) := by
    rw [reserved]
    omega
  rw [readBuffer_eq, headerRoom, filled, h.2.2, min_eq_right hreserved]

theorem isSome_kexHeaders (h : HeadersRead f) :
    (kexHeaders f e).isSome ↔ KexFits f e (headerRoom f e) := by
  rw [kexHeaders, if_pos h, readBuffer_headers h]
  refine (isSome_two_loops isSome_noteStep (fun _ _ => noteStep_eq_true) isSome_segmentStep
    _ _).trans (and_congr_right fun hall => imp_congr_right fun _ => forall₂_congr fun i hi => ?_)
  exact and_iff_right (hall i (hi.trans_le (min_le_right _ _))).1

theorem isSome_kdlHeaders (h : HeadersRead f) (hdyn : (parseEhdr f.byte).eType = etDyn) :
    (kdlHeaders f e).isSome ↔ KdlFits f e (headerRoom f e) := by
  rw [kdlHeaders, if_pos ⟨h, hdyn⟩, readBuffer_headers h]
  refine (isSome_bind_const _ _).trans ?_
  simp only [isSome_eachHeader, isSome_fieldStep, forall_mem_sizeFields, forall_mem_mapFields]
  refine and_congr_right fun hall => forall₂_congr fun i hi => ?_
  have hi := hall i (hi.trans_le (min_le_right _ _))
  rw [and_iff_right hi.1, and_iff_right hi.2]
  rfl

/-- **The files for which the loaders stay inside the buffers of the headers and notes.** -/
theorem header_bounds_iff (f : KFile) (e : LoadRun) :
    ((kexHeaders f e).isSome ↔ (HeadersRead f → KexFits f e (headerRoom f e))) ∧
      ((kdlHeaders f e).isSome ↔
        (HeadersRead f → (parseEhdr f.byte).eType = etDyn → KdlFits f e (headerRoom f e))) := by
  constructor
  · by_cases h : HeadersRead f
    · rw [isSome_kexHeaders h, forall_prop_of_true h]
    · simp [kexHeaders, h]
  · by_cases h : HeadersRead f ∧ (parseEhdr f.byte).eType = etDyn
    · rw [isSome_kdlHeaders h.1 h.2, forall_prop_of_true h.1, forall_prop_of_true h.2]
    · rw [kdlHeaders, if_neg h]
      exact iff_of_true rfl fun h1 h2 => absurd ⟨h1, h2⟩ h

/-- A file of one ELF header, with one program header of no size. -/
def emptyHeaders : KFile where
  size := 64
  byte := fun k => [0x7F, 0x45, 0x4C, 0x46, 2, 1, 0, 0, 0, 0, 0, 0, 0, 0, 0, 0, 3, 0, 62].getD k
    (if k = 56 then 1 else 0)
  size_lt := by decide

/-- The type of a header is read from a buffer of no bytes. -/
theorem header_outside : kexHeaders emptyHeaders ⟨fun _ _ => true, fun _ _ => 0, 1⟩ = none ∧
      kdlHeaders emptyHeaders ⟨fun _ _ => true, fun _ _ => 0, 1⟩ = none := by
  decide +kernel

end

end KeonOS
