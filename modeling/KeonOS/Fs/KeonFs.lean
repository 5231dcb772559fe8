import Mathlib
import KeonOS.Lib.Bytes

/-!
# The initrd image

`pack_keonfs.py` writes an image and `KeonFS_MountNode` mounts it. The two agree: mounting a packed image
gives back the files.

* `packHeader`, **`pack`**: the script;
* `KeonFile`, **`keonMount`**, `keonFinddir`, `KeonFile.read`: the mount node and its files;
* **`mount_pack`**: decoding undoes encoding.

A string of the image is the list of its bytes without the terminating zero.
-/

namespace KeonOS

open Mem List

/-- `KEONFS_MAGIC` -/
abbrev keonMagic : ℕ := 0x4B454F4E

/-- `struct.calcsize("<I64sIIII")` -/
abbrev keonHeaderSize : ℕ := 84

abbrev keonInfoSize : ℕ := 32

/-! ## Packing -/

structure PackFile where
  name : List UInt8
  data : List UInt8

/-- One `I` of `struct.pack`, which raises an error when the number does not fit. -/
def packU32 (v : ℕ) : Option (List UInt8) := if v < 2 ^ 32 then some (leBytes 4 v) else none

/-- `name.encode('ascii')[:63].ljust(64, b'\x00')` -/
def packName (name : List UInt8) : Option (List UInt8) :=
  if ∀ b ∈ name, b < 128 then some (name.take 63 ++ List.replicate (64 - (name.take 63).length) 0)
  else none

def packHeader (name : List UInt8) (size offset next : ℕ) : Option (List UInt8) := do
  let magic ← packU32 keonMagic
  let name ← packName name
  let size ← packU32 size
  let offset ← packU32 offset
  let next ← packU32 next
  let reserved ← packU32 0
  pure (magic ++ name ++ size ++ offset ++ next ++ reserved)

def padding (offset : ℕ) : ℕ := (4 - offset % 4) % 4

/-- The loop over the files from number `i` of `count` on. -/
def packFiles (count : ℕ) : ℕ → ℕ → List PackFile → Option (List UInt8 × List UInt8 × ℕ)
  | _, dataOffset, [] => some ([], [], dataOffset)
  | i, dataOffset, f :: fs => do
    let offset := dataOffset + padding dataOffset
    let next := if i < count - 1 then keonInfoSize + (i + 1) * keonHeaderSize else 0
    let header ← packHeader f.name f.data.length offset next
    let (headers, payloads, stop) ← packFiles count (i + 1) (offset + f.data.length) fs
    pure (header ++ headers, List.replicate (padding dataOffset) 0 ++ f.data ++ payloads, stop)

/-- `struct.pack("<IIIIIIII", MAGIC, file_count, VERSION, total_size, 0, 0, 0, 0)` -/
def packInfo (count total : ℕ) : Option (List UInt8) := do
  let magic ← packU32 keonMagic
  let count ← packU32 count
  let version ← packU32 1
  let total ← packU32 total
  let zero ← packU32 0
  pure (magic ++ count ++ version ++ total ++ zero ++ zero ++ zero ++ zero)

/-- `pack()`: the image for the files in the order of the directory. -/
def pack (files : List PackFile) : Option (List UInt8) := do
  let start := keonInfoSize + files.length * keonHeaderSize
  let (headers, payloads, total) ← packFiles files.length 0 start files
  let info ← packInfo files.length total
  pure (info ++ headers ++ payloads)

/-- The offset after the data of the files, which is the size of the image. -/
def endOffset : ℕ → List PackFile → ℕ
  | dataOffset, [] => dataOffset
  | dataOffset, f :: fs => endOffset (dataOffset + padding dataOffset + f.data.length) fs

def imageSize (files : List PackFile) : ℕ :=
  endOffset (keonInfoSize + files.length * keonHeaderSize) files

/-! ## Mounting -/

/-- A `KeonFS_File`; its data is given by the offset in the image. -/
structure KeonFile where
  name : List UInt8
  size : ℕ
  data : ℕ
deriving DecidableEq, Repr

/-- A string of at most `n` bytes, up to a zero: `strncpy` -/
def cstring (m : Mem) (a n : ℕ) : List UInt8 := (m.bytesAt a n).takeWhile (· ≠ 0)

def keonChild (m : Mem) (hdr : ℕ) : KeonFile :=
  ⟨cstring m (hdr + 4) 127, m.readLE (hdr + 68) 4, m.readLE (hdr + 72) 4⟩

/-- The loop of the constructor over `n` more files; a panic has no result. The sum has 32 bits. -/
def keonLoop (m : Mem) (fsSize : ℕ) : ℕ → ℕ → List KeonFile → Option (List KeonFile)
  | 0, _, children => some children
  | n + 1, hdr, children =>
    if fsSize < (m.readLE (hdr + 72) 4 + m.readLE (hdr + 68) 4) % 2 ^ 32 then none
    else if 128 ≤ children.length then none
    else if m.readLE (hdr + 76) 4 = 0 then some (children ++ [keonChild m hdr])
    else keonLoop m fsSize n (m.readLE (hdr + 76) 4) (children ++ [keonChild m hdr])

/-- The constructor of `KeonFS_MountNode`: the children. -/
def keonMount (m : Mem) : Option (List KeonFile) :=
  if m.readLE 0 4 ≠ keonMagic then none
  else keonLoop m (m.readLE 12 4) (m.readLE 4 4) keonInfoSize []

/-- `KeonFS_MountNode::finddir` -/
def keonFinddir (children : List KeonFile) (name : List UInt8) : Option KeonFile :=
  children.find? fun c => c.name = name

/-- `KeonFS_File::read` -/
def KeonFile.read (m : Mem) (f : KeonFile) (offset size : ℕ) : List UInt8 :=
  if f.size ≤ offset then []
  else
    m.bytesAt (f.data + offset) (if f.size < (offset + size) % 2 ^ 32 then f.size - offset else size)

/-! ## What was packed -/

/-- A name that the format can hold: ASCII, not empty, at most 63 bytes. -/
structure KeonName (name : List UInt8) : Prop where
  ne_nil : name ≠ []
  length_le : name.length ≤ 63
  ascii : ∀ b ∈ name, b ≠ 0 ∧ b < 128

/-- The children for files whose data starts at `dataOffset`. -/
def keonChildren : ℕ → List PackFile → List KeonFile
  | _, [] => []
  | dataOffset, f :: fs =>
    ⟨f.name, f.data.length, dataOffset + padding dataOffset⟩ ::
      keonChildren (dataOffset + padding dataOffset + f.data.length) fs

def headerBytes (name : List UInt8) (size offset next : ℕ) : List UInt8 :=
  leBytes 4 keonMagic ++ (name ++ List.replicate (64 - name.length) 0) ++ leBytes 4 size ++
    leBytes 4 offset ++ leBytes 4 next ++ leBytes 4 0

theorem packU32_eq {v : ℕ} (h : v < 2 ^ 32) : packU32 v = some (leBytes 4 v) := if_pos h

variable {name : List UInt8} {count total : ℕ} {files : List PackFile} {m : Mem}

theorem packHeader_eq (hname : KeonName name) {size offset next : ℕ}
    (hsize : size < 2 ^ 32) (hoffset : offset < 2 ^ 32) (hnext : next < 2 ^ 32) :
    packHeader name size offset next = some (headerBytes name size offset next) := by
  have htake : name.take 63 = name := take_of_length_le hname.length_le
  have hpack : packName name = some (name ++ List.replicate (64 - name.length) 0) := by
    rw [packName, if_pos fun b hb => (hname.ascii b hb).2, htake]
  simp only [packHeader, packU32_eq hsize, packU32_eq hoffset, packU32_eq hnext, hpack,
    packU32_eq (show keonMagic < 2 ^ 32 by norm_num), packU32_eq (show 0 < 2 ^ 32 by norm_num)]
  rfl

theorem length_headerBytes (hname : KeonName name) (size offset next : ℕ) :
    (headerBytes name size offset next).length = keonHeaderSize := by
  have := hname.length_le
  simp only [headerBytes, length_append, length_leBytes, length_replicate, keonHeaderSize]
  omega

/-! ## Reading a header -/

section Header

variable {m : Mem} {a : ℕ} {name : List UInt8} {size offset next : ℕ}

theorem cstring_eq (hname : KeonName name)
    (h : m.bytesAt a 64 = name ++ List.replicate (64 - name.length) 0) : cstring m a 127 = name := by
  have hlen := hname.length_le
  have hsplit : m.bytesAt a 127 = name ++ (0 :: (List.replicate (63 - name.length) 0 ++
      m.bytesAt (a + 64) 63)) := by
    rw [show 127 = 64 + 63 from rfl, bytesAt_add, h, append_assoc,
      show 64 - name.length = (63 - name.length) + 1 by omega, replicate_succ, cons_append]
  rw [cstring, hsplit, takeWhile_append_of_pos]
  · simp
  · intro b hb
    simpa using (hname.ascii b hb).1

theorem header_fields (hname : KeonName name) (hsize : size < 2 ^ 32) (hoffset : offset < 2 ^ 32)
    (hnext : next < 2 ^ 32)
    (h : m.bytesAt a keonHeaderSize = headerBytes name size offset next) :
    keonChild m a = ⟨name, size, offset⟩ ∧ m.readLE (a + 76) 4 = next := by
  rw [← length_headerBytes hname size offset next, headerBytes] at h
  have hlen : (name ++ List.replicate (64 - name.length) (0 : UInt8)).length = 64 := by
    have := hname.length_le
    rw [length_append, length_replicate]
    omega
  -- the parts of the header, from the last one on
  obtain ⟨h, -⟩ := bytesAt_append h
  obtain ⟨h, h5⟩ := bytesAt_append h
  obtain ⟨h, h4⟩ := bytesAt_append h
  obtain ⟨h, h3⟩ := bytesAt_append h
  obtain ⟨h, h2⟩ := bytesAt_append h
  simp only [length_append, length_leBytes, hlen] at h2 h3 h4 h5
  have hread : ∀ {b v : ℕ}, v < 2 ^ 32 → m.bytesAt b 4 = leBytes 4 v → m.readLE b 4 = v :=
    fun hv hb => (readLE_of_bytesAt hb).trans (Nat.mod_eq_of_lt hv)
  refine ⟨?_, hread hnext h5⟩
  rw [keonChild, cstring_eq hname h2, hread hsize h3, hread hoffset h4]

end Header

/-! ## The loop -/

structure KeonFile.Is (m : Mem) (c : KeonFile) (f : PackFile) : Prop where
  name : c.name = f.name
  size : c.size = f.data.length
  data : m.bytesAt c.data f.data.length = f.data

theorem keonLoop_packFiles (i dataOffset : ℕ) {fsSize : ℕ}
    (hnames : ∀ f ∈ files, KeonName f.name) (hcount : i + files.length = count) (h128 : count ≤ 128)
    (hend : endOffset dataOffset files ≤ fsSize) (hlt : fsSize < 2 ^ 32) :
    ∃ headers payloads,
      packFiles count i dataOffset files = some (headers, payloads, endOffset dataOffset files) ∧
      headers.length = files.length * keonHeaderSize ∧
      dataOffset + payloads.length = endOffset dataOffset files ∧
      (∀ (m : Mem) (children : List KeonFile), children.length = i →
        m.bytesAt (keonInfoSize + i * keonHeaderSize) headers.length = headers →
        keonLoop m fsSize files.length (keonInfoSize + i * keonHeaderSize) children =
          some (children ++ keonChildren dataOffset files)) ∧
      (∀ m : Mem, m.bytesAt dataOffset payloads.length = payloads →
        List.Forall₂ (KeonFile.Is m) (keonChildren dataOffset files) files) := by
  induction files generalizing i dataOffset with
  | nil =>
    refine ⟨[], [], rfl, rfl, rfl, fun m children _ _ => ?_, fun m _ => .nil⟩
    rw [keonChildren, append_nil]
    rfl
  | cons f fs ih =>
    rw [length_cons] at hcount
    rw [endOffset] at hend
    have hname := hnames f mem_cons_self
    obtain ⟨headers, payloads, hpack, hlen, hplen, hloop, hdata⟩ :=
      ih (i + 1) _ (fun g hg => hnames g (mem_cons_of_mem _ hg)) (by omega) hend
    generalize hnext : (if i < count - 1 then keonInfoSize + (i + 1) * keonHeaderSize else 0) = next
    have hnext32 : next < 2 ^ 32 := by
      rw [← hnext]
      split_ifs
      · simp only [keonInfoSize, keonHeaderSize]
        omega
      · norm_num
    have hhead : packHeader f.name f.data.length (dataOffset + padding dataOffset) next = _ :=
      packHeader_eq hname (by omega) (by omega) hnext32
    have hhlen := length_headerBytes hname f.data.length (dataOffset + padding dataOffset) next
    refine ⟨headerBytes f.name f.data.length (dataOffset + padding dataOffset) next ++ headers,
      List.replicate (padding dataOffset) 0 ++ f.data ++ payloads, ?_, ?_, ?_,
      fun m children hi hm => ?_, fun m hm => ?_⟩
    · simp only [packFiles, hnext, hhead, hpack]
      rfl
    · rw [length_append, hhlen, hlen, length_cons, Nat.add_mul, Nat.one_mul, Nat.add_comm]
    · rw [length_append, length_append, length_replicate, endOffset, ← hplen]
      omega
    · obtain ⟨h1, h2⟩ := bytesAt_append hm
      rw [hhlen] at h1 h2
      obtain ⟨hchild, hread⟩ := header_fields hname (by omega) (by omega) hnext32 h1
      obtain ⟨-, hs, ho⟩ := KeonFile.mk.inj hchild
      rw [length_cons, keonLoop, hs, ho, hread, hchild, Nat.mod_eq_of_lt (by omega),
        if_neg (by omega), if_neg (by omega), keonChildren]
      -- the last header has no next one
      by_cases hlast : i < count - 1
      · rw [if_pos hlast] at hnext
        rw [if_neg (by rw [← hnext]; simp only [keonInfoSize]; omega), ← hnext,
          hloop m _ (by rw [length_append, hi]; rfl), append_assoc, singleton_append]
        rwa [Nat.add_mul, Nat.one_mul, ← Nat.add_assoc]
      · rw [if_neg hlast] at hnext
        obtain rfl : fs = [] := length_eq_zero_iff.mp (by omega)
        rw [if_pos hnext.symm, keonChildren]
    · obtain ⟨h12, h3⟩ := bytesAt_append hm
      obtain ⟨-, h2⟩ := bytesAt_append h12
      rw [length_append, length_replicate, ← Nat.add_assoc] at h3
      rw [length_replicate] at h2
      exact .cons ⟨rfl, rfl, h2⟩ (hdata m h3)

/-! ## The round trip -/

def infoBytes (count total : ℕ) : List UInt8 :=
  leBytes 4 keonMagic ++ leBytes 4 count ++ leBytes 4 1 ++ leBytes 4 total ++ leBytes 4 0 ++
    leBytes 4 0 ++ leBytes 4 0 ++ leBytes 4 0

theorem packInfo_eq (hcount : count < 2 ^ 32) (htotal : total < 2 ^ 32) :
    packInfo count total = some (infoBytes count total) := by
  simp only [packInfo, packU32_eq hcount, packU32_eq htotal,
    packU32_eq (show keonMagic < 2 ^ 32 by norm_num), packU32_eq (show 1 < 2 ^ 32 by norm_num),
    packU32_eq (show 0 < 2 ^ 32 by norm_num)]
  rfl

theorem info_fields (hcount : count < 2 ^ 32) (htotal : total < 2 ^ 32)
    (h : m.bytesAt 0 (infoBytes count total).length = infoBytes count total) :
    m.readLE 0 4 = keonMagic ∧ m.readLE 4 4 = count ∧ m.readLE 12 4 = total := by
  obtain ⟨h, -⟩ := bytesAt_append h
  obtain ⟨h, -⟩ := bytesAt_append h
  obtain ⟨h, -⟩ := bytesAt_append h
  obtain ⟨h, -⟩ := bytesAt_append h
  obtain ⟨h, h4⟩ := bytesAt_append h
  obtain ⟨h, -⟩ := bytesAt_append h
  obtain ⟨h1, h2⟩ := bytesAt_append h
  simp only [length_append, length_leBytes] at h1 h2 h4
  exact ⟨(readLE_of_bytesAt h1).trans (by norm_num), (readLE_of_bytesAt h2).trans (Nat.mod_eq_of_lt hcount),
    (readLE_of_bytesAt h4).trans (Nat.mod_eq_of_lt htotal)⟩

theorem keonFinddir_eq {children : List KeonFile}
    (h : List.Forall₂ (KeonFile.Is m) children files) (hnodup : (files.map PackFile.name).Nodup)
    {k : ℕ} {c : KeonFile} {f : PackFile} (hc : children[k]? = some c) (hf : files[k]? = some f) :
    keonFinddir children f.name = some c := by
  induction h generalizing k with
  | nil => cases hc
  | @cons c₀ f₀ children files hcf _ ih =>
    rw [map_cons, nodup_cons] at hnodup
    rw [keonFinddir, find?_cons]
    cases k with
    | zero =>
      cases hc
      cases hf
      rw [decide_eq_true hcf.name]
    | succ k =>
      have hmem : f.name ∈ files.map PackFile.name := mem_map_of_mem (mem_of_getElem? hf)
      have hne : c₀.name ≠ f.name := by
        intro heq
        rw [← heq, hcf.name] at hmem
        exact hnodup.1 hmem
      rw [decide_eq_false hne]
      exact ih hnodup.2 hc hf

/-- **Mounting a packed image gives back the files**, in order, with their names, sizes and bytes. -/
theorem mount_pack (files : List PackFile) (h128 : files.length ≤ 128)
    (hnames : ∀ f ∈ files, KeonName f.name) (hnodup : (files.map PackFile.name).Nodup)
    (hsize : imageSize files < 2 ^ 32) :
    ∃ image children, pack files = some image ∧ image.length = imageSize files ∧
      keonMount (ofBytes image) = some children ∧ children.length = files.length ∧
      ∀ (k : ℕ) (f : PackFile), files[k]? = some f → ∃ c, children[k]? = some c ∧ c.name = f.name ∧
        c.size = f.data.length ∧ keonFinddir children f.name = some c ∧
        c.read (ofBytes image) 0 c.size = f.data := by
  have hcount : files.length < 2 ^ 32 := by omega
  obtain ⟨headers, payloads, hpack, hlen, hplen, hloop, hdata⟩ :=
    keonLoop_packFiles 0 (keonInfoSize + files.length * keonHeaderSize) hnames (Nat.zero_add _) h128
      (le_refl (imageSize files)) hsize
  rw [← imageSize] at hpack hplen
  generalize himage : infoBytes files.length (imageSize files) ++ headers ++ payloads = image
  have hinfo : (infoBytes files.length (imageSize files)).length = keonInfoSize := by
    simp [infoBytes]
  -- the three parts of the image in memory
  have hall := bytesAt_ofBytes image
  rw [← himage] at hall
  obtain ⟨h12, h3⟩ := bytesAt_append hall
  obtain ⟨h1, h2⟩ := bytesAt_append h12
  rw [himage] at h1 h2 h3
  rw [length_append, hinfo, hlen, Nat.zero_add] at h3
  obtain ⟨hmagic, htotal, hfs⟩ := info_fields hcount hsize h1
  have hfiles := hdata _ h3
  refine ⟨image, keonChildren (keonInfoSize + files.length * keonHeaderSize) files, ?_, ?_, ?_,
    hfiles.length_eq, fun k f hf => ?_⟩
  · simp only [pack, hpack, Option.bind_eq_bind, Option.bind_some, packInfo_eq hcount hsize]
    exact congrArg some himage
  · rw [← himage, length_append, length_append, hinfo, hlen, hplen]
  · rw [keonMount, if_neg (not_not.mpr hmagic), hfs, htotal]
    exact hloop _ [] rfl (by rwa [Nat.zero_mul, Nat.add_zero])
  · obtain ⟨hk, hget⟩ := List.getElem?_eq_some_iff.mp hf
    have hk' := hfiles.length_eq.trans_gt hk
    have hc := getElem?_eq_getElem hk'
    have his := hfiles.get hk' hk
    rw [get_eq_getElem, get_eq_getElem, hget] at his
    refine ⟨_, hc, his.name, his.size, keonFinddir_eq hfiles hnodup hc hf, ?_⟩
    rw [KeonFile.read, his.size, Nat.zero_add, Nat.add_zero]
    split_ifs with h0
    · exact (length_eq_zero_iff.mp (Nat.le_zero.mp h0)).symm
    · exact his.data
    · exact his.data

theorem mount_pack_two : ∃ image children, pack [⟨[0x61], [1, 2, 3]⟩, ⟨[0x62], []⟩] = some image ∧
      keonMount (ofBytes image) = some children ∧ children.length = 2 := by
  obtain ⟨image, children, hpack, -, hmount, hlen, -⟩ :=
    mount_pack [⟨[0x61], [1, 2, 3]⟩, ⟨[0x62], []⟩] (by decide) (by
        intro f hf
        simp only [mem_cons, not_mem_nil, or_false] at hf
        rcases hf with rfl | rfl <;> exact ⟨by decide, by decide, by simp⟩)
      (by decide) (by decide)
  exact ⟨image, children, hpack, hmount, hlen⟩

end KeonOS
