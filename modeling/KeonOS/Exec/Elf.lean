import KeonOS.Lib.Word
import KeonOS.Lib.Bytes

/-!
# Program files

A file as the loader reads it through `vfs_read`, and the parts of the ELF format it looks at.

* `KFile`, `KFile.readLen`, `KFile.readByte`: a read, with the 32-bit parameters of `vfs_read`;
* `Ehdr`, `Phdr`: the fields used, with their offsets;
* `validateElf`: the check of the header;
* `programHeaders`: the table as it stands in the heap buffer after the read;
* `kexNoteFound`: the search for the KEX note.
-/

namespace KeonOS

open Word

/-- A file: its size, and the bytes from its first one on. -/
structure KFile where
  size : ℕ
  byte : Mem
  size_lt : size < 2 ^ 32

namespace KFile

/-- The number of bytes that `vfs_read` copies. The sum `offset + size` is a 32-bit sum. -/
def readLen (f : KFile) (offset size : ℕ) : ℕ :=
  if f.size ≤ offset % 2 ^ 32 then 0
  else if f.size < (offset % 2 ^ 32 + size % 2 ^ 32) % 2 ^ 32 then f.size - offset % 2 ^ 32
  else size % 2 ^ 32

/-- The `k`-th byte that such a read copies. -/
def readByte (f : KFile) (offset k : ℕ) : UInt8 := f.byte (offset % 2 ^ 32 + k)

theorem readLen_of_le {f : KFile} {offset size : ℕ} (h : offset + size ≤ f.size) :
    f.readLen offset size = size := by
  have := f.size_lt
  rw [readLen, Nat.mod_eq_of_lt (show offset < 2 ^ 32 by omega),
    Nat.mod_eq_of_lt (show size < 2 ^ 32 by omega), Nat.mod_eq_of_lt (by omega)]
  split_ifs <;> omega

/-- A buffer with old contents `slack` after such a read. -/
def readInto (f : KFile) (offset size : ℕ) (slack : Mem) : Mem := fun k =>
  if k < f.readLen offset size then f.readByte offset k else slack k

end KFile

/-! ## Headers -/

/-- `Elf64_Ehdr`, as far as it is used. -/
structure Ehdr where
  eIdent : ℕ → UInt8
  eType : ℕ
  eMachine : ℕ
  ePhoff : ℕ
  ePhentsize : ℕ
  ePhnum : ℕ

/-- `sizeof(Elf64_Ehdr)` -/
abbrev ehdrSize : ℕ := 64

def parseEhdr (m : Mem) : Ehdr where
  eIdent := m
  eType := m.readLE 16 2
  eMachine := m.readLE 18 2
  ePhoff := m.readLE 32 8
  ePhentsize := m.readLE 54 2
  ePhnum := m.readLE 56 2

abbrev etExec : ℕ := 2
abbrev etDyn : ℕ := 3
abbrev emX86_64 : ℕ := 62

def validateElf (hdr : Ehdr) : Bool :=
  if hdr.eIdent 0 ≠ 0x7F ∨ hdr.eIdent 1 ≠ 0x45 ∨ hdr.eIdent 2 ≠ 0x4C ∨ hdr.eIdent 3 ≠ 0x46 then false
  else if hdr.eIdent 4 ≠ 2 then false
  else if hdr.eIdent 5 ≠ 1 then false
  else if hdr.eMachine ≠ emX86_64 then false
  else if hdr.eType ≠ etExec ∧ hdr.eType ≠ etDyn then false
  else true

/-- `Elf64_Phdr`, as far as it is used. -/
structure Phdr where
  pType : ℕ
  pOffset : ℕ
  pVaddr : ℕ
  pFilesz : ℕ
  pMemsz : ℕ
deriving DecidableEq, Repr

abbrev ptLoad : ℕ := 1
abbrev ptDynamic : ℕ := 2
abbrev ptNote : ℕ := 4

/-- `ph[i]`: the loader steps by `sizeof(Elf64_Phdr)`, whatever `e_phentsize` says. -/
def parsePhdr (m : Mem) (i : ℕ) : Phdr where
  pType := m.readLE (56 * i) 4
  pOffset := m.readLE (56 * i + 8) 8
  pVaddr := m.readLE (56 * i + 16) 8
  pFilesz := m.readLE (56 * i + 32) 8
  pMemsz := m.readLE (56 * i + 40) 8

def phSize (hdr : Ehdr) : ℕ := hdr.ePhnum * hdr.ePhentsize

/-- The program headers, read into a heap buffer that held `slack`. -/
def programHeaders (f : KFile) (hdr : Ehdr) (slack : Mem) : List Phdr :=
  (List.range hdr.ePhnum).map (parsePhdr (f.readInto hdr.ePhoff (phSize hdr) slack))

/-! ## The KEX note -/

abbrev kexNoteTypeVersion : ℕ := 0x1001

/-- `"KeonOS"` with its terminator. -/
def kexNoteName : List UInt8 := [0x4B, 0x65, 0x6F, 0x6E, 0x4F, 0x53, 0]

/-- The test of one note in its buffer. -/
def isKexNote (buf : Mem) : Bool := buf.readLE 8 4 == kexNoteTypeVersion && buf.readLE 0 4 == 7 &&
    (List.range 7).all fun k => buf (12 + k) == kexNoteName.getD k 0

/-- The first pass over the program headers; `slack` is what the note buffers held. -/
def kexNoteFound (f : KFile) (phs : List Phdr) (slack : Mem) : Bool := phs.any fun ph =>
    ph.pType == ptNote && isKexNote (f.readInto ph.pOffset ph.pFilesz slack)

end KeonOS
