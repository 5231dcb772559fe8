import KeonOS.Mm.Virt

/-!
# Path strings of the system calls

Five system calls take a path. Each copies 255 bytes from the address of the string, whatever its length,
and `copy_from_user` checks every one of them, so that the call also needs the bytes behind the string.

* **`path_string_iff`**: when a call acts on that string.
-/

namespace KeonOS

open Word List Option

/-- The loop of `copy_from_user`: the bytes, or none for false. The outer none is a fault. -/
def copyFromUser (s : Mmu) (src : ℕ) : ℕ → Option (Option (List UInt8))
  | 0 => some (some [])
  | n + 1 =>
    match copyFromUser s src n with
    | some (some bytes) =>
      if pagingIsUserAccessible s (add64 src n) then
        (s.readVirt (add64 src n)).map fun b => some (bytes ++ [b])
      else some none
    | r => r

inductive PathCall
  | sysOpen
  | sysMkdir
  | sysUnlink
  | sysStat
  | sysLoadLibrary

namespace PathCall

/-- What the call returns when the copy fails. -/
def refused : PathCall → ℕ
  | .sysLoadLibrary => 0
  | _ => 2 ^ 64 - 1

def run (call : PathCall) (act : List UInt8 → ℕ) (s : Mmu) (pathPtr : ℕ) : Option ℕ :=
  (copyFromUser s pathPtr 255).map fun
    | some bytes => act ((bytes ++ [0]).takeWhile (· ≠ 0))
    | none => call.refused

end PathCall

/-- The string with its terminator is at `u`, in pages that the user can access. -/
structure UserString (s : Mmu) (u : ℕ) (str : List UInt8) : Prop where
  length : str.length ≤ 254
  noZero : 0 ∉ str
  bytes : ∀ i < str.length + 1, pagingIsUserAccessible s (add64 u i) = true ∧
    s.readVirt (add64 u i) = (str ++ [0])[i]?

variable {s : Mmu} {u n : ℕ} {str : List UInt8}

theorem copyFromUser_eq_iff {bytes : List UInt8} :
    copyFromUser s u n = some (some bytes) ↔ bytes.length = n ∧
      ∀ i < n, pagingIsUserAccessible s (add64 u i) = true ∧ s.readVirt (add64 u i) = bytes[i]? := by
  induction n generalizing bytes with
  | zero =>
    rw [copyFromUser, Option.some.injEq, Option.some.injEq]
    exact ⟨fun h => h ▸ ⟨rfl, by simp⟩, fun h => (length_eq_zero_iff.mp h.1).symm⟩
  | succ n ih =>
    rw [copyFromUser]
    constructor
    · intro h
      cases hn : copyFromUser s u n with
      | none => simp [hn] at h
      | some r =>
        cases r with
        | none => simp [hn] at h
        | some l =>
          obtain ⟨hlen, hl⟩ := ih.mp hn
          simp only [hn] at h
          by_cases hacc : pagingIsUserAccessible s (add64 u n) = true
          swap
          · simp [hacc] at h
          rw [if_pos hacc] at h
          obtain ⟨b, hb, heq⟩ := map_eq_some_iff.mp h
          rw [← Option.some.inj heq]
          refine ⟨by simp [hlen], fun i hi => ?_⟩
          rcases Nat.lt_succ_iff_lt_or_eq.mp hi with hi | rfl
          · rw [getElem?_append_left (by omega)]
            exact hl i hi
          · rw [getElem?_append_right (by omega), hlen, Nat.sub_self]
            exact ⟨hacc, hb⟩
    · rintro ⟨hlen, hl⟩
      have hlast := hl n (Nat.lt_succ_self n)
      have hcopied : copyFromUser s u n = some (some (bytes.take n)) := by
        refine ih.mpr ⟨by simp [hlen], fun i hi => ?_⟩
        rw [getElem?_take_of_lt hi]
        exact hl i (by omega)
      have hget := getElem?_eq_getElem (show n < bytes.length by omega)
      simp only [hcopied, hlast.1, if_true, hlast.2, hget, map_some]
      rw [take_concat_get', take_of_length_le (by omega)]

theorem UserString.path_eq (h : UserString s u str) {bytes : List UInt8}
    (hcopy : copyFromUser s u 255 = some (some bytes)) :
    (bytes ++ [0]).takeWhile (· ≠ 0) = str := by
  obtain ⟨hlen, hbytes⟩ := copyFromUser_eq_iff.mp hcopy
  have hlength := h.length
  have hpre : bytes.take (str.length + 1) = str ++ [0] := by
    refine ext_getElem? fun i => ?_
    by_cases hi : i < str.length + 1
    · rw [getElem?_take_of_lt hi, ← (hbytes i (by omega)).2, (h.bytes i hi).2]
    · rw [getElem?_eq_none (by simp; omega), getElem?_eq_none (by simp; omega)]
  rw [← take_append_drop (str.length + 1) bytes, hpre, append_assoc, append_assoc,
    takeWhile_append_of_pos fun c hc => ?_, singleton_append, takeWhile_cons_of_neg (by simp),
    append_nil]
  exact decide_eq_true fun h0 => h.noZero (h0 ▸ hc)

/-- **When a call acts on the string it is given**: all 255 bytes from its address on are mapped for the
user. -/
theorem path_string_iff (h : UserString s u str) (call : PathCall) :
    (∀ act, call.run act s u = some (act str)) ↔
      ∀ i < 255, pagingIsUserAccessible s (add64 u i) = true ∧ (s.access (add64 u i)).isSome := by
  constructor
  · intro hrun
    cases hcopy : copyFromUser s u 255 with
    | none =>
      have := hrun fun _ => 0
      simp [PathCall.run, hcopy] at this
    | some r =>
      cases r with
      | none =>
        have := hrun fun _ => call.refused + 1
        simp [PathCall.run, hcopy] at this
      | some bytes =>
        obtain ⟨hlen, hbytes⟩ := copyFromUser_eq_iff.mp hcopy
        refine fun i hi => ⟨(hbytes i hi).1, ?_⟩
        have hread := (hbytes i hi).2
        rw [getElem?_eq_getElem (by omega), Mmu.readVirt] at hread
        obtain ⟨p, hp, -⟩ := map_eq_some_iff.mp hread
        rw [hp]
        rfl
  · intro hall act
    let bytes := (List.range 255).map fun i => (s.readVirt (add64 u i)).getD 0
    have hcopy : copyFromUser s u 255 = some (some bytes) := by
      refine copyFromUser_eq_iff.mpr ⟨by simp [bytes], fun i hi => ⟨(hall i hi).1, ?_⟩⟩
      obtain ⟨p, hp⟩ := isSome_iff_exists.mp (hall i hi).2
      rw [getElem?_map, getElem?_range hi, map_some, Mmu.readVirt, hp, map_some, getD_some]
    rw [PathCall.run, hcopy, map_some]
    exact congrArg (fun p => some (act p)) (h.path_eq hcopy)

/-- The first page is mapped for the user, and its last byte but one is a letter. -/
def userPage : Mmu where
  pfa := ⟨0, 0, fun _ => 0, 1, by decide, by decide⟩
  mem := fun x => if x = 0x5FFE then 97 else if x = 0x1000 ∨ x = 0x2000 ∨ x = 0x3000 ∨ x = 0x4000 then 7
    else if x = 0x1001 then 0x20 else if x = 0x2001 then 0x30 else if x = 0x3001 then 0x40
    else if x = 0x4001 then 0x50 else 0
  cr3 := 0x1000
  mappedPages := 1

theorem path_string_userPage : PathCall.sysOpen.run List.length userPage 0 = some ([] : List UInt8).length :=
  (path_string_iff ⟨by decide, by decide, by decide +kernel⟩ .sysOpen).mpr (by decide +kernel) _

theorem path_string_refused : UserString userPage 4094 [97] ∧ ∀ call : PathCall, ∀ act,
      call.run act userPage 4094 = some call.refused := by
  refine ⟨⟨by decide, by decide, by decide +kernel⟩, fun call act => ?_⟩
  have hcopy : copyFromUser userPage 4094 255 = some none := by decide +kernel
  rw [PathCall.run, hcopy, map_some]

end KeonOS
