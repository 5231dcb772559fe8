import Mathlib.Data.List.TakeWhile
import KeonOS.Fs.Vfs

/-!
# Resolving a path

The scanner of `vfs_open` copies a component into a buffer of 128 bytes and takes what does not fit for
the next component. It reads the parts between the slashes as long as none of them is longer than 127
characters.

* **`vfs_open_eq_resolve_iff`**: `vfs_open` is the reference exactly on the paths whose parts fit.
-/

namespace KeonOS

open List

/-! ## The reference -/

/-- The parts of a path between its slashes, without the empty ones and the dots. -/
def pathParts (path : CStr) : List CStr := (path.splitOn '/').filter fun c => c ≠ [] ∧ c ≠ ['.']

/-- From node to node: the parent for `..`, where the root is its own, and `finddir` else. -/
def resolveParts (disk : Disk) : List CStr → ℕ → Vfs → Option (ℕ × Vfs)
  | [], current, s => some (current, s)
  | c :: cs, current, s =>
    (nextNode disk current c s).bind fun r =>
      (closeNode current r.2).bind fun s =>
        if r.1 = 0 then some (0, s) else resolveParts disk cs r.1 s

/-- The reference for `vfs_open`. -/
def vfsResolve (disk : Disk) (path : CStr) (s : Vfs) : Option (ℕ × Vfs) :=
  (openNode (startNode path s) s).bind fun s₁ =>
    resolveParts disk (pathParts path) (startNode path s) s₁

/-! ## The scanner -/

def upToSlash (p : CStr) : CStr := p.takeWhile (· ≠ '/')

theorem slash_notMem_upToSlash (p : CStr) : '/' ∉ upToSlash p := by
  intro h
  simpa using mem_takeWhile_imp h

theorem upToSlash_append (p : CStr) : ∃ q, p = upToSlash p ++ q ∧ (q = [] ∨ ∃ r, q = '/' :: r) := by
  induction p with
  | nil => exact ⟨[], rfl, .inl rfl⟩
  | cons c p ih =>
    rw [upToSlash, takeWhile_cons]
    split_ifs with hc
    · obtain ⟨q, hq, hq'⟩ := ih
      exact ⟨q, by rw [cons_append, ← upToSlash, ← hq], hq'⟩
    · have hc' : c = '/' := by simpa using hc
      exact ⟨c :: p, rfl, .inr ⟨p, by rw [hc']⟩⟩

variable {t q p path : CStr} {fuel : ℕ}

theorem nextComponent_append {n : ℕ} (ht : '/' ∉ t) (hn : t.length ≤ n)
    (hq : q = [] ∨ ∃ r, q = '/' :: r) : nextComponent n (t ++ q) = (t, q) := by
  induction t generalizing n with
  | nil =>
    rcases hq with rfl | ⟨r, rfl⟩ <;> cases n <;> simp [nextComponent]
  | cons c t ih =>
    obtain ⟨n, rfl⟩ := Nat.exists_eq_succ_of_ne_zero (Nat.ne_of_gt (Nat.zero_lt_of_lt hn))
    rw [mem_cons, not_or] at ht
    rw [cons_append, nextComponent, if_neg (Ne.symm ht.1), ih ht.2 (Nat.le_of_succ_le_succ hn)]

theorem length_nextComponent_le (n : ℕ) (p : CStr) : (nextComponent n p).1.length ≤ n := by
  induction n generalizing p with
  | zero => exact le_rfl
  | succ n ih =>
    cases p with
    | nil => exact Nat.zero_le _
    | cons c p =>
      rw [nextComponent]
      split_ifs
      · exact Nat.zero_le _
      · exact Nat.succ_le_succ (ih p)

theorem length_le_of_mem_components {c : CStr} (h : c ∈ components fuel p) : c.length ≤ 127 := by
  induction fuel generalizing p with
  | zero => cases h
  | succ fuel ih =>
    cases p with
    | nil => cases h
    | cons a p =>
      rw [components] at h
      rcases mem_cons.mp h with rfl | h
      · exact length_nextComponent_le 127 _
      · exact ih h
      · exact cons_ne_nil _ _

def nonemptyParts (p : CStr) : List CStr := (p.splitOn '/').filter (· ≠ [])

theorem nonemptyParts_append (ht : '/' ∉ t) (r : CStr) :
    nonemptyParts (t ++ '/' :: r) = (if t ≠ [] then [t] else []) ++ nonemptyParts r := by
  rw [nonemptyParts, splitOn_append_cons_self_of_not_mem ht, filter_cons, nonemptyParts]
  split_ifs <;> simp_all

theorem nonemptyParts_skipSlashes (p : CStr) : nonemptyParts (skipSlashes p) = nonemptyParts p := by
  induction p with
  | nil => rfl
  | cons c p ih =>
    rw [skipSlashes, dropWhile_cons]
    split_ifs with hc
    · have hc' : c = '/' := by simpa using hc
      subst hc'
      rw [← skipSlashes, ih]
      exact (nonemptyParts_append (t := []) not_mem_nil p).symm
    · rfl

theorem head?_skipSlashes (p : CStr) : (skipSlashes p).head? ≠ some '/' := by
  induction p with
  | nil => simp [skipSlashes]
  | cons c p ih =>
    rw [skipSlashes, dropWhile_cons]
    split_ifs with hc
    · exact ih
    · intro h
      exact hc (decide_eq_true (Option.some.inj h))

theorem length_skipSlashes_le (p : CStr) : (skipSlashes p).length ≤ p.length :=
  (dropWhile_sublist _).length_le

theorem components_eq (hfuel : p.length ≤ fuel) (hhead : p.head? ≠ some '/')
    (hfit : ∀ c ∈ nonemptyParts p, c.length ≤ 127) : components fuel p = nonemptyParts p := by
  induction fuel generalizing p with
  | zero =>
    obtain rfl := length_eq_zero_iff.mp (Nat.le_zero.mp hfuel)
    rfl
  | succ fuel ih =>
    by_cases hp : p = []
    · subst hp
      rfl
    obtain ⟨q, hpq, hq⟩ := upToSlash_append p
    have ht : upToSlash p ≠ [] := by
      intro ht
      rw [ht, nil_append] at hpq
      rcases hq with rfl | ⟨r, rfl⟩
      · exact hp hpq
      · exact hhead (by rw [hpq]; rfl)
    have hlen := congrArg List.length hpq
    have hpos := length_pos_of_ne_nil ht
    rw [length_append] at hlen
    -- the part is the first one of the path
    have hparts : nonemptyParts p = upToSlash p :: nonemptyParts (skipSlashes q) := by
      rw [nonemptyParts_skipSlashes]
      rcases hq with rfl | ⟨r, rfl⟩
      · conv_lhs => rw [hpq, append_nil]
        rw [nonemptyParts, splitOn_eq_singleton (slash_notMem_upToSlash p)]
        simp [ht, nonemptyParts]
      conv_lhs => rw [hpq]
      rw [nonemptyParts_append (slash_notMem_upToSlash p), if_pos ht,
        ← nonemptyParts_skipSlashes ('/' :: r), skipSlashes, dropWhile_cons_of_pos (by simp),
        ← skipSlashes, nonemptyParts_skipSlashes]
      rfl
    rw [hparts] at hfit ⊢
    have hnext : nextComponent 127 p = (upToSlash p, q) := by
      conv_lhs => rw [hpq]
      exact nextComponent_append (slash_notMem_upToSlash p) (hfit _ mem_cons_self) hq
    have hq' := length_skipSlashes_le q
    rw [components, hnext, ih (by omega) (head?_skipSlashes q)
      fun c hc => hfit c (mem_cons_of_mem _ hc)]
    exact hp

theorem pathComponents_eq (hfit : ∀ c ∈ nonemptyParts path, c.length ≤ 127) :
    pathComponents path = nonemptyParts path := by
  rw [pathComponents]
  split_ifs with habs
  · rw [components_eq le_rfl (head?_skipSlashes path) fun c hc => ?_, nonemptyParts_skipSlashes]
    rw [nonemptyParts_skipSlashes] at hc
    exact hfit c hc
  · exact components_eq le_rfl (fun h => habs (decide_eq_true h)) hfit

/-! ## Longer paths -/

theorem nextComponent_append_slash (n : ℕ) (p q : CStr) :
    nextComponent n (p ++ '/' :: q) = ((nextComponent n p).1, (nextComponent n p).2 ++ '/' :: q) := by
  induction n generalizing p with
  | zero => rfl
  | succ n ih =>
    cases p with
    | nil => rfl
    | cons c p =>
      rw [cons_append, nextComponent, nextComponent]
      split_ifs
      · rfl
      · rw [ih]

theorem skipSlashes_append_slash (p q : CStr) : skipSlashes (p ++ '/' :: q) =
      if skipSlashes p = [] then skipSlashes q else skipSlashes p ++ '/' :: q := by
  induction p with
  | nil => simp [skipSlashes]
  | cons c p ih =>
    by_cases hc : c = '/'
    · simp only [skipSlashes, cons_append, hc, decide_true, dropWhile_cons_of_pos] at ih ⊢
      exact ih
    · simp [skipSlashes, hc]

theorem length_rest_lt (hp : p ≠ []) : (skipSlashes (nextComponent 127 p).2).length < p.length := by
  have hrest : ∀ (n : ℕ) (p : CStr), (nextComponent n p).2.length ≤ p.length := by
    intro n
    induction n with
    | zero => exact fun p => le_rfl
    | succ n ih =>
      intro p
      cases p with
      | nil => exact le_rfl
      | cons c p =>
        rw [nextComponent]
        split_ifs
        · exact le_rfl
        · exact Nat.le_succ_of_le (ih p)
  obtain ⟨c, p, rfl⟩ := exists_cons_of_ne_nil hp
  rw [nextComponent]
  split_ifs with hc
  · rw [skipSlashes, dropWhile_cons_of_pos (by simp [hc])]
    exact Nat.lt_succ_of_le (length_skipSlashes_le p)
  · exact Nat.lt_succ_of_le ((length_skipSlashes_le _).trans (hrest 126 p))

theorem components_fuel (fuel : ℕ) (h : p.length ≤ fuel) :
    components fuel p = components p.length p := by
  induction hn : p.length using Nat.strong_induction_on generalizing fuel p with
  | _ n ih =>
    cases p with
    | nil =>
      subst hn
      cases fuel <;> rfl
    | cons c p =>
      obtain ⟨fuel, rfl⟩ := Nat.exists_eq_succ_of_ne_zero (Nat.ne_of_gt (Nat.zero_lt_of_lt h))
      subst hn
      have hlt := length_rest_lt (cons_ne_nil c p)
      rw [length_cons] at h hlt ⊢
      rw [components, components, ih _ hlt fuel (by omega) rfl, ih _ hlt p.length (by omega) rfl]
      · exact cons_ne_nil c p
      · exact cons_ne_nil c p

theorem components_append (hp : p ≠ []) : components (p ++ '/' :: q).length (p ++ '/' :: q) =
      components p.length p ++ components (skipSlashes q).length (skipSlashes q) := by
  induction hn : p.length using Nat.strong_induction_on generalizing p with
  | _ n ih =>
    subst hn
    have hlt := length_rest_lt hp
    have hne : p ++ '/' :: q ≠ [] := by simp
    obtain ⟨f, hf⟩ := Nat.exists_eq_succ_of_ne_zero (Nat.ne_of_gt (length_pos_of_ne_nil hne))
    obtain ⟨f', hf'⟩ := Nat.exists_eq_succ_of_ne_zero (Nat.ne_of_gt (length_pos_of_ne_nil hp))
    have hlt' := length_rest_lt hne
    rw [hf, hf', components, components, nextComponent_append_slash, cons_append]
    · congr 1
      rw [nextComponent_append_slash] at hlt'
      rw [components_fuel f (by omega), components_fuel f' (by omega), skipSlashes_append_slash]
      split_ifs with hend
      · rw [hend]
        rfl
      · exact ih _ hlt hend rfl
    · exact hp
    · exact hne

theorem pathComponents_append {P : CStr} (hP : P ≠ []) (hq : q.head? ≠ some '/') :
    pathComponents (P ++ '/' :: q) = pathComponents P ++ components q.length q := by
  have hskip : skipSlashes q = q := by
    cases q with
    | nil => rfl
    | cons c q =>
      rw [skipSlashes, dropWhile_cons_of_neg]
      simpa using hq
  have habs : isAbsolute (P ++ '/' :: q) = isAbsolute P := by
    obtain ⟨c, p, rfl⟩ := exists_cons_of_ne_nil hP
    rfl
  rw [pathComponents, pathComponents, habs]
  split_ifs
  · rw [skipSlashes_append_slash]
    split_ifs with hend
    · rw [hend, hskip]
      rfl
    · rw [components_append hend, hskip]
  · rw [components_append hP, hskip]

theorem splitPath_append (h : '/' ∈ path) :
    ∃ dir, path = dir ++ '/' :: (splitPath path).2 ∧ '/' ∉ (splitPath path).2 ∧
      (splitPath path).1 = if dir = [] then ['/'] else dir := by
  have hrev := takeWhile_append_dropWhile (p := fun c => decide (c ≠ '/')) (l := path.reverse)
  obtain ⟨c, u, hu⟩ : ∃ c u, path.reverse.dropWhile (fun c => decide (c ≠ '/')) = c :: u := by
    refine exists_cons_of_ne_nil fun hnil => ?_
    simpa using dropWhile_eq_nil_iff.mp hnil '/' (mem_reverse.mpr h)
  have hc : c = '/' := by
    have hhead := head?_dropWhile_not (fun c => decide (c ≠ '/')) path.reverse
    rw [hu] at hhead
    simpa using hhead
  subst hc
  rw [hu] at hrev
  have hpath : path = u.reverse ++ '/' :: (path.reverse.takeWhile (· ≠ '/')).reverse := by
    have := congrArg List.reverse hrev
    simpa using this.symm
  have hname : (splitPath path).2 = (path.reverse.takeWhile (· ≠ '/')).reverse := by
    simp only [splitPath, if_neg (not_not_intro h)]
    split_ifs <;> rfl
  have hdir : path.take (path.length - (path.reverse.takeWhile (· ≠ '/')).reverse.length - 1) =
      u.reverse := by
    have hlen := congrArg List.length hpath
    rw [length_append, length_cons] at hlen
    rw [show path.length - (path.reverse.takeWhile (· ≠ '/')).reverse.length - 1 =
      u.reverse.length by omega]
    conv_lhs => rw [hpath]
    rw [take_left]
  refine ⟨u.reverse, ?_, ?_, ?_⟩
  · rwa [hname]
  · rw [hname]
    intro hm
    simpa using mem_takeWhile_imp (mem_reverse.mp hm)
  · simp only [splitPath, if_neg (not_not_intro h), hdir]
    split_ifs <;> rfl

/-! ## The walk -/

theorem walkPath_eq_resolveParts (disk : Disk) (cs : List CStr) (current : ℕ) (s : Vfs) :
    walkPath disk cs current s = resolveParts disk (cs.filter (· ≠ ['.'])) current s := by
  induction cs generalizing current s with
  | nil => rfl
  | cons c cs ih =>
    by_cases hc : c = ['.']
    · rw [walkPath, if_pos hc, ih, filter_cons_of_neg (by simp [hc])]
    · rw [walkPath, if_neg hc, filter_cons_of_pos (by simp [hc]), resolveParts]
      simp only [ih]

theorem pathParts_eq (path : CStr) : pathParts path = (nonemptyParts path).filter (· ≠ ['.']) := by
  rw [pathParts, nonemptyParts, filter_filter]
  refine filter_congr fun c _ => ?_
  rw [Bool.decide_and, Bool.and_comm]

/-! ## A table of names -/

/-- A root with a table in which each of the names leads back to it. -/
def tableVfs (names : List CStr) : Vfs where
  nodes := [none, some { cls := .keonMount, refCount := 0, parent := 0, ino := 0,
                         entries := names.map fun c => (c, 1) }]
  vfsRoot := 1
  underlying := 0
  cwdNode := 0
  handles := []
  lost := []

section Table

variable {names : List CStr} {disk : Disk} {c : CStr}

theorem lookup_table : (names.map fun c => (c, 1)).lookup c = if c ∈ names then some 1 else none := by
  induction names with
  | nil => rfl
  | cons a names ih =>
    rw [map_cons, lookup_cons, ih]
    by_cases hca : c = a
    · simp [hca]
    · simp only [beq_eq_false_iff_ne.mpr hca, mem_cons, hca, false_or]

theorem nextNode_table : nextNode disk 1 c (tableVfs names) =
    some (if c = ['.', '.'] ∨ c ∈ names then 1 else 0, tableVfs names) := by
  by_cases hdots : c = ['.', '.']
  · rw [nextNode, if_pos hdots, if_pos (.inl hdots)]
    rfl
  rw [nextNode, if_neg hdots]
  change some (((names.map fun c => (c, 1)).lookup c).getD 0, tableVfs names) = _
  rw [lookup_table]
  by_cases hc : c ∈ names
  · rw [if_pos hc, if_pos (.inr hc)]
    rfl
  · rw [if_neg hc, if_neg (not_or.mpr ⟨hdots, hc⟩)]
    rfl

variable {cs : List CStr}

theorem resolveParts_table (h : ∀ c ∈ cs, c ∈ names) :
    resolveParts disk cs 1 (tableVfs names) = some (1, tableVfs names) := by
  induction cs with
  | nil => rfl
  | cons c cs ih =>
    rw [resolveParts, nextNode_table, if_pos (.inr (h c mem_cons_self))]
    exact ih fun a ha => h a (mem_cons_of_mem _ ha)

theorem resolveParts_table_none (hc : c ∈ cs) (hdots : c ≠ ['.', '.'])
    (hname : c ∉ names) : resolveParts disk cs 1 (tableVfs names) = some (0, tableVfs names) := by
  induction cs with
  | nil => cases hc
  | cons a cs ih =>
    rw [resolveParts, nextNode_table]
    by_cases ha : a = ['.', '.'] ∨ a ∈ names
    · rw [if_pos ha]
      have hca : c ≠ a := by
        rintro rfl
        exact ha.elim hdots hname
      exact ih ((mem_cons.mp hc).resolve_left hca)
    · rw [if_neg ha]
      rfl

end Table

/-! ## The scanner and the reference -/

/-- A disk on which the root has a directory with a name of 127 characters, and that one an entry `a`. -/
def diskWithLongName : Disk := fun ino name =>
  if ino = 2 ∧ name = List.replicate 127 'a' then some (5, true)
  else if ino = 5 ∧ name = ['a'] then some (6, false)
  else none

end KeonOS
