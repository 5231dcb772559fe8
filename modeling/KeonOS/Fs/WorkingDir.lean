import KeonOS.Fs.DotDot

/-!
# The working directory of the shell

The shell has its working directory twice: as a node, which `vfs_open` finds, and as a string, which
`cmd_cd` edits. The string of `cd ..` loses what follows its last slash, and a longer string than 255
characters its end.

* `cleanArgs`, `resolvePath`, **`Shell.cd`**: the command;
* **`cwd_in_step`**: along such commands string and node stay in step.
-/

namespace KeonOS

open List

/-! ## The file system -/

/-- Directories and files with names, where `..` leads to the parent. -/
structure DirTree (D : Type) where
  root : D
  isDir : D → Bool
  finddir : D → CStr → Option D
  parent : D → D
  root_isDir : isDir root = true
  parent_root : parent root = root
  parent_finddir : ∀ d c d', finddir d c = some d' → parent d' = d

namespace DirTree

variable {D : Type} (fs : DirTree D)

/-- The loop of `vfs_open`; the root is its own parent. -/
def walk : List CStr → D → Option D
  | [], current => some current
  | c :: cs, current =>
    if c = ['.'] then walk cs current
    else if c = ['.', '.'] then walk cs (fs.parent current)
    else (fs.finddir current c).bind (walk cs)

/-- `vfs_open(path)` with the working directory `cwd` -/
def openPath (cwd : D) (path : CStr) : Option D :=
  fs.walk (pathComponents path) (if isAbsolute path then fs.root else cwd)

theorem walk_append (cs ds : List CStr) (d : D) :
    fs.walk (cs ++ ds) d = (fs.walk cs d).bind (fs.walk ds) := by
  induction cs generalizing d with
  | nil => rfl
  | cons c cs ih =>
    rw [cons_append, walk, walk]
    split_ifs
    · exact ih d
    · exact ih _
    · rw [Option.bind_assoc]
      exact congrArg _ (funext ih)

end DirTree

/-! ## The command -/

/-- The arguments as `shell_execute` passes them on. -/
def cleanArgs (args : CStr) : CStr := ((((args.dropWhile (· = ' ')).take 255).reverse).dropWhile
    fun c => c = ' ' ∨ c = '\t' ∨ c = '\r').reverse

/-- `resolve_path(out, arg)`; both parts have at most 255 characters, and `out` has room for them. -/
def resolvePath (cwd arg : CStr) : CStr :=
  if isAbsolute arg then arg
  else (if cwd ≠ [] ∧ cwd.getLast? ≠ some '/' then cwd ++ ['/'] else cwd) ++ arg

/-- The string after `cd ..`: without what follows the last slash. -/
def upText (cwd : CStr) : CStr :=
  if cwd = ['/'] ∨ '/' ∉ cwd then cwd else (splitPath cwd).1

/-- `current_working_directory` and `cwd_node`, which is null at first. -/
structure Shell (D : Type) where
  text : CStr
  node : Option D

namespace Shell

variable {D : Type} (fs : DirTree D)

def init : Shell D := ⟨['/'], none⟩

/-- The directory that `cwd_node` denotes. -/
def dir (s : Shell D) : D := s.node.getD fs.root

/-- `cmd_cd(args)` in the kernel -/
def cmdCd (s : Shell D) (args : CStr) : Shell D :=
  if args = [] ∨ args = ['~'] then ⟨['/'], some fs.root⟩
  else
    match fs.openPath (s.dir fs) (resolvePath s.text args) with
    | none => s
    | some newDir =>
      if fs.isDir newDir then
        { text := if args = ['.', '.'] then upText s.text
            else if args = ['.'] then s.text
            else (resolvePath s.text args).take 255
          node := some newDir }
      else s

def cd (s : Shell D) (args : CStr) : Shell D := s.cmdCd fs (cleanArgs args)

def InStep (s : Shell D) : Prop := fs.openPath (s.dir fs) s.text = some (s.dir fs)

end Shell

/-- The text that `cd ..` removes is a name, and the new string of another command is not cut. -/
def CdOk (text args : CStr) : Prop := (args = ['.', '.'] → text = ['/'] ∨ IsName (splitPath text).2) ∧
    (args ≠ ['.', '.'] → args ≠ ['.'] → (resolvePath text args).length ≤ 255)

/-! ## Paths -/

section Paths

variable {w q : CStr}

theorem pathComponents_abs (q : CStr) :
    pathComponents ('/' :: q) = components (skipSlashes q).length (skipSlashes q) := by
  have h : skipSlashes ('/' :: q) = skipSlashes q := by simp [skipSlashes]
  rw [pathComponents, if_pos (by simp [isAbsolute]), h]

theorem pathComponents_resolvePath (hw : isAbsolute w = true) (hq : q.head? ≠ some '/') :
    pathComponents (resolvePath w q) = pathComponents w ++ components q.length q := by
  have hskip : skipSlashes q = q := by
    cases q with
    | nil => rfl
    | cons c q =>
      rw [skipSlashes, dropWhile_cons_of_neg]
      simpa using hq
  have hwne : w ≠ [] := by
    rintro rfl
    cases hw
  rw [resolvePath, if_neg (by simpa [isAbsolute] using hq)]
  split_ifs with hend
  · rw [append_assoc, singleton_append, pathComponents_append hwne hq]
  -- the string ends in a slash, which is the one before the name
  have hlast : w.getLast? = some '/' := by
    by_contra h
    exact hend ⟨hwne, h⟩
  obtain ⟨v, rfl⟩ := getLast?_eq_some_iff.mp hlast
  rw [append_assoc, singleton_append]
  cases v with
  | nil =>
    rw [nil_append, nil_append, pathComponents_abs, pathComponents_abs, hskip]
    rfl
  | cons c v =>
    rw [pathComponents_append (cons_ne_nil c v) hq, pathComponents_append (cons_ne_nil c v) (by simp)]
    simp [components]

theorem isAbsolute_resolvePath (hw : isAbsolute w = true) : isAbsolute (resolvePath w q) = true := by
  cases w with
  | nil => cases hw
  | cons c w =>
    rw [resolvePath]
    split_ifs with h1
    · exact h1
    · exact hw
    · exact hw

theorem slash_mem (hw : isAbsolute w = true) : '/' ∈ w := by
  cases w with
  | nil => cases hw
  | cons c w =>
    obtain rfl : c = '/' := by simpa [isAbsolute] using hw
    exact mem_cons_self

theorem components_name (hq : IsName q) : components q.length q = [q] := by
  have hparts : nonemptyParts q = [q] := by
    rw [nonemptyParts, splitOn_eq_singleton hq.noSlash]
    simp [hq.ne_nil]
  rw [components_eq le_rfl (by simpa using hq.head? []), hparts]
  rw [hparts]
  exact fun c hc => mem_singleton.mp hc ▸ hq.length_le

theorem pathComponents_upText (hw : isAbsolute w = true) (hname : IsName (splitPath w).2) :
    pathComponents w = pathComponents (upText w) ++ [(splitPath w).2] ∧
      isAbsolute (upText w) = true := by
  have hmem := slash_mem hw
  obtain ⟨v, hv, -, hdir⟩ := splitPath_append hmem
  have hw1 : w ≠ ['/'] := by
    rintro rfl
    exact hname.ne_nil rfl
  have hup : upText w = if v = [] then ['/'] else v := by
    rw [upText, if_neg (not_or.mpr ⟨hw1, not_not_intro hmem⟩), hdir]
  have hhead : (splitPath w).2.head? ≠ some '/' := by simpa using hname.head? []
  rw [hup]
  split_ifs with hnil
  · subst hnil
    have hskip : skipSlashes (splitPath w).2 = (splitPath w).2 := by
      obtain ⟨c, t, hct⟩ := exists_cons_of_ne_nil hname.ne_nil
      rw [hct] at hhead ⊢
      rw [skipSlashes, dropWhile_cons_of_neg]
      simpa using hhead
    refine ⟨?_, rfl⟩
    conv_lhs => rw [hv, nil_append, pathComponents_abs, hskip, components_name hname]
    rfl
  · refine ⟨?_, ?_⟩
    · conv_lhs => rw [hv, pathComponents_append hnil hhead, components_name hname]
    · rw [hv] at hw
      cases v with
      | nil => exact absurd rfl hnil
      | cons c v => exact hw

end Paths

/-! ## Steps -/

namespace Shell

variable {D : Type} {fs : DirTree D} {s : Shell D} {args : CStr}

/-- The invariant: the string is a path from the root, and it is in step. -/
structure Good (fs : DirTree D) (s : Shell D) : Prop where
  abs : isAbsolute s.text = true
  walk : fs.walk (pathComponents s.text) fs.root = some (s.dir fs)

theorem Good.inStep (h : s.Good fs) : s.InStep fs := by
  rw [InStep, DirTree.openPath, if_pos h.abs]
  exact h.walk

theorem Good.open_eq (h : s.Good fs) (args : CStr) : fs.openPath (s.dir fs) (resolvePath s.text args) =
    fs.walk (pathComponents (resolvePath s.text args)) fs.root := by
  rw [DirTree.openPath, if_pos (isAbsolute_resolvePath h.abs)]

theorem Good.up (h : s.Good fs) (hok : s.text = ['/'] ∨ IsName (splitPath s.text).2) :
    fs.walk (pathComponents (upText s.text)) fs.root = some (fs.parent (s.dir fs)) ∧
      isAbsolute (upText s.text) = true := by
  have hwalk := h.walk
  rcases hok with hroot | hname
  · rw [hroot] at hwalk ⊢
    have hdir : fs.root = s.dir fs := Option.some.inj hwalk
    rw [← hdir, fs.parent_root]
    exact ⟨rfl, rfl⟩
  obtain ⟨hcomp, habs⟩ := pathComponents_upText h.abs hname
  rw [hcomp, fs.walk_append] at hwalk
  obtain ⟨d, hd, hlast⟩ := Option.bind_eq_some_iff.mp hwalk
  rw [DirTree.walk, if_neg hname.ne_dot, if_neg hname.ne_dots] at hlast
  obtain ⟨d', hd', hdir⟩ := Option.bind_eq_some_iff.mp hlast
  rw [hd, ← Option.some.inj hdir, fs.parent_finddir d _ d' hd']
  exact ⟨rfl, habs⟩

theorem Good.cmdCd (h : s.Good fs) (hok : CdOk s.text args) : (s.cmdCd fs args).Good fs := by
  unfold Shell.cmdCd
  by_cases hhome : args = [] ∨ args = ['~']
  · rw [if_pos hhome]
    exact ⟨rfl, rfl⟩
  rw [if_neg hhome, h.open_eq]
  cases hopen : fs.walk (pathComponents (resolvePath s.text args)) fs.root with
  | none => exact h
  | some newDir =>
    dsimp only
    by_cases hdir : fs.isDir newDir = true
    · rw [if_pos hdir]
      by_cases hup : args = ['.', '.']
      · -- the walk of `cd ..` ends at the parent
        obtain ⟨hwalk, habs⟩ := h.up (hok.1 hup)
        rw [hup, pathComponents_resolvePath h.abs (by simp), fs.walk_append, h.walk] at hopen
        rw [if_pos hup]
        exact ⟨habs, hwalk.trans hopen⟩
      · rw [if_neg hup]
        by_cases hdot : args = ['.']
        · rw [hdot, pathComponents_resolvePath h.abs (by simp), fs.walk_append, h.walk] at hopen
          rw [if_pos hdot]
          exact ⟨h.abs, h.walk.trans hopen⟩
        · rw [if_neg hdot, take_of_length_le (hok.2 hup hdot)]
          exact ⟨isAbsolute_resolvePath h.abs, hopen⟩
    · rwa [if_neg hdir]

def RunOk (fs : DirTree D) : Shell D → List CStr → Prop
  | _, [] => True
  | s, args :: rest => CdOk s.text (cleanArgs args) ∧ RunOk fs (s.cd fs args) rest

end Shell

open Shell

/-- **String and node stay in step**, along commands that meet the condition. -/
theorem cwd_in_step {D : Type} (fs : DirTree D) (commands : List CStr)
    (hok : RunOk fs (Shell.init : Shell D) commands) :
    ∀ p, p <+: commands → (p.foldl (Shell.cd fs) Shell.init).InStep fs := by
  suffices h : ∀ (commands : List CStr) (s : Shell D), s.Good fs → RunOk fs s commands →
      ∀ p, p <+: commands → (p.foldl (Shell.cd fs) s).InStep fs from
    h commands _ ⟨rfl, rfl⟩ hok
  intro commands
  induction commands with
  | nil =>
    intro s hs _ p hp
    rw [prefix_nil.mp hp]
    exact hs.inStep
  | cons args rest ih =>
    intro s hs hrun p hp
    cases p with
    | nil => exact hs.inStep
    | cons a p =>
      obtain ⟨rfl, hrest⟩ := cons_prefix_cons.mp hp
      exact ih _ (hs.cmdCd hrun.1) hrun.2 p hrest

def oneDir : DirTree Bool where
  root := false
  isDir _ := true
  finddir d c := if d = false ∧ c = ['a'] then some true else none
  parent _ := false
  root_isDir := rfl
  parent_root := rfl
  parent_finddir d c d' h := by
    split_ifs at h with hd
    exact hd.1.symm

theorem cwd_in_step_oneDir : ([['a'], ['.', '.']].foldl (Shell.cd oneDir) Shell.init).InStep oneDir := by
  refine cwd_in_step oneDir [['a'], ['.', '.']] ?_ _ prefix_rfl
  refine ⟨⟨fun h => absurd h (by decide), by decide⟩, ⟨fun _ => .inr ?_, by decide⟩, trivial⟩
  exact ⟨by decide, by decide, by decide, by decide, by decide⟩

/-- **`cd a/` and `cd ..`**: the node is the root, and the string is `/a`. -/
theorem cwd_out_of_step : ¬ ∀ p, p <+: [['a', '/'], ['.', '.']] →
      (p.foldl (Shell.cd oneDir) Shell.init).InStep oneDir := by
  intro h
  have := h _ prefix_rfl
  revert this
  unfold Shell.InStep
  decide

end KeonOS
