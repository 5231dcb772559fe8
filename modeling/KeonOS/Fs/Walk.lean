import KeonOS.Fs.Lifetime

/-!
# Walking a path

The loop of `vfs_open` keeps the invariant of the nodes, unless it goes up from a FAT32 node right below
the root: that opens and closes the base of the overlay.

* **`turns`**: one turn of the loop;
* **`VfsInv.walk`**: the whole walk.
-/

namespace KeonOS

open Option

/-! ## Positions -/

/-- Where a walk is: at the root, in the initrd, or so many directories below the root of the disk. -/
inductive VPos
  | root
  | mount
  | file
  | disk (depth : ℕ)
deriving DecidableEq

/-- The ancestors of the FAT32 node at `a`, up to the base: they have been left, and nothing owns
them. -/
def Above (s : Vfs) : ℕ → ℕ → Prop
  | 0, a => ∃ n, s.node a = some n ∧ n.parent = s.underlying
  | d + 1, a => ∃ n m, s.node a = some n ∧ s.node n.parent = some m ∧ m.cls = .fatDir ∧
      m.refCount = 2 ^ 32 - 1 ∧ n.parent ≠ s.underlying ∧ n.parent ∉ s.owners ∧ Above s d n.parent

/-- The walk is at the node `a`, in the position `pos`. -/
def At (fat : Bool) (s : Vfs) (a : ℕ) : VPos → Prop
  | .root => a = s.vfsRoot
  | .mount => ∃ n, s.node a = some n ∧ n.cls = .keonMount
  | .file => ∃ n, s.node a = some n ∧ n.cls = .keonFile
  | .disk d => (∃ n, s.node a = some n ∧ n.cls.onDisk = true ∧ n.refCount = 0) ∧
      a ≠ s.underlying ∧ a ∉ s.owners ∧ (fat = true → Above s d a)

variable {s : Vfs} {a d : ℕ} {n : VNode}

theorem VfsInv.parent_lt (h : VfsInv true s) (ha : s.node a = some n)
    (hd : n.cls.onDisk = true) : n.parent < a := by
  have hok := h.nodes a n ha
  unfold NodeOk at hok
  cases hc : n.cls <;> simp only [hc] at hok hd
  case fatDir => exact hok.2.2
  case fatFile => exact hok.2.2
  case ext4Dir => exact absurd hok.1 (by decide)
  case ext4File => exact absurd hok.1 (by decide)
  all_goals exact absurd hd (by decide)

theorem Above.congr {s' : Vfs} (h : VfsInv true s) (hg : SameGlobals s s')
    (hab : Above s d a) {n' : VNode} (hn : s.node a = some n) (hd : n.cls.onDisk = true)
    (hn' : s'.node a = some n') (hpar : n'.parent = n.parent)
    (hbelow : ∀ b, b < a → s'.node b = s.node b) : Above s' d a := by
  induction d generalizing a n n' with
  | zero =>
    obtain ⟨k, hk, hp⟩ := hab
    obtain rfl := Option.some.inj (hn.symm.trans hk)
    exact ⟨n', hn', by rw [hpar, hp, hg.underlying]⟩
  | succ d ih =>
    obtain ⟨k, m, hk, hm, hmc, hmr, hne, hown, hab⟩ := hab
    obtain rfl := Option.some.inj (hn.symm.trans hk)
    have hlt : n.parent < a := h.parent_lt hn hd
    have hm' : s'.node n.parent = some m := (hbelow _ hlt).trans hm
    refine ⟨n', m, hn', ?_⟩
    rw [hpar, hg.underlying, hg.owners]
    exact ⟨hm', hmc, hmr, hne, hown,
      ih hab hm (by rw [hmc]; rfl) hm' rfl fun b hb => hbelow b (hb.trans hlt)⟩

theorem At.free {fat : Bool} {s : Vfs} {a : ℕ} {pos : VPos} (h : VfsInv fat s)
    (hat : At fat s a pos) : ∃ n, s.node a = some n ∧ s.Free a n := by
  cases pos with
  | root =>
    obtain ⟨n, hn, hc⟩ := h.root
    obtain rfl : a = s.vfsRoot := hat
    exact ⟨n, hn, fun hd => absurd hd (by rw [hc]; decide)⟩
  | mount =>
    obtain ⟨n, hn, hc⟩ := hat
    exact ⟨n, hn, fun hd => absurd hd (by rw [hc]; decide)⟩
  | file =>
    obtain ⟨n, hn, hc⟩ := hat
    exact ⟨n, hn, fun hd => absurd hd (by rw [hc]; decide)⟩
  | disk d =>
    obtain ⟨⟨n, hn, -, hcount⟩, hbase, hown, -⟩ := hat
    exact ⟨n, hn, fun _ => ⟨hcount, hbase, hown⟩⟩

/-! ## Walking -/

/-- Where a component other than `.` leads. -/
def VPos.next (mounts : List CStr) (c : CStr) : VPos → VPos
  | .root => if c = ['.', '.'] then .root else if c ∈ mounts then .mount else .disk 0
  | .mount => if c = ['.', '.'] then .root else .file
  | .file => .file
  | .disk d => if c = ['.', '.'] then .disk (d - 1) else .disk (d + 1)

/-- The walk goes up from a node right below the root of the disk. -/
def leavesDisk (mounts : List CStr) : VPos → List CStr → Bool
  | _, [] => false
  | pos, c :: cs =>
    if c = ['.'] then leavesDisk mounts pos cs
    else (pos = .disk 0 ∧ c = ['.', '.']) || leavesDisk mounts (pos.next mounts c) cs

/-- The result `r` of `finddir` or `create` on a disk: null, or a new node. On FAT32 its parent is
`parent`. -/
structure Made (fat : Bool) (s : Vfs) (parent : ℕ) (r : ℕ × Vfs) : Prop where
  inv : VfsInv fat r.2
  globals : SameGlobals s r.2
  old : ∀ b, b ≠ s.nodes.length → r.2.node b = s.node b
  new : r.1 ≠ 0 → r.1 = s.nodes.length ∧ ∃ k, r.2.node r.1 = some k ∧ k.cls.onDisk = true ∧
    k.refCount = 0 ∧ (fat = true → k.parent = parent)

section Made

variable {fat : Bool} {s : Vfs} {parent : ℕ} {n k : VNode}

theorem made_null (h : VfsInv fat s) : Made fat s parent (0, s) :=
  ⟨h, .refl, fun _ _ => rfl, fun h0 => absurd rfl h0⟩

theorem made_alloc (h : VfsInv fat s) (hok : NodeOk fat s s.nodes.length k)
    (hd : k.cls.onDisk = true) (hcount : k.refCount = 0) (hpar : fat = true → k.parent = parent) :
    Made fat s parent (s.alloc k) := by
  have hold : ∀ b, b ≠ s.nodes.length → (s.alloc k).2.node b = s.node b := by
    intro b hb
    rw [Vfs.node_alloc, if_neg hb]
  refine ⟨h.alloc hok, ⟨rfl, rfl, rfl, rfl, ?_⟩, hold, fun _ => ⟨rfl, k, ?_, hd, hcount, hpar⟩⟩
  · obtain ⟨m, hm, -⟩ := h.root
    change (((s.alloc k).2.node s.vfsRoot).map _).getD [] = _
    rw [hold _ (Vfs.lt_of_node hm).ne, Vfs.mounts]
  · exact Vfs.node_alloc.trans (if_pos rfl)

theorem made_finddir (h : VfsInv fat s) (hn : s.node parent = some n) (hd : n.cls.onDisk = true)
    (disk : Disk) (name : CStr) : Made fat s parent (baseFinddir disk parent n name s) := by
  have hlt := Vfs.lt_of_node hn
  have hok := h.nodes _ n hn
  unfold NodeOk at hok
  unfold baseFinddir
  cases hc : n.cls <;> simp only [hc] at hok hd ⊢
  case ext4Dir =>
    cases disk n.ino name with
    | none => exact made_null h
    | some e =>
      obtain ⟨ino, isDir⟩ := e
      have hfat : fat = true → 0 = parent := fun ht => absurd (hok.1.symm.trans ht) (by decide)
      cases isDir
      · exact made_alloc h ⟨hok.1, rfl, rfl⟩ rfl rfl hfat
      · exact made_alloc h ⟨hok.1, rfl, rfl⟩ rfl rfl hfat
  case fatDir =>
    cases disk n.ino name with
    | none => exact made_null h
    | some e =>
      obtain ⟨ino, isDir⟩ := e
      cases isDir
      · exact made_alloc h ⟨hok.1, rfl, hlt⟩ rfl rfl fun _ => rfl
      · exact made_alloc h ⟨hok.1, .inl rfl, hlt⟩ rfl rfl fun _ => rfl
  all_goals first | exact made_null h | exact absurd hd (by decide)

theorem made_create (h : VfsInv fat s) (hn : s.node a = some n) (made : Option ℕ) :
    Made fat s 0 (baseCreate made n s) := by
  have hok := h.nodes _ n hn
  have hlt : 0 < s.nodes.length := Nat.pos_of_ne_zero h.length_fresh.1
  unfold NodeOk at hok
  unfold baseCreate
  cases made with
  | none => cases n.cls <;> exact made_null h
  | some ino =>
    cases hc : n.cls <;> simp only [hc] at hok ⊢
    case ext4Dir => exact made_alloc h ⟨hok.1, rfl, rfl⟩ rfl rfl fun _ => rfl
    case fatDir => exact made_alloc h ⟨hok.1, rfl, hlt⟩ rfl rfl fun _ => rfl
    all_goals exact made_null h

theorem Made.free {r : ℕ × Vfs} (hm : Made fat s parent r) (h : VfsInv fat s) (h0 : r.1 ≠ 0) :
    ∃ k, r.2.node r.1 = some k ∧ k.cls.onDisk = true ∧ k.refCount = 0 ∧ r.1 ≠ r.2.underlying ∧
      r.1 ∉ r.2.owners ∧ (fat = true → k.parent = parent) := by
  obtain ⟨haddr, k, hk, hd, hcount, hpar⟩ := hm.new h0
  have hfresh := h.length_fresh
  refine ⟨k, hk, hd, hcount, ?_, ?_, hpar⟩
  · rw [hm.globals.underlying, haddr]
    exact hfresh.2.1
  · rw [hm.globals.owners, haddr]
    exact hfresh.2.2

end Made

/-- The walk has gone on to `next` in `s'`, or has ended with null. -/
structure Went (fat : Bool) (s : Vfs) (next : ℕ) (pos : VPos) (s' : Vfs) : Prop where
  inv : VfsInv fat s'
  globals : SameGlobals s s'
  arrives : next ≠ 0 → At fat s' next pos

/-- One turn of the loop, for a component that is not `.`. -/
def Turns (fat : Bool) (disk : Disk) (s : Vfs) (cur : ℕ) (c : CStr) (pos : VPos) : Prop :=
  ∃ r s', nextNode disk cur c s = some r ∧ closeNode cur r.2 = some s' ∧ Went fat s r.1 pos s'

section Step

variable {fat : Bool} {s : Vfs} {cur : ℕ} {n : VNode} {disk : Disk} {c : CStr} (h : VfsInv fat s)
include h

theorem turns_null (hn : s.node cur = some n) (hfree : s.Free cur n)
    (hnext : nextNode disk cur c s = some (0, s)) (pos : VPos) : Turns fat disk s cur c pos := by
  obtain ⟨s', hclose, hinv, hch, -⟩ := h.close hn hfree
  exact ⟨_, s', hnext, hclose, hinv, hch.globals, fun h0 => absurd rfl h0⟩

theorem VfsInv.ne_root (hn : s.node cur = some n) (hc : n.cls ≠ .overlay) : cur ≠ s.vfsRoot := by
  rintro rfl
  obtain ⟨r, hr, hrc⟩ := h.root
  exact hc (Option.some.inj (hn.symm.trans hr) ▸ hrc)

omit h in
theorem nextNode_up (hn : s.node cur = some n) (hroot : cur ≠ s.vfsRoot) :
    nextNode disk cur ['.', '.'] s =
      if n.parent = 0 then some (0, s) else (openNode n.parent s).map fun s => (n.parent, s) := by
  simp only [nextNode, hn, bind_some, if_pos, if_neg hroot]

omit h in
theorem nextNode_name (hn : s.node cur = some n) (hc : n.cls ≠ .overlay) (hname : c ≠ ['.', '.']) :
    nextNode disk cur c s = some (baseFinddir disk cur n c s) := by
  simp only [nextNode, if_neg hname, finddir, hn, bind_some, if_neg hc]

theorem turns_to_root (hn : s.node cur = some n) (hd : n.cls.onDisk = false)
    (hnext : nextNode disk cur c s = (openNode s.vfsRoot s).map fun s' => (s.vfsRoot, s')) :
    Turns fat disk s cur c .root := by
  obtain ⟨s₁, hopen, hinv₁, hch₁⟩ := h.open_root
  have hn₁ : ∃ n₁, s₁.node cur = some n₁ ∧ n₁.cls.onDisk = false := by
    by_cases hcur : cur = s.vfsRoot
    · obtain ⟨r, hr, hrc⟩ := hinv₁.root
      rw [hch₁.globals.vfsRoot, ← hcur] at hr
      exact ⟨r, hr, by rw [hrc]; rfl⟩
    · exact ⟨n, (hch₁.node _ hcur).trans hn, hd⟩
  obtain ⟨n₁, hn₁, hd₁⟩ := hn₁
  obtain ⟨s₂, hclose, hinv₂, hch₂, -⟩ := hinv₁.close hn₁ fun ht => absurd (hd₁.symm.trans ht) (by decide)
  refine ⟨(s.vfsRoot, s₁), s₂, by rw [hnext, hopen]; rfl, hclose, hinv₂,
    hch₁.globals.trans hch₂.globals, fun _ => ?_⟩
  rw [At, hch₂.globals.vfsRoot, hch₁.globals.vfsRoot]

variable {b : ℕ} {pos : VPos}

omit h in
theorem mem_of_lookup {entries : List (CStr × ℕ)} (h : entries.lookup c = some b) :
    (c, b) ∈ entries := by
  obtain ⟨l₁, l₂, rfl, -⟩ := List.lookup_eq_some_iff.mp h
  simp

theorem turns_mount (hn : s.node s.vfsRoot = some n) (hc : n.cls = .overlay)
    (hname : c ≠ ['.', '.']) (hl : n.entries.lookup c = some b) :
    Turns fat disk s s.vfsRoot c .mount := by
  have hnext : nextNode disk s.vfsRoot c s = some (b, s) := by
    simp only [nextNode, if_neg hname, finddir, hn, bind_some, if_pos hc, hl]
  have hok := h.nodes _ n hn
  simp only [NodeOk, hc] at hok
  obtain ⟨m, hm, hmc⟩ := hok.2.2 _ (mem_of_lookup hl)
  obtain ⟨s', hclose, hinv, hch, -⟩ := h.close hn fun ht => absurd ht (by rw [hc]; decide)
  refine ⟨(b, s), s', hnext, hclose, hinv, hch.globals, fun _ =>
    ⟨m, (hch.node _ (h.ne_root hm ?_)).trans hm, hmc⟩⟩
  rw [hmc]
  decide

theorem turns_top (hn : s.node s.vfsRoot = some n) (hc : n.cls = .overlay)
    (hname : c ≠ ['.', '.']) (hl : n.entries.lookup c = none) :
    Turns fat disk s s.vfsRoot c (.disk 0) := by
  obtain ⟨base, hbase, hbc⟩ := h.base
  have hnext : nextNode disk s.vfsRoot c s = some (baseFinddir disk s.underlying base c s) := by
    simp only [nextNode, if_neg hname, finddir, hn, bind_some, if_pos hc, hl, hbase, map_some]
  have hmade := made_finddir h hbase (by rw [hbc]; cases fat <;> rfl) disk c
  generalize baseFinddir disk s.underlying base c s = r at hnext hmade
  have hroot : r.2.node s.vfsRoot = some n := (hmade.old _ (Vfs.lt_of_node hn).ne).trans hn
  obtain ⟨s', hclose, hinv, hch, -⟩ := hmade.inv.close hroot fun ht => absurd ht (by rw [hc]; decide)
  have hg := hmade.globals.trans hch.globals
  refine ⟨r, s', hnext, hclose, hinv, hg, fun h0 => ?_⟩
  obtain ⟨k, hk, hkd, hkc, hkb, hko, hkp⟩ := hmade.free h h0
  have hk' : s'.node r.1 = some k := by
    refine (hch.node _ fun heq => ?_).trans hk
    rw [(hmade.new h0).1] at heq
    exact (Vfs.lt_of_node hn).ne heq.symm
  refine ⟨⟨k, hk', hkd, hkc⟩, ?_, ?_, fun ht => ⟨k, hk', ?_⟩⟩
  · rwa [hch.globals.underlying]
  · rwa [hch.globals.owners]
  · rw [hkp ht, hg.underlying]

theorem turns_down (hat : At fat s cur (.disk d))
    (hname : c ≠ ['.', '.']) : Turns fat disk s cur c (.disk (d + 1)) := by
  obtain ⟨⟨n, hn, hd, hcount⟩, hbase, hown, habove⟩ := hat
  have hnext : nextNode disk cur c s = _ :=
    nextNode_name hn (fun hc => absurd hd (by rw [hc]; decide)) hname
  have hmade := made_finddir h hn hd disk c
  have hdir : (baseFinddir disk cur n c s).1 ≠ 0 → fat = true → n.cls = .fatDir := by
    intro h0 ht
    have hok := h.nodes _ n hn
    unfold NodeOk at hok
    unfold baseFinddir at h0
    cases hc : n.cls <;> simp only [hc] at hok h0 hd ⊢
    case ext4Dir => exact absurd (hok.1.symm.trans ht) (by decide)
    all_goals first | exact absurd rfl h0 | exact absurd hd (by decide)
  generalize baseFinddir disk cur n c s = r at hnext hmade hdir
  have hn₁ : r.2.node cur = some n := (hmade.old _ (Vfs.lt_of_node hn).ne).trans hn
  obtain ⟨s', hclose, hinv, hch, -, hwrap⟩ := hmade.inv.close hn₁ fun _ => by
    rw [hmade.globals.underlying, hmade.globals.owners]
    exact ⟨hcount, hbase, hown⟩
  have hg := hmade.globals.trans hch.globals
  refine ⟨r, s', hnext, hclose, hinv, hg, fun h0 => ?_⟩
  obtain ⟨k, hk, hkd, hkc, hkb, hko, hkp⟩ := hmade.free h h0
  have hk' : s'.node r.1 = some k := by
    refine (hch.node _ fun heq => ?_).trans hk
    rw [(hmade.new h0).1] at heq
    exact (Vfs.lt_of_node hn).ne heq.symm
  refine ⟨⟨k, hk', hkd, hkc⟩, ?_, ?_, fun ht => ?_⟩
  · rwa [hch.globals.underlying]
  · rwa [hch.globals.owners]
  subst ht
  have hcur := hwrap (hdir h0 rfl)
  refine ⟨k, { n with refCount := 2 ^ 32 - 1 }, hk', ?_⟩
  rw [hkp rfl, hg.underlying, hg.owners]
  refine ⟨hcur, hdir h0 rfl, rfl, hbase, hown, (habove rfl).congr h hg hn hd hcur rfl fun b hb => ?_⟩
  rw [hch.node b hb.ne, hmade.old b (hb.trans (Vfs.lt_of_node hn)).ne]

omit h in
theorem turns_up_ext4 (h : VfsInv false s) (hat : At false s cur (.disk d)) (pos : VPos) :
    Turns false disk s cur ['.', '.'] pos := by
  obtain ⟨⟨n, hn, hd, hcount⟩, hbase, hown, -⟩ := hat
  have hok := h.nodes _ n hn
  refine turns_null h hn (fun _ => ⟨hcount, hbase, hown⟩) ?_ pos
  rw [nextNode_up hn (h.ne_root hn fun hc => absurd hd (by rw [hc]; decide)), if_pos]
  unfold NodeOk at hok
  cases hc : n.cls <;> simp only [hc] at hok hd
  case ext4Dir => exact hok.2.2
  case ext4File => exact hok.2.2
  case fatDir => exact absurd hok.1 (by decide)
  case fatFile => exact absurd hok.1 (by decide)
  all_goals exact absurd hd (by decide)

omit h in
theorem turns_up_fat (h : VfsInv true s) (hat : At true s cur (.disk (d + 1))) :
    Turns true disk s cur ['.', '.'] (.disk d) := by
  obtain ⟨⟨n, hn, hd, hcount⟩, hbase, hown, habove⟩ := hat
  obtain ⟨k, m, hk, hm, hmc, hmr, hmb, hmo, habove⟩ := habove rfl
  obtain rfl := Option.some.inj (hn.symm.trans hk)
  have hlt : n.parent < cur := h.parent_lt hn hd
  -- the count wraps back to zero
  have hopen : openNode n.parent s = some (s.setNode n.parent { m with refCount := 0 }) := by
    rw [openNode, hm, map_some, hmc, hmr]
    rfl
  have hinv₁ : VfsInv true (s.setNode n.parent { m with refCount := 0 }) := by
    refine h.setCount hm 0 ?_ fun _ => hmo
    have hok := h.nodes _ m hm
    simp only [NodeOk, hmc] at hok ⊢
    exact ⟨hok.1, .inl trivial, hok.2.2⟩
  have hch₁ := changes_setNode hm 0
  have hp₁ := Vfs.node_setNode (b := n.parent) (n := { m with refCount := 0 }) (Vfs.lt_of_node hm)
  rw [if_pos rfl] at hp₁
  generalize s.setNode n.parent { m with refCount := 0 } = s₁ at hopen hinv₁ hch₁ hp₁
  have hn₁ : s₁.node cur = some n := (hch₁.node _ hlt.ne').trans hn
  obtain ⟨s', hclose, hinv, hch, -⟩ := hinv₁.close hn₁ fun _ => by
    rw [hch₁.globals.underlying, hch₁.globals.owners]
    exact ⟨hcount, hbase, hown⟩
  have hg := hch₁.globals.trans hch.globals
  have hp : s'.node n.parent = some { m with refCount := 0 } := (hch.node _ hlt.ne).trans hp₁
  have hmd : m.cls.onDisk = true := by rw [hmc]; rfl
  refine ⟨(n.parent, s₁), s', ?_, hclose, hinv, hg, fun _ =>
    ⟨⟨_, hp, hmd, rfl⟩, ?_, ?_, fun _ => habove.congr h hg hm hmd hp rfl fun b hb => ?_⟩⟩
  · rw [nextNode_up hn (h.ne_root hn fun hc => absurd hd (by rw [hc]; decide)),
      if_neg (h.ne_zero hm), hopen]
    rfl
  · rwa [hg.underlying]
  · rwa [hg.owners]
  · rw [hch.node b (hb.trans hlt).ne, hch₁.node b hb.ne]

theorem turns_initrd (hat : At fat s cur .mount) :
    Turns fat disk s cur c (VPos.next s.mounts c .mount) := by
  obtain ⟨n, hn, hc⟩ := hat
  have hok := h.nodes _ n hn
  simp only [NodeOk, hc] at hok
  have hover : n.cls ≠ .overlay := by rw [hc]; decide
  have hd : n.cls.onDisk = false := by rw [hc]; rfl
  have hfree : s.Free cur n := fun ht => absurd (hd.symm.trans ht) (by decide)
  by_cases hup : c = ['.', '.']
  · subst hup
    refine turns_to_root h hn hd ?_
    rw [nextNode_up hn (h.ne_root hn hover), hok.1, if_neg h.root_ne_zero]
  have hnext : nextNode disk cur c s = _ := nextNode_name hn hover hup
  have hfind : baseFinddir disk cur n c s = ((n.entries.lookup c).getD 0, s) := by
    rw [baseFinddir, hc]
  rw [hfind] at hnext
  rw [VPos.next, if_neg hup]
  cases hl : n.entries.lookup c with
  | none =>
    rw [hl] at hnext
    exact turns_null h hn hfree hnext _
  | some b =>
    rw [hl] at hnext
    obtain ⟨m, hm, hmc⟩ := hok.2 _ (mem_of_lookup hl)
    obtain ⟨s', hclose, hinv, hch, -⟩ := h.close hn hfree
    refine ⟨_, s', hnext, hclose, hinv, hch.globals, fun _ => ⟨m, (hch.node _ ?_).trans hm, hmc⟩⟩
    rintro rfl
    obtain rfl := Option.some.inj (hn.symm.trans hm)
    rw [hc] at hmc
    cases hmc

theorem turns_file (hat : At fat s cur .file) (pos : VPos) :
    Turns fat disk s cur c pos := by
  obtain ⟨n, hn, hc⟩ := hat
  have hok := h.nodes _ n hn
  simp only [NodeOk, hc] at hok
  have hover : n.cls ≠ .overlay := by rw [hc]; decide
  refine turns_null h hn (fun ht => absurd ht (by rw [hc]; decide)) ?_ pos
  by_cases hup : c = ['.', '.']
  · rw [hup, nextNode_up hn (h.ne_root hn hover), if_pos hok]
  · rw [nextNode_name hn hover hup, baseFinddir, hc]

theorem turns (hat : At fat s cur pos) (hleave : fat = true → ¬(pos = .disk 0 ∧ c = ['.', '.'])) :
    Turns fat disk s cur c (pos.next s.mounts c) := by
  cases pos with
  | mount => exact turns_initrd h hat
  | file => exact turns_file h hat _
  | root =>
    obtain rfl : cur = s.vfsRoot := hat
    obtain ⟨n, hn, hc⟩ := h.root
    have hmounts : s.mounts = n.entries.map Prod.fst := by rw [Vfs.mounts, hn]; rfl
    rw [VPos.next, hmounts]
    split_ifs with hup hmem
    · refine turns_to_root h hn (by rw [hc]; rfl) ?_
      simp only [nextNode, if_pos hup, hn, bind_some, if_true, if_neg h.root_ne_zero]
    · cases hl : n.entries.lookup c with
      | some b => exact turns_mount h hn hc hup hl
      | none =>
        obtain ⟨e, he, rfl⟩ := List.mem_map.mp hmem
        exact absurd (List.lookup_eq_none_iff.mp hl e he) (by simp)
    · cases hl : n.entries.lookup c with
      | some b => exact absurd (List.mem_map_of_mem (mem_of_lookup hl)) hmem
      | none => exact turns_top h hn hc hup hl
  | disk d =>
    rw [VPos.next]
    split_ifs with hup
    · subst hup
      cases fat with
      | false => exact turns_up_ext4 h hat _
      | true =>
        cases d with
        | zero => exact absurd ⟨rfl, rfl⟩ (hleave rfl)
        | succ d => exact turns_up_fat h hat
    · exact turns_down h hat hup

theorem VfsInv.walk {cs : List CStr} (hat : At fat s cur pos)
    (hleave : fat = true → leavesDisk s.mounts pos cs = false) :
    ∃ r pos', walkPath disk cs cur s = some r ∧ Went fat s r.1 pos' r.2 := by
  induction cs generalizing s cur pos with
  | nil => exact ⟨(cur, s), pos, rfl, h, .refl, fun _ => hat⟩
  | cons c cs ih =>
    rw [walkPath]
    split_ifs with hdot
    · refine ih h hat fun ht => ?_
      have hl := hleave ht
      rwa [leavesDisk, if_pos hdot] at hl
    have hsplit : fat = true → ¬(pos = .disk 0 ∧ c = ['.', '.']) ∧
        leavesDisk s.mounts (pos.next s.mounts c) cs = false := by
      intro ht
      have hl := hleave ht
      rw [leavesDisk, if_neg hdot, Bool.or_eq_false_iff] at hl
      exact ⟨of_decide_eq_false hl.1, hl.2⟩
    have hturn : Turns fat disk s cur c (pos.next s.mounts c) := turns h hat fun ht => (hsplit ht).1
    obtain ⟨r, s', hnext, hclose, hwent⟩ := hturn
    rw [hnext, bind_some, hclose, bind_some]
    split_ifs with h0
    · exact ⟨(0, s'), .root, rfl, hwent.inv, hwent.globals, fun h0 => absurd rfl h0⟩
    · obtain ⟨r', pos', hwalk, hwent'⟩ := ih hwent.inv (hwent.arrives h0) fun ht => by
        rw [hwent.globals.mounts]
        exact (hsplit ht).2
      exact ⟨r', pos', hwalk, hwent'.inv, hwent.globals.trans hwent'.globals, hwent'.arrives⟩

end Step

end KeonOS
