import KeonOS.Fs.Vfs

/-!
# Lifetime of the nodes

The invariant of the nodes of the virtual file system, and the methods that keep it. A node of the
disk has at most one owner: the working directory or a descriptor. Its count is zero while it is owned,
and it is deleted, or on FAT32 given up, when the owner closes it.

* `NodeOk`, **`VfsInv`**: the classes, the counts and the owners of the nodes;
* **`VfsInv.close`**: a node is closed that nothing owns.
-/

namespace KeonOS

open List

/-! ## The invariant -/

def NodeClass.onDisk : NodeClass → Bool
  | .ext4Dir => true
  | .ext4File => true
  | .fatDir => true
  | .fatFile => true
  | _ => false

/-- What holds of the node `n` at `a`. A FAT32 directory left without an `open` has the count `2 ^ 32 -
1`. -/
def NodeOk (fat : Bool) (s : Vfs) (a : ℕ) (n : VNode) : Prop :=
  match n.cls with
  | .overlay => a = s.vfsRoot ∧ n.parent = 0 ∧
      ∀ e ∈ n.entries, ∃ m, s.node e.2 = some m ∧ m.cls = .keonMount
  | .keonMount => n.parent = s.vfsRoot ∧ ∀ e ∈ n.entries, ∃ m, s.node e.2 = some m ∧ m.cls = .keonFile
  | .keonFile => n.parent = 0
  | .ext4Dir => fat = false ∧ n.refCount = 0 ∧ n.parent = 0
  | .ext4File => fat = false ∧ n.refCount = 0 ∧ n.parent = 0
  | .fatDir => fat = true ∧ (n.refCount = 0 ∨ n.refCount = 2 ^ 32 - 1) ∧ n.parent < a
  | .fatFile => fat = true ∧ n.refCount = 0 ∧ n.parent < a

def Vfs.owners (s : Vfs) : List ℕ := s.cwdNode :: s.handles

/-- Each node is as its class says; a node on the disk has one owner, who has opened it once. -/
structure VfsInv (fat : Bool) (s : Vfs) : Prop where
  lost : s.lost = []
  null : s.node 0 = none
  root : ∃ n, s.node s.vfsRoot = some n ∧ n.cls = .overlay
  base : ∃ n, s.node s.underlying = some n ∧ n.cls = (if fat then .fatDir else .ext4Dir)
  nodes : ∀ a n, s.node a = some n → NodeOk fat s a n
  handles : 0 ∉ s.handles
  owned : ∀ a ∈ s.owners, a ≠ 0 → ∃ n, s.node a = some n ∧
    (n.cls.onDisk = true → a ≠ s.underlying ∧ n.refCount = 0 ∧ s.owners.count a = 1)

def Vfs.mounts (s : Vfs) : List CStr := ((s.node s.vfsRoot).map fun n => n.entries.map Prod.fst).getD []

structure SameGlobals (s s' : Vfs) : Prop where
  vfsRoot : s'.vfsRoot = s.vfsRoot
  underlying : s'.underlying = s.underlying
  cwdNode : s'.cwdNode = s.cwdNode
  handles : s'.handles = s.handles
  mounts : s'.mounts = s.mounts

variable {s s' : Vfs} {a : ℕ} {n : VNode}

theorem SameGlobals.refl : SameGlobals s s := ⟨rfl, rfl, rfl, rfl, rfl⟩

theorem SameGlobals.trans {s'' : Vfs} (h : SameGlobals s s') (h' : SameGlobals s' s'') :
    SameGlobals s s'' :=
  ⟨h'.vfsRoot.trans h.vfsRoot, h'.underlying.trans h.underlying, h'.cwdNode.trans h.cwdNode,
    h'.handles.trans h.handles, h'.mounts.trans h.mounts⟩

theorem SameGlobals.owners (h : SameGlobals s s') : s'.owners = s.owners := by
  rw [Vfs.owners, h.cwdNode, h.handles]
  rfl

namespace Vfs

variable {s : Vfs} {a b : ℕ} {n : VNode}

theorem lt_of_node (h : s.node a = some n) : a < s.nodes.length := by
  by_contra hge
  rw [node, getElem?_eq_none (not_lt.mp hge)] at h
  cases h

theorem node_setNode (h : a < s.nodes.length) :
    (s.setNode a n).node b = if b = a then some n else s.node b := by
  simp only [node, setNode, getElem?_set]
  split_ifs with h1 h2 h3
  · simp
  · exact absurd h1.symm h2
  · exact absurd h3.symm h1
  · rfl

theorem node_alloc : (s.alloc n).2.node b = if b = s.nodes.length then some n else s.node b := by
  simp only [node, alloc, getElem?_append]
  split_ifs with h1 h2 h2
  · omega
  · rfl
  · simp [h2]
  · rw [getElem?_eq_none (not_lt.mp h1), getElem?_eq_none (by simp; omega)]

theorem node_delete : (s.delete a).node b = if b = a then none else s.node b := by
  simp only [node, delete, getElem?_set]
  split_ifs with h1 h2 h3 h4
  · rfl
  · exact absurd h1.symm h3
  · simp
  · exact absurd h1.symm ‹_›
  · exact absurd ‹b = a›.symm h1
  · rfl

end Vfs

def KeepsInitrd (s s' : Vfs) : Prop :=
  ∀ b m, s.node b = some m → m.cls.onDisk = false → ∃ m', s'.node b = some m' ∧ m'.cls = m.cls

theorem NodeOk.congr {fat : Bool} (h : NodeOk fat s a n)
    (hroot : s'.vfsRoot = s.vfsRoot) (hk : KeepsInitrd s s') : NodeOk fat s' a n := by
  have hentries : ∀ cls : NodeClass, cls.onDisk = false →
      (∀ e ∈ n.entries, ∃ m, s.node e.2 = some m ∧ m.cls = cls) →
      ∀ e ∈ n.entries, ∃ m, s'.node e.2 = some m ∧ m.cls = cls := by
    intro cls hcls hall e he
    obtain ⟨m, hm, hmc⟩ := hall e he
    obtain ⟨m', hm', hmc'⟩ := hk e.2 m hm (hmc ▸ hcls)
    exact ⟨m', hm', hmc'.trans hmc⟩
  unfold NodeOk at h ⊢
  cases hc : n.cls <;> simp only [hc] at h ⊢
  case overlay => exact ⟨hroot ▸ h.1, h.2.1, hentries _ rfl h.2.2⟩
  case keonMount => exact ⟨hroot ▸ h.1, hentries _ rfl h.2⟩
  all_goals exact h

namespace VfsInv

variable {fat : Bool} {s s' : Vfs} {a : ℕ} {n : VNode}

theorem root_ne_zero (h : VfsInv fat s) : s.vfsRoot ≠ 0 := by
  obtain ⟨n, hn, -⟩ := h.root
  intro h0
  rw [h0, h.null] at hn
  cases hn

theorem ne_zero (h : VfsInv fat s) (ha : s.node a = some n) : a ≠ 0 := by
  rintro rfl
  rw [h.null] at ha
  cases ha

theorem setCount (h : VfsInv fat s) (ha : s.node a = some n) (r : ℕ)
    (hok : NodeOk fat s a { n with refCount := r })
    (howner : n.cls.onDisk = true → a ∉ s.owners) :
    VfsInv fat (s.setNode a { n with refCount := r }) := by
  have hlt := Vfs.lt_of_node ha
  have hnode : ∀ b, (s.setNode a { n with refCount := r }).node b =
      if b = a then some { n with refCount := r } else s.node b := fun b => Vfs.node_setNode hlt
  have hcls : ∀ b m, s.node b = some m → ∃ m',
      (s.setNode a { n with refCount := r }).node b = some m' ∧ m'.cls = m.cls := by
    intro b m hm
    rw [hnode]
    split_ifs with hba
    · subst hba
      obtain rfl := Option.some.inj (ha.symm.trans hm)
      exact ⟨_, rfl, rfl⟩
    · exact ⟨m, hm, rfl⟩
  refine ⟨h.lost, ?_, ?_, ?_, fun b m hm => ?_, h.handles, fun b hb hb0 => ?_⟩
  · rw [hnode, if_neg (Ne.symm (h.ne_zero ha))]
    exact h.null
  · obtain ⟨m, hm, hmc⟩ := h.root
    obtain ⟨m', hm', hmc'⟩ := hcls _ m hm
    exact ⟨m', hm', hmc'.trans hmc⟩
  · obtain ⟨m, hm, hmc⟩ := h.base
    obtain ⟨m', hm', hmc'⟩ := hcls _ m hm
    exact ⟨m', hm', hmc'.trans hmc⟩
  · refine NodeOk.congr (s := s) ?_ rfl fun b m hm _ => hcls b m hm
    rw [hnode] at hm
    split_ifs at hm with hba
    · subst hba
      cases hm
      exact hok
    · exact h.nodes b m hm
  · obtain ⟨m, hm, hown⟩ := h.owned b hb hb0
    rw [hnode]
    split_ifs with hba
    · subst hba
      exact ⟨_, rfl, fun hd => absurd hb (howner hd)⟩
    · exact ⟨m, hm, hown⟩

theorem alloc (h : VfsInv fat s) (hok : NodeOk fat s s.nodes.length n) : VfsInv fat (s.alloc n).2 := by
  have hold : ∀ b m, s.node b = some m → (s.alloc n).2.node b = some m := by
    intro b m hm
    rwa [Vfs.node_alloc, if_neg (Vfs.lt_of_node hm).ne]
  have hpos : s.nodes.length ≠ 0 := by
    obtain ⟨m, hm, -⟩ := h.root
    have := Vfs.lt_of_node hm
    omega
  refine ⟨h.lost, ?_, ?_, ?_, fun b m hm => ?_, h.handles, fun b hb hb0 => ?_⟩
  · rw [Vfs.node_alloc, if_neg (Ne.symm hpos)]
    exact h.null
  · obtain ⟨m, hm, hmc⟩ := h.root
    exact ⟨m, hold _ m hm, hmc⟩
  · obtain ⟨m, hm, hmc⟩ := h.base
    exact ⟨m, hold _ m hm, hmc⟩
  · refine NodeOk.congr (s := s) ?_ rfl fun b m hm _ => ⟨m, hold b m hm, rfl⟩
    rw [Vfs.node_alloc] at hm
    split_ifs at hm with hb
    · subst hb
      cases hm
      exact hok
    · exact h.nodes b m hm
  · obtain ⟨m, hm, hown⟩ := h.owned b hb hb0
    exact ⟨m, hold b m hm, hown⟩

theorem parent_ne (h : VfsInv false s) (ha : s.node a = some n) (hd : n.cls.onDisk = true) {b : ℕ}
    {m : VNode} (hb : s.node b = some m) : m.parent ≠ a := by
  have ha0 := h.ne_zero ha
  have har : a ≠ s.vfsRoot := by
    rintro rfl
    obtain ⟨r, hr, hrc⟩ := h.root
    obtain rfl := Option.some.inj (ha.symm.trans hr)
    rw [hrc] at hd
    cases hd
  have hok := h.nodes b m hb
  unfold NodeOk at hok
  cases hc : m.cls <;> simp only [hc] at hok
  case overlay => rw [hok.2.1]; exact Ne.symm ha0
  case keonMount => rw [hok.1]; exact Ne.symm har
  case keonFile => rw [hok]; exact Ne.symm ha0
  case ext4Dir => rw [hok.2.2]; exact Ne.symm ha0
  case ext4File => rw [hok.2.2]; exact Ne.symm ha0
  case fatDir => exact absurd hok.1 (by decide)
  case fatFile => exact absurd hok.1 (by decide)

theorem delete (h : VfsInv false s) (ha : s.node a = some n) (hd : n.cls.onDisk = true)
    (hbase : a ≠ s.underlying) (howner : a ∉ s.owners) : VfsInv false (s.delete a) := by
  have hkeep : ∀ b m, s.node b = some m → b ≠ a → (s.delete a).node b = some m := by
    intro b m hm hba
    rwa [Vfs.node_delete, if_neg hba]
  have hne : ∀ b m, s.node b = some m → m.cls.onDisk = false → b ≠ a := by
    rintro b m hm hmd rfl
    obtain rfl := Option.some.inj (ha.symm.trans hm)
    exact absurd (hd.symm.trans hmd) (by decide)
  have hroot : s.vfsRoot ≠ a := by
    obtain ⟨r, hr, hrc⟩ := h.root
    exact hne _ r hr (by rw [hrc]; rfl)
  -- nothing points to the node
  have hrefs : a ∉ ({ s with nodes := s.nodes.set a none } : Vfs).refs := by
    simp only [Vfs.refs, mem_append, mem_cons, mem_filterMap, not_or]
    simp only [Vfs.owners, mem_cons, not_or] at howner
    refine ⟨⟨Ne.symm hroot, hbase, howner.1, howner.2⟩, ?_⟩
    rintro ⟨o, ho, hpar⟩
    obtain ⟨m, rfl, rfl⟩ := Option.map_eq_some_iff.mp hpar
    obtain ⟨b, hb⟩ := mem_iff_getElem?.mp ho
    have hbm : (s.delete m.parent).node b = some m := by
      simp only [Vfs.node, Vfs.delete]
      rw [hb]
      rfl
    rw [Vfs.node_delete] at hbm
    split_ifs at hbm
    exact h.parent_ne ha hd hbm rfl
  refine ⟨?_, ?_, ?_, ?_, fun b m hm => ?_, h.handles, fun b hb hb0 => ?_⟩
  · simp only [Vfs.delete, if_neg hrefs]
    exact h.lost
  · rw [Vfs.node_delete, h.null, ite_self]
  · obtain ⟨m, hm, hmc⟩ := h.root
    exact ⟨m, hkeep _ m hm hroot, hmc⟩
  · obtain ⟨m, hm, hmc⟩ := h.base
    exact ⟨m, hkeep _ m hm (Ne.symm hbase), hmc⟩
  · rw [Vfs.node_delete] at hm
    split_ifs at hm
    exact (h.nodes b m hm).congr rfl fun b' m' hm' hd' => ⟨m', hkeep b' m' hm' (hne b' m' hm' hd'), rfl⟩
  · obtain ⟨m, hm, hown⟩ := h.owned b hb hb0
    exact ⟨m, hkeep b m hm (fun hba => howner (hba ▸ hb)), hown⟩

end VfsInv

/-! ## Opening and closing -/

/-- `s'` differs from `s` at the node `a` only. -/
structure Changes (a : ℕ) (s s' : Vfs) : Prop where
  globals : SameGlobals s s'
  node : ∀ b, b ≠ a → s'.node b = s.node b

theorem Changes.refl : Changes a s s := ⟨.refl, fun _ _ => rfl⟩

theorem changes_setNode (ha : s.node a = some n) (r : ℕ) :
    Changes a s (s.setNode a { n with refCount := r }) := by
  have hnode : ∀ b, (s.setNode a { n with refCount := r }).node b =
      if b = a then some { n with refCount := r } else s.node b :=
    fun b => Vfs.node_setNode (Vfs.lt_of_node ha)
  refine ⟨⟨rfl, rfl, rfl, rfl, ?_⟩, fun b hb => by rw [hnode, if_neg hb]⟩
  change (((s.setNode a _).node s.vfsRoot).map _).getD [] = _
  rw [hnode, Vfs.mounts]
  split_ifs with hroot
  · rw [hroot, ha]
    rfl
  · rfl

theorem changes_delete (ha : a ≠ s.vfsRoot) : Changes a s (s.delete a) := by
  refine ⟨⟨rfl, rfl, rfl, rfl, ?_⟩, fun b hb => by rw [Vfs.node_delete, if_neg hb]⟩
  change (((s.delete a).node s.vfsRoot).map _).getD [] = _
  rw [Vfs.node_delete, if_neg (Ne.symm ha), Vfs.mounts]

/-- The node `n` at `a` is not one of the disk, or nothing owns it and nobody has opened it. -/
def Vfs.Free (s : Vfs) (a : ℕ) (n : VNode) : Prop :=
  n.cls.onDisk = true → n.refCount = 0 ∧ a ≠ s.underlying ∧ a ∉ s.owners

namespace VfsInv

variable {fat : Bool} {s s' : Vfs} {a : ℕ} {n : VNode}

theorem setRoot (h : VfsInv fat s) (ha : s.node a = some n) (hc : n.cls = .overlay) (r : ℕ) :
    VfsInv fat (s.setNode a { n with refCount := r }) := by
  refine h.setCount ha r ?_ fun hd => absurd hd (by rw [hc]; decide)
  have hok := h.nodes _ n ha
  unfold NodeOk at hok ⊢
  simp only [hc] at hok ⊢
  exact hok

theorem open_root (h : VfsInv fat s) :
    ∃ s', openNode s.vfsRoot s = some s' ∧ VfsInv fat s' ∧ Changes s.vfsRoot s s' := by
  obtain ⟨n, hn, hc⟩ := h.root
  exact ⟨_, by rw [openNode, hn, Option.map_some, hc]; rfl, h.setRoot hn hc _, changes_setNode hn _⟩

theorem close_ext4 (h : VfsInv fat s) (ha : s.node a = some n)
    (hc : n.cls = .ext4Dir ∨ n.cls = .ext4File) (hfree : s.Free a n) :
    closeNode a s = some (s.delete a) ∧ VfsInv fat (s.delete a) ∧ Changes a s (s.delete a) := by
  have hd : n.cls.onDisk = true := by rcases hc with hc | hc <;> rw [hc] <;> rfl
  obtain ⟨hcount, hbase, howner⟩ := hfree hd
  have hok := h.nodes a n ha
  have hfat : fat = false := by
    rcases hc with hc | hc <;> simp only [NodeOk, hc] at hok <;> exact hok.1
  subst hfat
  refine ⟨?_, h.delete ha hd hbase howner, changes_delete fun hroot => ?_⟩
  · rcases hc with hc | hc <;> simp [closeNode, ha, hc, hcount]
  obtain ⟨r, hr, hrc⟩ := h.root
  rw [← hroot, ha] at hr
  cases hr
  rw [hrc] at hd
  cases hd

theorem close (h : VfsInv fat s) (ha : s.node a = some n) (hfree : s.Free a n) :
    ∃ s', closeNode a s = some s' ∧ VfsInv fat s' ∧ Changes a s s' ∧
      (n.cls.onDisk = false → ∃ n', s'.node a = some n' ∧ n'.cls = n.cls) ∧
      (n.cls = .fatDir → s'.node a = some { n with refCount := 2 ^ 32 - 1 }) := by
  have hlt := Vfs.lt_of_node ha
  have hok := h.nodes a n ha
  cases hc : n.cls with
  | overlay =>
    refine ⟨_, by rw [closeNode, ha, Option.map_some, hc], h.setRoot ha hc _, changes_setNode ha _,
      fun _ => ⟨{ n with refCount := n.refCount - 1 }, ?_, hc⟩, by simp⟩
    rw [Vfs.node_setNode hlt, if_pos rfl]
  | ext4Dir =>
    obtain ⟨hclose, hinv, hch⟩ := h.close_ext4 ha (.inl hc) hfree
    exact ⟨_, hclose, hinv, hch, (absurd · (by decide)), by simp⟩
  | ext4File =>
    obtain ⟨hclose, hinv, hch⟩ := h.close_ext4 ha (.inr hc) hfree
    exact ⟨_, hclose, hinv, hch, (absurd · (by decide)), by simp⟩
  | fatDir =>
    obtain ⟨hcount, -, howner⟩ := hfree (by rw [hc]; rfl)
    simp only [NodeOk, hc] at hok
    refine ⟨s.setNode a { n with refCount := 2 ^ 32 - 1 }, by simp [closeNode, ha, hc, hcount], ?_,
      changes_setNode ha _, (absurd · (by decide)), fun _ => ?_⟩
    · refine h.setCount ha _ ?_ fun _ => howner
      simp only [NodeOk, hc]
      exact ⟨hok.1, .inr trivial, hok.2.2⟩
    · rw [Vfs.node_setNode hlt, if_pos rfl, hc]
  | fatFile => exact ⟨s, by simp [closeNode, ha, hc], h, .refl, (absurd · (by decide)), by simp⟩
  | keonMount => exact ⟨s, by simp [closeNode, ha, hc], h, .refl, fun _ => ⟨n, ha, hc⟩, by simp⟩
  | keonFile => exact ⟨s, by simp [closeNode, ha, hc], h, .refl, fun _ => ⟨n, ha, hc⟩, by simp⟩

theorem length_fresh (h : VfsInv fat s) :
    s.nodes.length ≠ 0 ∧ s.nodes.length ≠ s.underlying ∧ s.nodes.length ∉ s.owners := by
  have hpos : s.nodes.length ≠ 0 := by
    obtain ⟨n, hn, -⟩ := h.root
    have := Vfs.lt_of_node hn
    omega
  refine ⟨hpos, ?_, fun hmem => ?_⟩
  · obtain ⟨n, hn, -⟩ := h.base
    exact (Vfs.lt_of_node hn).ne'
  · obtain ⟨n, hn, -⟩ := h.owned _ hmem hpos
    exact (Vfs.lt_of_node hn).ne rfl

end VfsInv

end KeonOS
