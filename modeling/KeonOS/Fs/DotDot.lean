import KeonOS.Fs.References
import KeonOS.Fs.Resolve

/-!
# Up again with `..`

`finddir` of ext4 does not set the parent of the node it makes, and below the root that of FAT32 sets it
to the base of the overlay. So a path that goes down and up again leads back only from a mount, or inside
a FAT32 disk.

* **`dotdot_iff`**: when `P/c/..` is `P`.
-/

namespace KeonOS

open List Option

/-! ## What calls do to the nodes -/

/-- A node that a disk makes; only FAT32 sets the parent. -/
def Fresh (n : VNode) : Prop :=
  n.cls.onDisk = true ∧ (n.cls = .ext4Dir ∨ n.cls = .ext4File → n.parent = 0)

/-- Nodes change their counts only; nodes of the disk may be deleted, and new ones made. -/
structure Evolves (s s' : Vfs) : Prop where
  vfsRoot : s'.vfsRoot = s.vfsRoot
  underlying : s'.underlying = s.underlying
  keeps : ∀ a n, s.node a = some n → n.cls.onDisk = false →
    ∃ r, s'.node a = some { n with refCount := r }
  origin : ∀ a n, s'.node a = some n →
    (∃ n₀, s.node a = some n₀ ∧ n = { n₀ with refCount := n.refCount }) ∨ (a ≠ 0 ∧ Fresh n)

variable {a : ℕ} {n : VNode} {cs : List CStr} {s s' : Vfs} {c P : CStr}

namespace Evolves

variable {s s' s'' : Vfs}

theorem of_nodes (hroot : s'.vfsRoot = s.vfsRoot) (hbase : s'.underlying = s.underlying)
    (h : s'.nodes = s.nodes) : Evolves s s' := by
  have hnode : ∀ a, s'.node a = s.node a := fun a => by rw [Vfs.node, h, Vfs.node]
  refine ⟨hroot, hbase, fun a n hn _ => ⟨n.refCount, ?_⟩, fun a n hn => .inl ⟨n, ?_, rfl⟩⟩
  · rw [hnode, hn]
  · rw [← hnode, hn]

theorem refl : Evolves s s := of_nodes rfl rfl rfl

theorem trans (h : Evolves s s') (h' : Evolves s' s'') : Evolves s s'' := by
  refine ⟨h'.vfsRoot.trans h.vfsRoot, h'.underlying.trans h.underlying, fun a n hn hd => ?_,
    fun a n hn => ?_⟩
  · obtain ⟨r, hr⟩ := h.keeps a n hn hd
    obtain ⟨r', hr'⟩ := h'.keeps a _ hr hd
    exact ⟨r', hr'⟩
  rcases h'.origin a n hn with ⟨n₁, hn₁, heq⟩ | hnew
  · rcases h.origin a n₁ hn₁ with ⟨n₀, hn₀, heq₀⟩ | ⟨h0, hfresh⟩
    · exact .inl ⟨n₀, hn₀, by rw [heq, heq₀]⟩
    · rw [heq]
      exact .inr ⟨h0, hfresh⟩
  · exact .inr hnew

theorem setCount (ha : s.node a = some n) (r : ℕ) :
    Evolves s (s.setNode a { n with refCount := r }) := by
  have hnode : ∀ b, (s.setNode a { n with refCount := r }).node b =
      if b = a then some { n with refCount := r } else s.node b :=
    fun b => Vfs.node_setNode (Vfs.lt_of_node ha)
  refine ⟨rfl, rfl, fun b m hm _ => ?_, fun b m hm => .inl ?_⟩
  · rw [hnode]
    split_ifs with hb
    · subst hb
      obtain rfl := Option.some.inj (ha.symm.trans hm)
      exact ⟨r, rfl⟩
    · exact ⟨m.refCount, hm⟩
  · rw [hnode] at hm
    split_ifs at hm with hb
    · subst hb
      cases hm
      exact ⟨n, ha, rfl⟩
    · exact ⟨m, hm, rfl⟩

theorem delete (ha : s.node a = some n) (hd : n.cls.onDisk = true) : Evolves s (s.delete a) := by
  refine ⟨rfl, rfl, fun b m hm hmd => ⟨m.refCount, ?_⟩, fun b m hm => .inl ⟨m, ?_, rfl⟩⟩
  · rw [Vfs.node_delete, if_neg, hm]
    rintro rfl
    obtain rfl := Option.some.inj (ha.symm.trans hm)
    exact absurd (hd.symm.trans hmd) (by decide)
  · rw [Vfs.node_delete] at hm
    split_ifs at hm
    exact hm

theorem alloc {m : VNode} (ha : s.node a = some m) (hn : Fresh n) : Evolves s (s.alloc n).2 := by
  refine ⟨rfl, rfl, fun b k hk _ => ⟨k.refCount, ?_⟩, fun b k hk => ?_⟩
  · rw [Vfs.node_alloc, if_neg (Vfs.lt_of_node hk).ne, hk]
  rw [Vfs.node_alloc] at hk
  split_ifs at hk with hb
  · cases hk
    have := Vfs.lt_of_node ha
    exact .inr ⟨by omega, hn⟩
  · exact .inl ⟨k, hk, rfl⟩

end Evolves

section Calls

variable {s s' : Vfs} {disk : Disk} {a : ℕ} {c : CStr} {r : ℕ × Vfs}

theorem evolves_open (h : openNode a s = some s') : Evolves s s' := by
  obtain ⟨n, hn, rfl⟩ := map_eq_some_iff.mp h
  split_ifs
  · exact .setCount hn _
  · exact .refl

theorem evolves_close (h : closeNode a s = some s') : Evolves s s' := by
  obtain ⟨n, hn, rfl⟩ := map_eq_some_iff.mp h
  obtain ⟨cls, count, parent, ino, entries⟩ := n
  cases cls <;> simp only
  case overlay => exact .setCount hn _
  case ext4Dir | ext4File | fatDir =>
    split_ifs
    · exact .delete hn rfl
    · exact .setCount hn _
  all_goals exact .refl

theorem evolves_base (hn : s.node a = some n) : Evolves s (baseFinddir disk a n c s).2 := by
  obtain ⟨cls, count, parent, ino, entries⟩ := n
  cases cls <;> simp only [baseFinddir]
  case ext4Dir =>
    cases disk ino c with
    | none => exact .refl
    | some e =>
      obtain ⟨i, isDir⟩ := e
      cases isDir <;> exact .alloc hn ⟨rfl, fun _ => rfl⟩
  case fatDir =>
    cases disk ino c with
    | none => exact .refl
    | some e =>
      obtain ⟨i, isDir⟩ := e
      cases isDir <;> exact .alloc hn ⟨rfl, fun h => h.elim NodeClass.noConfusion NodeClass.noConfusion⟩
  all_goals exact .refl

theorem evolves_finddir (h : finddir disk a c s = some r) : Evolves s r.2 := by
  obtain ⟨n, hn, hr⟩ := bind_eq_some_iff.mp h
  split_ifs at hr
  · cases hl : n.entries.lookup c with
    | some b =>
      rw [hl] at hr
      cases hr
      exact .refl
    | none =>
      rw [hl] at hr
      obtain ⟨base, hbase, rfl⟩ := map_eq_some_iff.mp hr
      exact evolves_base hbase
  · cases hr
    exact evolves_base hn

variable {made : Option ℕ} {path : CStr}

theorem evolves_create (h : createNode made a s = some r) : Evolves s r.2 := by
  have hbase : ∀ {b : ℕ} {n : VNode}, s.node b = some n → Evolves s (baseCreate made n s).2 := by
    intro b n hn
    obtain ⟨cls, count, parent, ino, entries⟩ := n
    cases made with
    | none => cases cls <;> exact .refl
    | some i =>
      cases cls
      case ext4Dir => exact .alloc hn ⟨rfl, fun _ => rfl⟩
      case fatDir => exact .alloc hn ⟨rfl, fun _ => rfl⟩
      all_goals exact .refl
  obtain ⟨n, hn, hr⟩ := bind_eq_some_iff.mp h
  split_ifs at hr
  · obtain ⟨base, hb, rfl⟩ := map_eq_some_iff.mp hr
    exact hbase hb
  · cases hr
    exact hbase hn

theorem evolves_next (h : nextNode disk a c s = some r) : Evolves s r.2 := by
  by_cases hup : c = ['.', '.']
  · rw [nextNode, if_pos hup] at h
    obtain ⟨n, -, hr⟩ := bind_eq_some_iff.mp h
    by_cases h0 : (if a = s.vfsRoot then s.vfsRoot else n.parent) = 0
    · rw [if_pos h0] at hr
      cases hr
      exact .refl
    · rw [if_neg h0] at hr
      obtain ⟨s', hs', rfl⟩ := map_eq_some_iff.mp hr
      exact evolves_open hs'
  · rw [nextNode, if_neg hup] at h
    exact evolves_finddir h

theorem evolves_walk (h : walkPath disk cs a s = some r) : Evolves s r.2 := by
  induction cs generalizing a s with
  | nil =>
    cases h
    exact .refl
  | cons c cs ih =>
    rw [walkPath] at h
    split_ifs at h
    · exact ih h
    obtain ⟨r₁, h₁, h⟩ := bind_eq_some_iff.mp h
    obtain ⟨s₂, h₂, h⟩ := bind_eq_some_iff.mp h
    have hev := (evolves_next h₁).trans (evolves_close h₂)
    split_ifs at h
    · cases h
      exact hev
    · exact hev.trans (ih h)

theorem evolves_vfsOpen (h : vfsOpen disk path s = some r) : Evolves s r.2 := by
  obtain ⟨s₁, h₁, h₂⟩ := bind_eq_some_iff.mp h
  exact (evolves_open h₁).trans (evolves_walk h₂)

theorem evolves_vfsCreate (h : vfsCreate disk made path s = some r) : Evolves s r.2 := by
  rw [vfsCreate] at h
  split_ifs at h
  · cases h
    exact .refl
  obtain ⟨r₁, h₁, h⟩ := bind_eq_some_iff.mp h
  have hev := evolves_vfsOpen h₁
  split_ifs at h
  · cases h
    exact hev
  · obtain ⟨r₂, h₂, h⟩ := bind_eq_some_iff.mp h
    obtain ⟨s₃, h₃, rfl⟩ := map_eq_some_iff.mp h
    exact (hev.trans (evolves_create h₂)).trans (evolves_close h₃)

theorem evolves_atParent (h : vfsAtParent disk path s = some s') : Evolves s s' := by
  rw [vfsAtParent] at h
  split_ifs at h
  · cases h
    exact .refl
  obtain ⟨r₁, h₁, h⟩ := bind_eq_some_iff.mp h
  split_ifs at h
  · cases h
    exact evolves_vfsOpen h₁
  · exact (evolves_vfsOpen h₁).trans (evolves_close h)

theorem evolves_leaveCwd (h : leaveCwd s = some s') : Evolves s s' := by
  rw [leaveCwd] at h
  split_ifs at h
  · have hcwd : Evolves s { s with cwdNode := 0 } := .of_nodes rfl rfl rfl
    exact hcwd.trans (evolves_close h)
  · cases h
    exact .refl

theorem evolves_cd (h : cmdCd disk path s = some s') : Evolves s s' := by
  obtain ⟨r₁, h₁, h⟩ := bind_eq_some_iff.mp h
  split_ifs at h
  · cases h
    exact evolves_vfsOpen h₁
  obtain ⟨n, -, h⟩ := bind_eq_some_iff.mp h
  split_ifs at h
  · obtain ⟨s₂, h₂, rfl⟩ := map_eq_some_iff.mp h
    exact ((evolves_vfsOpen h₁).trans (evolves_leaveCwd h₂)).trans (.of_nodes rfl rfl rfl)
  · exact (evolves_vfsOpen h₁).trans (evolves_close h)

theorem evolves_keep (a : ℕ) : Evolves s (s.keep a) := by
  rw [Vfs.keep]
  split_ifs
  · exact .refl
  · exact .of_nodes rfl rfl rfl

theorem evolves_run {op : VfsOp} (h : op.run disk s = some s') : Evolves s s' := by
  cases op with
  | «open» path =>
    obtain ⟨r, hr, rfl⟩ := map_eq_some_iff.mp h
    exact (evolves_vfsOpen hr).trans (evolves_keep _)
  | close a =>
    have herase : Evolves s { s with handles := s.handles.erase a } := .of_nodes rfl rfl rfl
    exact herase.trans (evolves_close h)
  | create path made =>
    obtain ⟨r, hr, rfl⟩ := map_eq_some_iff.mp h
    exact (evolves_vfsCreate hr).trans (evolves_keep _)
  | mkdir path => exact evolves_atParent h
  | unlink path => exact evolves_atParent h
  | cd path => exact evolves_cd h
  | cdHome =>
    obtain ⟨s₁, h₁, rfl⟩ := map_eq_some_iff.mp h
    exact (evolves_leaveCwd h₁).trans (.of_nodes rfl rfl rfl)

end Calls

/-! ## How the nodes are linked -/

def NodeWired (s : Vfs) (a : ℕ) (n : VNode) : Prop :=
  match n.cls with
  | .overlay => a = s.vfsRoot ∧ ∀ e ∈ n.entries, ∃ m, s.node e.2 = some m ∧ m.cls = .keonMount
  | .keonMount => n.parent = s.vfsRoot ∧ ∀ e ∈ n.entries, ∃ m, s.node e.2 = some m ∧ m.cls = .keonFile
  | .ext4Dir => n.parent = 0
  | .ext4File => n.parent = 0
  | _ => True

/-- The root is the only overlay, over a base on the disk; a mount has it as its parent. -/
structure Wired (s : Vfs) : Prop where
  null : s.node 0 = none
  root : ∃ n, s.node s.vfsRoot = some n ∧ n.cls = .overlay
  base_ne : s.underlying ≠ s.vfsRoot
  base_ne_zero : s.underlying ≠ 0
  base : ∀ n, s.node s.underlying = some n → n.cls.onDisk = true
  nodes : ∀ a n, s.node a = some n → NodeWired s a n

theorem Wired.ne_zero (h : Wired s) (ha : s.node a = some n) : a ≠ 0 := by
  rintro rfl
  rw [h.null] at ha
  cases ha

theorem Wired.evolves (h : Wired s) (hev : Evolves s s') : Wired s' := by
  have hentries : ∀ {cls : NodeClass} {e : CStr × ℕ}, cls.onDisk = false →
      (∃ m, s.node e.2 = some m ∧ m.cls = cls) → ∃ m, s'.node e.2 = some m ∧ m.cls = cls := by
    rintro cls e hcls ⟨m, hm, rfl⟩
    obtain ⟨r, hr⟩ := hev.keeps e.2 m hm hcls
    exact ⟨_, hr, rfl⟩
  refine ⟨?_, ?_, ?_, ?_, fun n hn => ?_, fun a n hn => ?_⟩
  · by_contra hne
    obtain ⟨n, hn⟩ := ne_none_iff_exists'.mp hne
    rcases hev.origin 0 n hn with ⟨n₀, hn₀, -⟩ | ⟨h0, -⟩
    · exact h.ne_zero hn₀ rfl
    · exact h0 rfl
  · obtain ⟨n, hn, hc⟩ := h.root
    obtain ⟨r, hr⟩ := hev.keeps _ n hn (by rw [hc]; rfl)
    rw [hev.vfsRoot]
    exact ⟨_, hr, hc⟩
  · rw [hev.underlying, hev.vfsRoot]
    exact h.base_ne
  · rw [hev.underlying]
    exact h.base_ne_zero
  · rw [hev.underlying] at hn
    rcases hev.origin _ n hn with ⟨n₀, hn₀, heq⟩ | ⟨-, hfresh⟩
    · rw [heq]
      exact h.base n₀ hn₀
    · exact hfresh.1
  · rcases hev.origin a n hn with ⟨n₀, hn₀, heq⟩ | ⟨-, hfresh⟩
    · have hw := h.nodes a n₀ hn₀
      rw [heq]
      obtain ⟨cls, count, parent, ino, entries⟩ := n₀
      cases cls
      case overlay => exact ⟨hw.1.trans hev.vfsRoot.symm, fun e he => hentries rfl (hw.2 e he)⟩
      case keonMount => exact ⟨hw.1.trans hev.vfsRoot.symm, fun e he => hentries rfl (hw.2 e he)⟩
      all_goals exact hw
    · obtain ⟨cls, count, parent, ino, entries⟩ := n
      cases cls
      case overlay => exact absurd hfresh.1 Bool.false_ne_true
      case keonMount => exact absurd hfresh.1 Bool.false_ne_true
      case ext4Dir => exact hfresh.2 (.inl rfl)
      case ext4File => exact hfresh.2 (.inr rfl)
      all_goals trivial

theorem wired_init (fat : Bool) (ino : ℕ) (initrd : Option (List CStr)) :
    Wired (vfsInit fat ino initrd) := by
  have h := vfsInit_inv fat ino initrd
  refine ⟨h.null, h.root, Nat.ne_of_beq_eq_false rfl, Nat.one_ne_zero, fun n hn => ?_, fun a n hn => ?_⟩
  · obtain ⟨m, hm, hc⟩ := h.base
    obtain rfl := Option.some.inj (hn.symm.trans hm)
    rw [hc]
    cases fat <;> rfl
  have hok := h.nodes a n hn
  obtain ⟨cls, count, parent, ino, entries⟩ := n
  cases cls
  case overlay => exact ⟨hok.1, hok.2.2⟩
  case ext4Dir => exact hok.2.2
  case ext4File => exact hok.2.2
  all_goals trivial

theorem VfsReach.wired {ok : VfsOp → Vfs → Prop} {fat : Bool} {ino : ℕ} {initrd : Option (List CStr)}
    (h : VfsReach ok fat ino initrd s) : Wired s := by
  induction h with
  | init => exact wired_init fat ino initrd
  | step disk op _ _ _ hrun ih => exact ih.evolves (evolves_run hrun)

/-! ## Single nodes -/

section Nodes

variable {disk : Disk} {s s' : Vfs} {a b : ℕ} {n : VNode}

theorem openNode_spec (hn : s.node a = some n) : ∃ s' r, openNode a s = some s' ∧
    s'.node a = some { n with refCount := r } ∧ ∀ b, b ≠ a → s'.node b = s.node b := by
  rw [openNode, hn, map_some]
  split_ifs
  · refine ⟨_, (n.refCount + 1) % 2 ^ 32, rfl, ?_, fun b hb => ?_⟩
    · rw [Vfs.node_setNode (Vfs.lt_of_node hn), if_pos rfl]
    · rw [Vfs.node_setNode (Vfs.lt_of_node hn), if_neg hb]
  · exact ⟨s, n.refCount, rfl, hn, fun _ _ => rfl⟩

theorem closeNode_of_ne (h : closeNode a s = some s') (hb : b ≠ a) : s'.node b = s.node b := by
  obtain ⟨n, hn, rfl⟩ := map_eq_some_iff.mp h
  have hset : ∀ m, (s.setNode a m).node b = s.node b := fun m => by
    rw [Vfs.node_setNode (Vfs.lt_of_node hn), if_neg hb]
  have hdel : (s.delete a).node b = s.node b := by rw [Vfs.node_delete, if_neg hb]
  cases n.cls <;> simp only
  case overlay => exact hset _
  case ext4Dir | ext4File | fatDir =>
    split_ifs
    · exact hdel
    · exact hset _

theorem closeNode_mount (hn : s.node a = some n) (hc : n.cls = .overlay ∨ n.cls = .keonMount) :
    ∃ s' r, closeNode a s = some s' ∧ s'.node a = some { n with refCount := r } := by
  rw [closeNode, hn, map_some]
  obtain ⟨cls, count, parent, ino, entries⟩ := n
  rcases hc with hc | hc
  · obtain rfl := hc
    refine ⟨_, count - 1, rfl, ?_⟩
    rw [Vfs.node_setNode (Vfs.lt_of_node hn), if_pos rfl]
  · obtain rfl := hc
    exact ⟨s, count, rfl, hn⟩

theorem closeNode_fatDir (hn : s.node a = some n) (hc : n.cls = .fatDir) (hroot : a ≠ s.vfsRoot) :
    ∃ s', closeNode a s = some s' ∧
      if n.refCount % 2 ^ 32 = 1 then s'.node a = none
      else ∃ r, s'.node a = some { n with refCount := r } := by
  rw [closeNode, hn, map_some]
  obtain ⟨cls, count, parent, ino, entries⟩ := n
  obtain rfl := hc
  refine ⟨_, rfl, ?_⟩
  dsimp only
  have hwrap : (count + (2 ^ 32 - 1)) % 2 ^ 32 = 0 ↔ count % 2 ^ 32 = 1 := by omega
  by_cases h1 : count % 2 ^ 32 = 1
  · rw [if_pos h1, if_pos ⟨hwrap.mpr h1, hroot⟩, Vfs.node_delete, if_pos rfl]
  · rw [if_neg h1, if_neg fun h => h1 (hwrap.mp h.1)]
    refine ⟨(count + (2 ^ 32 - 1)) % 2 ^ 32, ?_⟩
    rw [Vfs.node_setNode (Vfs.lt_of_node hn), if_pos rfl]

theorem baseFinddir_eq (hd : n.cls.onDisk = true) (hb : (baseFinddir disk a n c s).1 ≠ 0) :
    ∃ k, baseFinddir disk a n c s = s.alloc k ∧
      ((n.cls = .ext4Dir ∧ k.parent = 0) ∨ (n.cls = .fatDir ∧ k.parent = a)) := by
  obtain ⟨cls, count, parent, ino, entries⟩ := n
  cases cls <;> simp only [baseFinddir] at hb ⊢
  case ext4Dir =>
    cases hdisk : disk ino c with
    | none => exact absurd rfl (by rw [hdisk] at hb; exact hb)
    | some e => exact ⟨_, rfl, .inl ⟨trivial, rfl⟩⟩
  case fatDir =>
    cases hdisk : disk ino c with
    | none => exact absurd rfl (by rw [hdisk] at hb; exact hb)
    | some e => exact ⟨_, rfl, .inr ⟨trivial, rfl⟩⟩
  case keonMount => exact absurd hd Bool.false_ne_true
  all_goals exact absurd rfl hb

end Nodes

/-! ## The law -/

theorem walkPath_append {disk : Disk} {ds : List CStr} (ha : a ≠ 0) : walkPath disk (cs ++ ds) a s =
      (walkPath disk cs a s).bind fun r => if r.1 = 0 then some r else walkPath disk ds r.1 r.2 := by
  induction cs generalizing a s with
  | nil => rw [nil_append, walkPath, bind_some, if_neg ha]
  | cons c cs ih =>
    rw [cons_append, walkPath, walkPath]
    by_cases hc : c = ['.']
    · rw [if_pos hc, if_pos hc, ih ha]
    rw [if_neg hc, if_neg hc, bind_assoc]
    refine congrArg _ (funext fun r => ?_)
    rw [bind_assoc]
    refine congrArg _ (funext fun s => ?_)
    by_cases h0 : r.1 = 0
    · rw [if_pos h0, if_pos h0, bind_some, if_pos rfl]
    · rw [if_neg h0, if_neg h0, ih h0]

/-- The path of an entry of a directory; the empty path is the working directory. -/
def joinPath (P c : CStr) : CStr := if P = [] then c else P ++ '/' :: c

/-- A name that one component of a path can have. -/
structure IsName (c : CStr) : Prop where
  ne_nil : c ≠ []
  noSlash : '/' ∉ c
  length_le : c.length ≤ 127
  ne_dot : c ≠ ['.']
  ne_dots : c ≠ ['.', '.']

theorem IsName.head? (hc : IsName c) (q : CStr) : (c ++ q).head? ≠ some '/' := by
  obtain ⟨a, t, rfl⟩ := exists_cons_of_ne_nil hc.ne_nil
  intro h
  exact hc.noSlash (Option.some.inj h ▸ mem_cons_self)

theorem pathComponents_up (hc : IsName c) :
    pathComponents (joinPath P c ++ ['/', '.', '.']) = pathComponents P ++ [c, ['.', '.']] := by
  have hparts : nonemptyParts (c ++ ['/', '.', '.']) = [c, ['.', '.']] := by
    rw [nonemptyParts_append hc.noSlash, if_pos hc.ne_nil]
    rfl
  have hup : components (c ++ ['/', '.', '.']).length (c ++ ['/', '.', '.']) = [c, ['.', '.']] := by
    rw [components_eq le_rfl (hc.head? _) fun a ha => ?_, hparts]
    rw [hparts] at ha
    rcases mem_cons.mp ha with rfl | ha
    · exact hc.length_le
    · rw [mem_singleton.mp ha]
      decide
  rw [joinPath]
  split_ifs with hP
  · have habs : ¬isAbsolute (c ++ ['/', '.', '.']) = true :=
      fun h => hc.head? _ (of_decide_eq_true h)
    rw [hP, pathComponents, if_neg habs, hup]
    rfl
  · rw [append_assoc, cons_append, pathComponents_append hP (hc.head? _), hup]

theorem startNode_up (hc : IsName c) (s : Vfs) :
    startNode (joinPath P c ++ ['/', '.', '.']) s = startNode P s := by
  have habs : isAbsolute (joinPath P c ++ ['/', '.', '.']) = isAbsolute P := by
    rw [joinPath]
    split_ifs with hP
    · subst hP
      exact decide_eq_false (hc.head? _)
    · obtain ⟨a, p, rfl⟩ := exists_cons_of_ne_nil hP
      rfl
  rw [startNode, habs, startNode]

/-- Two nodes stand for the same directory, with the same mounts. -/
def SameDir (s : Vfs) (a : ℕ) (s' : Vfs) (a' : ℕ) : Prop :=
  ∃ n n', s.node a = some n ∧ s'.node a' = some n' ∧ n'.cls = n.cls ∧ n'.ino = n.ino ∧
    n'.entries = n.entries

section Law

variable {disk : Disk} {s s₁ s₂ : Vfs} {P c : CStr} {a b : ℕ} {n k : VNode}

theorem vfsOpen_up (hw : Wired s) (hc : IsName c) (hP : vfsOpen disk P s = some (a, s₁))
    (ha : a ≠ 0) : vfsOpen disk (joinPath P c ++ ['/', '.', '.']) s =
      walkPath disk [c, ['.', '.']] a s₁ := by
  obtain ⟨s₀, h₀, hwalk⟩ := bind_eq_some_iff.mp hP
  have hstart : startNode P s ≠ 0 := by
    obtain ⟨n, hn, -⟩ := map_eq_some_iff.mp h₀
    exact hw.ne_zero hn
  rw [vfsOpen, startNode_up hc, h₀, bind_some, pathComponents_up hc, walkPath_append hstart,
    hwalk, bind_some, if_neg ha]

theorem walk_up (hc : IsName c) (hfind : finddir disk a c s₁ = some (b, s₂)) (hb : b ≠ 0) :
    walkPath disk [c, ['.', '.']] a s₁ =
      (closeNode a s₂).bind fun s₃ => (nextNode disk b ['.', '.'] s₃).bind fun r =>
        (closeNode b r.2).map fun s => (r.1, s) := by
  rw [walkPath, if_neg hc.ne_dot, nextNode, if_neg hc.ne_dots, hfind, bind_some]
  refine congrArg _ (funext fun s₃ => ?_)
  rw [if_neg hb, walkPath, if_neg (by decide)]
  refine congrArg _ (funext fun r => ?_)
  cases closeNode b r.2 with
  | none => rfl
  | some s =>
    by_cases h0 : r.1 = 0
    · rw [bind_some, if_pos h0, map_some, h0]
    · rw [bind_some, if_neg h0]
      rfl

variable {a' : ℕ}

theorem walk_up_fst (hc : IsName c) (hfind : finddir disk a c s₁ = some (b, s₂))
    (hk : s₂.node b = some k) (hw : Wired s₂) (hba : b ≠ a) (hroot : b ≠ s₂.vfsRoot)
    (h : walkPath disk [c, ['.', '.']] a s₁ = some (a', s')) : a' = k.parent := by
  rw [walk_up hc hfind (hw.ne_zero hk)] at h
  obtain ⟨s₃, h₃, h⟩ := bind_eq_some_iff.mp h
  have hroot₃ := (evolves_close h₃).vfsRoot
  rw [nextNode_up ((closeNode_of_ne h₃ hba).trans hk) (hroot₃ ▸ hroot)] at h
  obtain ⟨r, hr, h⟩ := bind_eq_some_iff.mp h
  obtain ⟨s₅, -, heq⟩ := map_eq_some_iff.mp h
  obtain rfl : r.1 = a' := congrArg Prod.fst heq
  split_ifs at hr with h0
  · rw [← Option.some.inj hr, h0]
  · obtain ⟨s₄, -, rfl⟩ := map_eq_some_iff.mp hr
    rfl

theorem walk_up_back (hc : IsName c) (hfind : finddir disk a c s₁ = some (b, s₂))
    (hk : s₂.node b = some k) (hw : Wired s₂) (hba : b ≠ a) (hroot : b ≠ s₂.vfsRoot)
    (hpar : k.parent = a) (hn : s₁.node a = some n) {s₃ : Vfs} {r : ℕ}
    (h₃ : closeNode a s₂ = some s₃) (hn₃ : s₃.node a = some { n with refCount := r }) :
    ∃ s', walkPath disk [c, ['.', '.']] a s₁ = some (a, s') ∧ SameDir s₁ a s' a := by
  have hroot₃ := (evolves_close h₃).vfsRoot
  have hk₃ := (closeNode_of_ne h₃ hba).trans hk
  have ha : a ≠ 0 := (hw.evolves (evolves_close h₃)).ne_zero hn₃
  obtain ⟨s₄, r₄, h₄, hn₄, hother⟩ := openNode_spec hn₃
  obtain ⟨s₅, h₅⟩ : ∃ s₅, closeNode b s₄ = some s₅ := by
    rw [closeNode, hother b hba, hk₃]
    exact ⟨_, rfl⟩
  refine ⟨s₅, ?_, n, { n with refCount := r₄ }, hn, ?_, rfl, rfl, rfl⟩
  · rw [walk_up hc hfind (hw.ne_zero hk), h₃, bind_some, nextNode_up hk₃ (hroot₃ ▸ hroot),
      hpar, if_neg ha, h₄]
    simp only [map_some, bind_some, h₅]
  · rw [closeNode_of_ne h₅ (Ne.symm hba), hn₄]

theorem not_sameDir_zero (hw : Wired s') : ¬SameDir s₁ a s' 0 := by
  rintro ⟨-, n', -, hn', -⟩
  exact hw.ne_zero hn' rfl

theorem alloc_ne (hw : Wired s₁) (hn : s₁.node a = some n) :
    (s₁.alloc k).1 ≠ a ∧ (s₁.alloc k).1 ≠ (s₁.alloc k).2.vfsRoot := by
  obtain ⟨m, hm, -⟩ := hw.root
  exact ⟨(Vfs.lt_of_node hn).ne', (Vfs.lt_of_node hm).ne'⟩

theorem isSome_lookup_iff : (n.entries.lookup c).isSome ↔ c ∈ n.entries.map Prod.fst := by
  rw [lookup_isSome_iff, List.mem_map]
  exact exists_congr fun e => and_congr_right fun _ => beq_iff_eq.trans eq_comm

theorem node_alloc_self (s : Vfs) (n : VNode) : (s.alloc n).2.node (s.alloc n).1 = some n :=
  Vfs.node_alloc.trans (if_pos rfl)

theorem back_of_mount (disk : Disk) (hw : Wired s₁) (hc : IsName c) (hn : s₁.node a = some n)
    (hcls : n.cls = .overlay) (hmem : c ∈ s₁.mounts) :
    ∃ s', walkPath disk [c, ['.', '.']] a s₁ = some (a, s') ∧ SameDir s₁ a s' a := by
  have hnode := hw.nodes a n hn
  rw [NodeWired, hcls] at hnode
  obtain ⟨rfl, hentries⟩ := hnode
  rw [Vfs.mounts, hn, map_some, getD_some] at hmem
  obtain ⟨b, hb⟩ := isSome_iff_exists.mp (isSome_lookup_iff.mpr hmem)
  obtain ⟨k, hk, hkc⟩ := hentries (c, b) (mem_of_lookup hb)
  have hfind : finddir disk s₁.vfsRoot c s₁ = some (b, s₁) := by
    rw [finddir, hn, bind_some, if_pos hcls, hb]
  have hpar := hw.nodes b k hk
  rw [NodeWired, hkc] at hpar
  have hne : b ≠ s₁.vfsRoot := by
    rintro rfl
    rw [Option.some.inj (hk.symm.trans hn), hcls] at hkc
    cases hkc
  obtain ⟨s₃, r, h₃, hn₃⟩ := closeNode_mount hn (.inl hcls)
  exact walk_up_back hc hfind hk hw hne hne hpar.1 hn h₃ hn₃

theorem not_back_of_base (hw : Wired s₁) (hc : IsName c) (hn : s₁.node a = some n)
    (hcls : n.cls = .overlay) (hmem : c ∉ s₁.mounts) (hfind : finddir disk a c s₁ = some (b, s₂))
    (hk : s₂.node b = some k)
    (h : walkPath disk [c, ['.', '.']] a s₁ = some (a', s')) : ¬SameDir s₁ a s' a' := by
  have hw₂ := hw.evolves (evolves_finddir hfind)
  have hw' := hw.evolves (evolves_walk h)
  have hnode := hw.nodes a n hn
  rw [NodeWired, hcls] at hnode
  obtain ⟨rfl, -⟩ := hnode
  have hlookup : n.entries.lookup c = none := by
    rw [Vfs.mounts, hn, map_some, getD_some] at hmem
    by_contra hne
    exact hmem (isSome_lookup_iff.mp (isSome_iff_ne_none.mpr hne))
  have hfind' := hfind
  rw [finddir, hn, bind_some, if_pos hcls, hlookup] at hfind'
  obtain ⟨base, hbase, heq⟩ := map_eq_some_iff.mp hfind'
  have hb : (baseFinddir disk s₁.underlying base c s₁).1 ≠ 0 := by
    rw [heq]
    exact hw₂.ne_zero hk
  obtain ⟨m, hm, hpar⟩ := baseFinddir_eq (hw.base base hbase) hb
  rw [hm] at heq
  obtain ⟨h1, h2⟩ := alloc_ne (k := m) hw hn
  have h4 := node_alloc_self s₁ m
  rw [heq] at h1 h2 h4
  have hkm : k = m := Option.some.inj (hk.symm.trans h4)
  obtain rfl := walk_up_fst hc hfind hk hw₂ h1 h2 h
  rw [hkm]
  rcases hpar with ⟨-, hpar⟩ | ⟨-, hpar⟩
  · rw [hpar]
    exact not_sameDir_zero hw'
  -- the base is not the overlay
  rw [hpar]
  rintro ⟨n₀, n', hn₀, hn', hcls', -⟩
  have hwired := hw'.nodes _ n' hn'
  rw [NodeWired, hcls', Option.some.inj (hn₀.symm.trans hn), hcls] at hwired
  exact hw.base_ne (hwired.1.trans (evolves_walk h).vfsRoot)

theorem finddir_disk (hw : Wired s₁) (hn : s₁.node a = some n) (hd : n.cls.onDisk = true)
    (hfind : finddir disk a c s₁ = some (b, s₂)) (hk : s₂.node b = some k) :
    b ≠ a ∧ b ≠ s₂.vfsRoot ∧ s₂.node a = some n ∧
      ((n.cls = .ext4Dir ∧ k.parent = 0) ∨ (n.cls = .fatDir ∧ k.parent = a)) := by
  have hw₂ := hw.evolves (evolves_finddir hfind)
  have hov : n.cls ≠ .overlay := by
    intro h
    rw [h] at hd
    cases hd
  rw [finddir, hn, bind_some, if_neg hov] at hfind
  have heq := Option.some.inj hfind
  have hb : (baseFinddir disk a n c s₁).1 ≠ 0 := by
    rw [heq]
    exact hw₂.ne_zero hk
  obtain ⟨m, hm, hpar⟩ := baseFinddir_eq hd hb
  rw [hm] at heq
  obtain ⟨h1, h2⟩ := alloc_ne (k := m) hw hn
  have h3 : (s₁.alloc m).2.node a = some n := by
    rw [Vfs.node_alloc, if_neg (Vfs.lt_of_node hn).ne, hn]
  have h4 := node_alloc_self s₁ m
  rw [heq] at h1 h2 h3 h4
  obtain rfl := Option.some.inj (hk.symm.trans h4)
  exact ⟨h1, h2, h3, hpar⟩

end Law

/-- **When `P/c/..` is `P`**: exactly if `P` is the root and `c` a mount, or `P` is a FAT32 directory that
was not opened once. -/
theorem dotdot_iff {ok : VfsOp → Vfs → Prop} {fat : Bool} {ino : ℕ} {initrd : Option (List CStr)}
    {s : Vfs} (hs : VfsReach ok fat ino initrd s) (disk : Disk) {P c : CStr} (hc : IsName c) {a : ℕ}
    {s₁ : Vfs} {n : VNode} (hP : vfsOpen disk P s = some (a, s₁)) (hn : s₁.node a = some n)
    (hdir : n.cls.isDirectory = true) {b : ℕ} {s₂ : Vfs} {k : VNode}
    (hfind : finddir disk a c s₁ = some (b, s₂)) (hk : s₂.node b = some k)
    (hkdir : k.cls.isDirectory = true) :
    (∃ a' s', vfsOpen disk (joinPath P c ++ ['/', '.', '.']) s = some (a', s') ∧ SameDir s₁ a s' a') ↔
      n.cls = .overlay ∧ c ∈ s₁.mounts ∨ n.cls = .fatDir ∧ n.refCount % 2 ^ 32 ≠ 1 := by
  have hw := hs.wired.evolves (evolves_vfsOpen hP)
  have hw₂ := hw.evolves (evolves_finddir hfind)
  rw [vfsOpen_up hs.wired hc hP (hw.ne_zero hn)]
  cases hcls : n.cls
  case overlay =>
    by_cases hmem : c ∈ s₁.mounts
    · obtain ⟨s', h⟩ := back_of_mount disk hw hc hn hcls hmem
      exact iff_of_true ⟨a, s', h⟩ (.inl ⟨rfl, hmem⟩)
    refine iff_of_false ?_ ?_
    · rintro ⟨a', s', h, hsame⟩
      exact not_back_of_base hw hc hn hcls hmem hfind hk h hsame
    · rintro (h | h)
      · exact hmem h.2
      · cases h.1
  case keonMount =>
    -- a mount has files only
    have hnode := hw.nodes a n hn
    rw [NodeWired, hcls] at hnode
    rw [finddir, hn, bind_some, if_neg (by rw [hcls]; decide), baseFinddir, hcls] at hfind
    obtain ⟨hb, rfl⟩ := Prod.ext_iff.mp (Option.some.inj hfind)
    cases hl : n.entries.lookup c with
    | none =>
      rw [hl] at hb
      exact absurd hb.symm (hw₂.ne_zero hk)
    | some b' =>
      rw [hl] at hb
      obtain rfl : b' = b := hb
      obtain ⟨m, hm, hmc⟩ := hnode.2 (c, b') (mem_of_lookup hl)
      rw [Option.some.inj (hk.symm.trans hm), hmc] at hkdir
      cases hkdir
  case ext4Dir =>
    obtain ⟨h1, h2, -, hpar⟩ := finddir_disk hw hn (by rw [hcls]; rfl) hfind hk
    refine iff_of_false ?_ ?_
    · rintro ⟨a', s', h, hsame⟩
      have hp : k.parent = 0 := by
        rcases hpar with hpar | ⟨h, -⟩
        · exact hpar.2
        · rw [hcls] at h
          cases h
      obtain rfl := (walk_up_fst hc hfind hk hw₂ h1 h2 h).trans hp
      exact not_sameDir_zero (hw.evolves (evolves_walk h)) hsame
    · rintro (h | h) <;> cases h.1
  case fatDir =>
    obtain ⟨h1, h2, h3, hpar⟩ := finddir_disk hw hn (by rw [hcls]; rfl) hfind hk
    have hp : k.parent = a := by
      rcases hpar with ⟨h, -⟩ | hpar
      · rw [hcls] at h
        cases h
      · exact hpar.2
    have hroot : a ≠ s₂.vfsRoot := by
      rintro rfl
      obtain ⟨m, hm, hmc⟩ := hw₂.root
      rw [← Option.some.inj (h3.symm.trans hm), hcls] at hmc
      cases hmc
    obtain ⟨s₃, h₃, hn₃⟩ := closeNode_fatDir h3 hcls hroot
    by_cases hcount : n.refCount % 2 ^ 32 = 1
    · refine iff_of_false ?_ ?_
      · -- the directory was deleted when it was left
        rintro ⟨a', s', h, -⟩
        rw [if_pos hcount] at hn₃
        rw [walk_up hc hfind (hw₂.ne_zero hk), h₃, bind_some,
          nextNode_up ((closeNode_of_ne h₃ h1).trans hk) ((evolves_close h₃).vfsRoot ▸ h2), hp,
          if_neg (hw.ne_zero hn), openNode, hn₃] at h
        cases h
      · rintro (h | h)
        · cases h.1
        · exact h.2 hcount
    · rw [if_neg hcount] at hn₃
      obtain ⟨r, hn₃⟩ := hn₃
      obtain ⟨s', h⟩ := walk_up_back hc hfind hk hw₂ h1 h2 hp hn h₃ hn₃
      exact iff_of_true ⟨a, s', h⟩ (.inr ⟨rfl, hcount⟩)
  all_goals
    rw [hcls] at hdir
    exact absurd hdir Bool.false_ne_true

def diskWithAB : Disk := fun ino name =>
  if ino = 2 ∧ name = ['a'] then some (12, true)
  else if ino = 12 ∧ name = ['b'] then some (13, true)
  else none

theorem dotdot_iff_fat : ∃ s₁, vfsOpen diskWithAB "/a".toList (vfsInit true 2 none) = some (3, s₁) ∧
      ∃ a' s', vfsOpen diskWithAB "/a/b/..".toList (vfsInit true 2 none) = some (a', s') ∧
        SameDir s₁ 3 s' a' := by
  have hc : IsName ['b'] := by constructor <;> decide
  have hP : vfsOpen diskWithAB "/a".toList (vfsInit true 2 none) = some (3, _) := rfl
  refine ⟨_, hP, (dotdot_iff (VfsReach.init : VfsReach (fun _ _ => True) _ _ _ _) diskWithAB hc
    hP rfl rfl rfl rfl rfl).mpr (.inr ⟨rfl, ?_⟩)⟩
  decide

/-- On ext4 there is no `/a/..`, and on FAT32 it is a root without the mounts. -/
theorem dotdot_fails :
    (vfsOpen diskWithAB "/a/..".toList (vfsInit false 2 (some []))).map (·.1) = some 0 ∧
      (vfsOpen diskWithAB "/a/..".toList (vfsInit true 2 (some []))).map (·.1) = some 1 ∧
      (vfsOpen diskWithAB "/".toList (vfsInit true 2 (some []))).map (·.1) = some 2 ∧
      (vfsOpen diskWithAB "/a/../initrd".toList (vfsInit true 2 (some []))).map (·.1) = some 0 ∧
      (vfsOpen diskWithAB "/initrd".toList (vfsInit true 2 (some []))).map (·.1) = some 3 := by
  decide

end KeonOS
