import KeonOS.Fs.Walk

/-!
# References to nodes

When no relative path is used while the working directory is on the disk, and on FAT32 no `..` leads
from a node right below the root to the base of the overlay, no node is deleted while something points
to it.

* **`VfsInv.step`**: a call keeps the invariant;
* **`nodes_outlive_references`**: what holds along every run.
-/

namespace KeonOS

open List Option

/-! ## The condition -/

/-- The position where a walk of `path` starts, unless that is on the disk. -/
def Vfs.startPos (s : Vfs) (path : CStr) : Option VPos := (s.node (startNode path s)).bind fun n =>
    match n.cls with
    | .overlay => some .root
    | .keonMount => some .mount
    | _ => none

/-- The walk of `path` starts off the disk, and on FAT32 it does not go up to the base. -/
def pathSafe (fat : Bool) (path : CStr) (s : Vfs) : Bool :=
  match s.startPos path with
  | none => false
  | some pos => !fat || !leavesDisk s.mounts pos (pathComponents path)

/-- The paths that the call opens are safe. -/
def VfsOp.Safe (fat : Bool) : VfsOp → Vfs → Prop
  | .open path, s => pathSafe fat path s = true
  | .cd path, s => pathSafe fat path s = true
  | .create path _, s => path ≠ [] → pathSafe fat (splitPath path).1 s = true
  | .mkdir path, s => path ≠ [] → pathSafe fat (splitPath path).1 s = true
  | .unlink path, s => path ≠ [] → pathSafe fat (splitPath path).1 s = true
  | .close _, _ => True
  | .cdHome, _ => True

/-- What the call does to the open nodes. -/
def VfsOp.Handles : VfsOp → List ℕ → List ℕ → Prop
  | .close a, l, l' => l' = l.erase a
  | _, l, l' => l <+ l'

/-- The states reached by calls that `ok` allows, each with its own contents of the disk. -/
inductive VfsReach (ok : VfsOp → Vfs → Prop) (fat : Bool) (ino : ℕ) (initrd : Option (List CStr)) :
    Vfs → Prop
  | init : VfsReach ok fat ino initrd (vfsInit fat ino initrd)
  | step {s s' : Vfs} (disk : Disk) (op : VfsOp) : VfsReach ok fat ino initrd s → op.Enabled s →
      ok op s → op.run disk s = some s' → VfsReach ok fat ino initrd s'

/-! ## Opening a path -/

namespace VfsInv

variable {fat : Bool} {s s' : Vfs} {a : ℕ} {n : VNode} {path : CStr}

theorem opens (h : VfsInv fat s) (disk : Disk) (hsafe : pathSafe fat path s = true) :
    ∃ r pos, vfsOpen disk path s = some r ∧ Went fat s r.1 pos r.2 := by
  unfold pathSafe at hsafe
  cases hpos : s.startPos path with
  | none => rw [hpos] at hsafe; cases hsafe
  | some pos =>
    rw [hpos] at hsafe
    have hleave : fat = true → leavesDisk s.mounts pos (pathComponents path) = false := by
      rintro rfl
      simpa using hsafe
    obtain ⟨n, hn, hcls⟩ := bind_eq_some_iff.mp hpos
    -- the start is opened, and the walk is at it
    have hstart : ∃ s₁, openNode (startNode path s) s = some s₁ ∧ VfsInv fat s₁ ∧
        SameGlobals s s₁ ∧ At fat s₁ (startNode path s) pos := by
      cases hc : n.cls <;> simp only [hc] at hcls
      case overlay =>
        have hok := h.nodes _ n hn
        simp only [NodeOk, hc] at hok
        obtain ⟨s₁, hopen, hinv, hch⟩ := h.open_root
        cases hcls
        rw [hok.1]
        exact ⟨s₁, hopen, hinv, hch.globals, hch.globals.vfsRoot.symm⟩
      case keonMount =>
        cases hcls
        refine ⟨s, ?_, h, .refl, n, hn, hc⟩
        rw [openNode, hn, map_some, hc]
        rfl
      all_goals cases hcls
    obtain ⟨s₁, hopen, hinv, hg, hat⟩ := hstart
    obtain ⟨r, pos', hwalk, hwent⟩ := hinv.walk hat fun ht => by
      rw [hg.mounts]
      exact hleave ht
    refine ⟨r, pos', ?_, hwent.inv, hg.trans hwent.globals, hwent.arrives⟩
    rw [vfsOpen, hopen, bind_some, hwalk]

/-! ## Owners -/

theorem setOwners (h : VfsInv fat s) {c : ℕ} {hs : List ℕ} (h0 : 0 ∉ hs) (a : ℕ)
    (hfree : a ≠ 0 → ∃ n, s.node a = some n ∧ s.Free a n)
    (hcount : ∀ b, b ≠ 0 → (c :: hs).count b ≤ s.owners.count b + if b = a then 1 else 0) :
    VfsInv fat { s with cwdNode := c, handles := hs } := by
  refine ⟨h.lost, h.null, h.root, h.base, fun b m hm => ?_, h0, fun b hb hb0 => ?_⟩
  · exact (h.nodes b m hm).congr rfl fun b' m' hm' _ => ⟨m', hm', rfl⟩
  have hpos : 1 ≤ (c :: hs).count b := count_pos_iff.mpr hb
  have hle := hcount b hb0
  change ∃ m, s.node b = some m ∧
    (m.cls.onDisk = true → b ≠ s.underlying ∧ m.refCount = 0 ∧ (c :: hs).count b = 1)
  split_ifs at hle with hba
  · subst hba
    obtain ⟨m, hm, hmfree⟩ := hfree hb0
    refine ⟨m, hm, fun hd => ?_⟩
    obtain ⟨hr, hbase, hown⟩ := hmfree hd
    rw [count_eq_zero.mpr hown] at hle
    exact ⟨hbase, hr, by omega⟩
  · have hmem : b ∈ s.owners := count_pos_iff.mp (by omega)
    obtain ⟨m, hm, hmown⟩ := h.owned b hmem hb0
    refine ⟨m, hm, fun hd => ?_⟩
    obtain ⟨hbase, hr, hone⟩ := hmown hd
    exact ⟨hbase, hr, by omega⟩

theorem keep (h : VfsInv fat s) (hfree : a ≠ 0 → ∃ n, s.node a = some n ∧ s.Free a n) :
    VfsInv fat (s.keep a) := by
  unfold Vfs.keep
  split_ifs with h0
  · exact h
  refine h.setOwners ?_ a hfree fun b _ => ?_
  · rw [mem_cons, not_or]
    exact ⟨Ne.symm h0, h.handles⟩
  rw [Vfs.owners, count_cons, count_cons, count_cons]
  by_cases hba : b = a
  · subst hba
    simp
    omega
  · simp [hba, Ne.symm hba]

theorem free_of_owned (h : VfsInv fat s) (ha : a ∈ s.owners) (h0 : a ≠ 0) {c : ℕ} {hs : List ℕ}
    (hcount : (c :: hs).count a + 1 ≤ s.owners.count a) :
    ∃ n, s.node a = some n ∧ ({ s with cwdNode := c, handles := hs } : Vfs).Free a n := by
  obtain ⟨n, hn, hown⟩ := h.owned a ha h0
  refine ⟨n, hn, fun hd => ?_⟩
  obtain ⟨hbase, hr, hone⟩ := hown hd
  refine ⟨hr, hbase, fun hmem => ?_⟩
  have := count_pos_iff.mpr hmem
  change 0 < (c :: hs).count a at this
  omega

theorem leave (h : VfsInv fat s) (ha : s.node a = some n) (hfree : s.Free a n) :
    ∃ s', leaveCwd s = some s' ∧ VfsInv fat s' ∧ s'.vfsRoot = s.vfsRoot ∧ s'.handles = s.handles ∧
      ∃ n', s'.node a = some n' ∧ s'.Free a n' := by
  unfold leaveCwd
  split_ifs with hcwd
  · have hmem : s.cwdNode ∈ s.owners := mem_cons_self
    have hcount : ∀ b, b ≠ 0 → (0 :: s.handles).count b ≤ s.owners.count b + if b = 0 then 1 else 0 := by
      intro b hb
      rw [Vfs.owners, count_cons, count_cons]
      simp [hb, Ne.symm hb]
    have hinv := h.setOwners h.handles 0 (absurd rfl) hcount
    obtain ⟨m, hm, hmfree⟩ : ∃ m, s.node s.cwdNode = some m ∧
        ({ s with cwdNode := 0, handles := s.handles } : Vfs).Free s.cwdNode m := by
      refine h.free_of_owned hmem hcwd.1 ?_
      rw [Vfs.owners, count_cons, count_cons]
      simp [Ne.symm hcwd.1]
    obtain ⟨s', hclose, hinv', hch, hsame, -⟩ := hinv.close hm hmfree
    refine ⟨s', hclose, hinv', hch.globals.vfsRoot, hch.globals.handles, ?_⟩
    by_cases hac : a = s.cwdNode
    · -- the new directory is the old one: it is not on the disk
      subst hac
      obtain rfl := Option.some.inj (ha.symm.trans hm)
      have hd : n.cls.onDisk = false := by
        cases hd : n.cls.onDisk with
        | false => rfl
        | true => exact absurd hmem (hfree hd).2.2
      obtain ⟨n', hn', hcls⟩ := hsame hd
      exact ⟨n', hn', fun ht => absurd (hd.symm.trans (hcls ▸ ht)) (by decide)⟩
    · refine ⟨n, (hch.node a hac).trans ha, fun hd => ?_⟩
      obtain ⟨hr, hbase, hown⟩ := hfree hd
      rw [hch.globals.underlying, hch.globals.owners]
      refine ⟨hr, hbase, fun hmem' => ?_⟩
      rcases mem_cons.mp hmem' with h0 | hh
      · exact h.ne_zero ha h0
      · exact hown (mem_cons_of_mem _ hh)
  · exact ⟨s, rfl, h, rfl, rfl, n, ha, hfree⟩

theorem enter (h : VfsInv fat s) (ha : s.node a = some n) (hfree : s.Free a n) :
    VfsInv fat { s with cwdNode := a } := by
  refine h.setOwners h.handles a (fun _ => ⟨n, ha, hfree⟩) fun b _ => ?_
  rw [Vfs.owners, count_cons, count_cons]
  by_cases hba : b = a
  · subst hba
    simp
  · simp [hba, Ne.symm hba]

end VfsInv

/-! ## Calls -/

namespace VfsInv

variable {fat : Bool} {s : Vfs} {disk : Disk} {path : CStr}

theorem close_handle (h : VfsInv fat s) (disk : Disk) {a : ℕ} (ha : a ∈ s.handles) :
    ∃ s', VfsOp.run disk (.close a) s = some s' ∧ VfsInv fat s' ∧ s'.handles = s.handles.erase a := by
  have h0 : a ≠ 0 := fun h0 => h.handles (h0 ▸ ha)
  have hle : ∀ b, b ≠ 0 → (s.cwdNode :: s.handles.erase a).count b ≤
      s.owners.count b + if b = 0 then 1 else 0 := by
    intro b _
    have := (erase_sublist (a := a) (l := s.handles)).count_le b
    rw [Vfs.owners, count_cons, count_cons]
    omega
  have hinv := h.setOwners (fun hmem => h.handles (mem_of_mem_erase hmem)) 0
    (absurd rfl) hle
  obtain ⟨n, hn, hfree⟩ : ∃ n, s.node a = some n ∧
      ({ s with cwdNode := s.cwdNode, handles := s.handles.erase a } : Vfs).Free a n := by
    refine h.free_of_owned (mem_cons_of_mem _ ha) h0 ?_
    have := count_pos_iff.mpr ha
    rw [Vfs.owners, count_cons, count_cons, count_erase_self]
    omega
  obtain ⟨s', hclose, hinv', hch, -⟩ := hinv.close hn hfree
  exact ⟨s', hclose, hinv', hch.globals.handles⟩

theorem create (h : VfsInv fat s) (made : Option ℕ)
    (hsafe : path ≠ [] → pathSafe fat (splitPath path).1 s = true) :
    ∃ r, vfsCreate disk made path s = some r ∧ SameGlobals s r.2 ∧ VfsInv fat (r.2.keep r.1) := by
  by_cases hp : path = []
  · exact ⟨(0, s), by rw [vfsCreate, if_pos hp], .refl, h⟩
  obtain ⟨r, pos, hopen, hwent⟩ := h.opens disk (hsafe hp)
  by_cases h0 : r.1 = 0
  · exact ⟨(0, r.2), by rw [vfsCreate, if_neg hp, hopen, bind_some, if_pos h0], hwent.globals, hwent.inv⟩
  obtain ⟨n, hn, hfree⟩ := (hwent.arrives h0).free hwent.inv
  obtain ⟨r', hcreate, hmade⟩ : ∃ r', createNode made r.1 r.2 = some r' ∧ Made fat r.2 0 r' := by
    rw [createNode, hn, bind_some]
    split_ifs
    · obtain ⟨base, hbase, -⟩ := hwent.inv.base
      rw [hbase, map_some]
      exact ⟨_, rfl, made_create hwent.inv hbase made⟩
    · exact ⟨_, rfl, made_create hwent.inv hn made⟩
  have hn' : r'.2.node r.1 = some n := (hmade.old _ (Vfs.lt_of_node hn).ne).trans hn
  obtain ⟨s', hclose, hinv, hch, -⟩ := hmade.inv.close hn' fun hd => by
    rw [hmade.globals.underlying, hmade.globals.owners]
    exact hfree hd
  refine ⟨(r'.1, s'), ?_, (hwent.globals.trans hmade.globals).trans hch.globals, hinv.keep fun h0' => ?_⟩
  · rw [vfsCreate, if_neg hp, hopen, bind_some, if_neg h0, hcreate, bind_some, hclose, map_some]
  obtain ⟨k, hk, -, hkc, hkb, hko, -⟩ := hmade.free hwent.inv h0'
  refine ⟨k, (hch.node _ fun heq => ?_).trans hk, fun _ => ?_⟩
  · rw [(hmade.new h0').1] at heq
    exact (Vfs.lt_of_node hn).ne heq.symm
  · rw [hch.globals.underlying, hch.globals.owners]
    exact ⟨hkc, hkb, hko⟩

theorem atParent (h : VfsInv fat s) (hsafe : path ≠ [] → pathSafe fat (splitPath path).1 s = true) :
    ∃ s', vfsAtParent disk path s = some s' ∧ VfsInv fat s' ∧ s'.handles = s.handles := by
  by_cases hp : path = []
  · exact ⟨s, by rw [vfsAtParent, if_pos hp], h, rfl⟩
  obtain ⟨r, pos, hopen, hwent⟩ := h.opens disk (hsafe hp)
  rw [vfsAtParent, if_neg hp, hopen, bind_some]
  split_ifs with h0
  · exact ⟨r.2, rfl, hwent.inv, hwent.globals.handles⟩
  · obtain ⟨n, hn, hfree⟩ := (hwent.arrives h0).free hwent.inv
    obtain ⟨s', hclose, hinv, hch, -⟩ := hwent.inv.close hn hfree
    exact ⟨s', hclose, hinv, hch.globals.handles.trans hwent.globals.handles⟩

theorem cd (h : VfsInv fat s) (hsafe : pathSafe fat path s = true) :
    ∃ s', cmdCd disk path s = some s' ∧ VfsInv fat s' ∧ s'.handles = s.handles := by
  obtain ⟨r, pos, hopen, hwent⟩ := h.opens disk hsafe
  rw [cmdCd, hopen, bind_some]
  split_ifs with h0
  · exact ⟨r.2, rfl, hwent.inv, hwent.globals.handles⟩
  obtain ⟨n, hn, hfree⟩ := (hwent.arrives h0).free hwent.inv
  rw [hn, bind_some]
  split_ifs with hdir
  · obtain ⟨s', hleave, hinv, -, hhs, n', hn', hfree'⟩ := hwent.inv.leave hn hfree
    rw [hleave]
    exact ⟨_, rfl, hinv.enter hn' hfree', hhs.trans hwent.globals.handles⟩
  · obtain ⟨s', hclose, hinv, hch, -⟩ := hwent.inv.close hn hfree
    exact ⟨s', hclose, hinv, hch.globals.handles.trans hwent.globals.handles⟩

theorem step_handles (h : VfsInv fat s) (disk : Disk) {op : VfsOp} (hen : op.Enabled s)
    (hsafe : op.Safe fat s) :
    ∃ s', op.run disk s = some s' ∧ VfsInv fat s' ∧ op.Handles s.handles s'.handles := by
  have hkeep : ∀ (s' : Vfs) (b : ℕ), s'.handles = s.handles → s.handles <+ (s'.keep b).handles := by
    intro s' b hs
    rw [Vfs.keep, ← hs]
    split_ifs
    · exact .refl _
    · exact sublist_cons_self _ _
  cases op with
  | «open» path =>
    obtain ⟨r, pos, hopen, hwent⟩ := h.opens disk hsafe
    refine ⟨r.2.keep r.1, by rw [VfsOp.run, hopen]; rfl, hwent.inv.keep fun h0 => ?_,
      hkeep _ _ hwent.globals.handles⟩
    exact (hwent.arrives h0).free hwent.inv
  | close a => exact h.close_handle disk hen
  | create path made =>
    obtain ⟨r, hcreate, hg, hinv⟩ := h.create made hsafe
    exact ⟨r.2.keep r.1, by rw [VfsOp.run, hcreate]; rfl, hinv, hkeep _ _ hg.handles⟩
  | mkdir path =>
    obtain ⟨s', hrun, hinv, hhs⟩ := h.atParent hsafe
    exact ⟨s', hrun, hinv, hhs ▸ .refl _⟩
  | unlink path =>
    obtain ⟨s', hrun, hinv, hhs⟩ := h.atParent hsafe
    exact ⟨s', hrun, hinv, hhs ▸ .refl _⟩
  | cd path =>
    obtain ⟨s', hrun, hinv, hhs⟩ := h.cd hsafe
    exact ⟨s', hrun, hinv, hhs ▸ .refl _⟩
  | cdHome =>
    obtain ⟨n, hn, hc⟩ := h.root
    obtain ⟨s', hleave, hinv, hroot, hhs, n', hn', hfree⟩ :=
      h.leave hn fun hd => absurd hd (by rw [hc]; decide)
    refine ⟨{ s' with cwdNode := s'.vfsRoot }, by rw [VfsOp.run, hleave]; rfl, ?_, hhs ▸ .refl _⟩
    rw [← hroot] at hn' hfree
    exact hinv.enter hn' hfree

theorem step (h : VfsInv fat s) {op : VfsOp} (hen : op.Enabled s) (hsafe : op.Safe fat s) :
    ∃ s', op.run disk s = some s' ∧ VfsInv fat s' := by
  obtain ⟨s', hrun, hinv, -⟩ := h.step_handles disk hen hsafe
  exact ⟨s', hrun, hinv⟩

end VfsInv

/-! ## Runs -/

theorem node_initrd (fat : Bool) (ino : ℕ) (names : List CStr) (k : ℕ) :
    (vfsInit fat ino (some names)).node (k + 4) = (names[k]?).map fun _ => ⟨.keonFile, 0, 0, 0, []⟩ := by
  change ((names.map fun _ => some _)[k]?).join = _
  rw [getElem?_map]
  cases names[k]? <;> rfl

theorem vfsInit_inv (fat : Bool) (ino : ℕ) (initrd : Option (List CStr)) :
    VfsInv fat (vfsInit fat ino initrd) := by
  refine ⟨rfl, rfl, ⟨_, rfl, rfl⟩, ⟨_, rfl, rfl⟩, fun a n hn => ?_, not_mem_nil,
    fun a ha h0 => absurd (mem_singleton.mp ha) h0⟩
  match a, hn with
  | 0, hn => cases hn
  | 1, hn =>
    cases hn
    cases fat
    · exact ⟨rfl, rfl, rfl⟩
    · exact ⟨rfl, .inl rfl, Nat.one_pos⟩
  | 2, hn =>
    cases hn
    refine ⟨rfl, rfl, fun e he => ?_⟩
    cases initrd with
    | none => cases he
    | some names =>
      obtain rfl := mem_singleton.mp he
      exact ⟨_, rfl, rfl⟩
  | a + 3, hn =>
    cases initrd with
    | none => cases hn
    | some names =>
      cases a with
      | zero =>
        cases hn
        refine ⟨rfl, fun e he => ?_⟩
        -- the files of the mount are at the addresses after it
        have hrange := mem_range'_1.mp (of_mem_zip he).2
        obtain ⟨k, hk⟩ := Nat.exists_eq_add_of_le' hrange.1
        rw [hk, node_initrd, getElem?_eq_getElem (by omega)]
        exact ⟨_, rfl, rfl⟩
      | succ k =>
        rw [show k + 1 + 3 = k + 4 from rfl, node_initrd] at hn
        obtain ⟨-, -, rfl⟩ := map_eq_some_iff.mp hn
        exact rfl

theorem VfsReach.inv {fat : Bool} {ino : ℕ} {initrd : Option (List CStr)} {s : Vfs}
    (h : VfsReach (VfsOp.Safe fat) fat ino initrd s) : VfsInv fat s := by
  induction h with
  | init => exact vfsInit_inv fat ino initrd
  | step disk op _ hen hsafe hrun ih =>
    obtain ⟨s', hrun', hinv⟩ := ih.step hen hsafe
    exact Option.some.inj (hrun.symm.trans hrun') ▸ hinv

/-- **No node is deleted while something points to it**, in any run of calls whose paths are safe. -/
theorem nodes_outlive_references (fat : Bool) (ino : ℕ) (initrd : Option (List CStr)) (s : Vfs)
    (h : VfsReach (VfsOp.Safe fat) fat ino initrd s) :
    s.lost = [] ∧
      ∀ (disk : Disk) (op : VfsOp), op.Enabled s → op.Safe fat s → (op.run disk s).isSome := by
  refine ⟨h.inv.lost, fun disk op hen hsafe => ?_⟩
  obtain ⟨s', hrun, -⟩ : ∃ s', op.run disk s = some s' ∧ VfsInv fat s' := h.inv.step hen hsafe
  rw [hrun]
  rfl

/-- A root directory with one subdirectory `a`. -/
def diskWithA : Disk := fun ino name => if ino = 2 ∧ name = ['a'] then some (12, true) else none

theorem nodes_outlive_references_cd : ∃ s, VfsReach (VfsOp.Safe false) false 2 none s ∧
    s.cwdNode = 3 ∧ s.lost = [] := by
  have h0 : VfsReach (VfsOp.Safe false) false 2 none (vfsInit false 2 none) := .init
  have h1 := VfsReach.step diskWithA (.cd ['/', 'a']) h0 rfl rfl rfl
  have h2 := VfsReach.step diskWithA (.open ['/', 'a', '/', '.', '.']) h1 trivial rfl rfl
  exact ⟨_, h2, rfl, (nodes_outlive_references false 2 none _ h2).1⟩

/-- On ext4 a relative path deletes the working directory; on FAT32 closing `/a/..` deletes the base. -/
theorem path_deletes_referenced : (∃ s, VfsReach (fun _ _ => True) false 2 none s ∧ s.cwdNode ∈ s.lost) ∧
    (∃ s, VfsReach (fun _ _ => True) true 2 none s ∧ s.underlying ∈ s.lost) := by
  constructor
  · have h0 : VfsReach (fun _ _ => True) false 2 none (vfsInit false 2 none) := .init
    have h1 := VfsReach.step diskWithA (.cd ['/', 'a']) h0 rfl trivial rfl
    have h2 := VfsReach.step diskWithA (.open ['x']) h1 trivial trivial rfl
    exact ⟨_, h2, by decide⟩
  · have h0 : VfsReach (fun _ _ => True) true 2 none (vfsInit true 2 none) := .init
    have h1 := VfsReach.step diskWithA (.open ['/', 'a', '/', '.', '.']) h0 trivial trivial rfl
    have h2 := VfsReach.step diskWithA (.close 1) h1 (mem_singleton_self 1) trivial rfl
    exact ⟨_, h2, by decide⟩

end KeonOS
