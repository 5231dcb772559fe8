import KeonOS.Fs.References

/-!
# File descriptors

`sys_open` puts the node of a path into the first free entry of the thread's table and `sys_close` takes
it out again. A thread that ends takes its table with it and closes nothing.

* **`descriptors_are_live`**: no descriptor dangles.
-/

namespace KeonOS

open List Option Relation

/-- `fd_table` and `fd_offset` of a thread. -/
structure FdTable where
  node : List ℕ
  offset : List ℕ
  length_node : node.length = 16

def FdTable.empty : FdTable := ⟨replicate 16 0, replicate 16 0, rfl⟩

def FdTable.put (t : FdTable) (fd a offset : ℕ) : FdTable :=
  ⟨t.node.set fd a, t.offset.set fd offset, by rw [length_set, t.length_node]⟩

/-- The node at `fd`; null when the entry is free or `fd` is not below 16. -/
def FdTable.at (t : FdTable) (fd : ℕ) : ℕ := t.node[fd]?.getD 0

/-- The loop of `sys_open` over the entries from 3 on. -/
def FdTable.firstFree (t : FdTable) : Option ℕ := (range' 3 13).find? fun i => t.at i = 0

/-- `sys_open(path, flags)`, with the path as it was copied from the user. -/
def sysOpen (disk : Disk) (made : Option ℕ) (path : CStr) (flags : ℕ) (v : Vfs) (t : FdTable) :
    Option (ℤ × Vfs × FdTable) :=
  (vfsOpen disk path v).bind fun r =>
    (if r.1 = 0 ∧ flags.testBit 0 then vfsCreate disk made path r.2 else some r).bind fun r =>
      if r.1 = 0 then some (-1, r.2, t)
      else match t.firstFree with
        | some fd => some (fd, r.2.keep r.1, t.put fd r.1 0)
        | none => (closeNode r.1 r.2).map fun v => (-1, v, t)

/-- `sys_close(fd)` -/
def sysClose (fd : ℕ) (v : Vfs) (t : FdTable) : Option (ℤ × Vfs × FdTable) :=
  if fd < 3 ∨ t.at fd = 0 then some (-1, v, t)
  else (closeNode (t.at fd) { v with handles := v.handles.erase (t.at fd) }).map fun v => (0, v, t.put fd 0 0)

/-- `sys_read` and `sys_write` of `n` bytes at `fd`. -/
def FdTable.move (t : FdTable) (fd n : ℕ) : FdTable :=
  { t with offset := t.offset.set fd ((t.offset.getD fd 0 + n) % 2 ^ 32) }

/-- The nodes, and the tables of the threads. -/
structure Files where
  vfs : Vfs
  threads : List FdTable

def Files.entries (s : Files) : List ℕ := (s.threads.map FdTable.node).flatten

/-- The paths of `sys_open` are safe when they are used. -/
def SafeOpen (fat : Bool) (disk : Disk) (made : Option ℕ) (path : CStr) (v : Vfs) : Prop :=
  VfsOp.Safe fat (.open path) v ∧ ∀ r, vfsOpen disk path v = some r → VfsOp.Safe fat (.create path made) r.2

/-- One call. The kernel makes calls of its own, and closes what it has opened. -/
inductive FilesStep (fat : Bool) : Files → Files → Prop
  | spawn {s} : FilesStep fat s { s with threads := s.threads ++ [.empty] }
  | exit {s} (k : ℕ) : FilesStep fat s { s with threads := s.threads.eraseIdx k }
  | open {s r disk made path flags} {k : ℕ} {t : FdTable} : s.threads[k]? = some t →
      SafeOpen fat disk made path s.vfs → sysOpen disk made path flags s.vfs t = some r →
      FilesStep fat s ⟨r.2.1, s.threads.set k r.2.2⟩
  | close {s r fd} {k : ℕ} {t : FdTable} : s.threads[k]? = some t → sysClose fd s.vfs t = some r →
      FilesStep fat s ⟨r.2.1, s.threads.set k r.2.2⟩
  | move {s fd n} {k : ℕ} {t : FdTable} : s.threads[k]? = some t →
      FilesStep fat s { s with threads := s.threads.set k (t.move fd n) }
  | kernel {s v disk} {op : VfsOp} : op.Enabled s.vfs → op.Safe fat s.vfs →
      (∀ a, op = .close a → s.entries.count a < s.vfs.handles.count a) → op.run disk s.vfs = some v →
      FilesStep fat s { s with vfs := v }

/-- Every entry stands for a node that was opened. -/
structure FilesInv (fat : Bool) (s : Files) : Prop where
  vfs : VfsInv fat s.vfs
  opened : ∀ a, a ≠ 0 → s.entries.count a ≤ s.vfs.handles.count a

variable {fat : Bool} {s s' : Files} {k fd a : ℕ} {t t' : FdTable} {disk : Disk} {made : Option ℕ}
  {path : CStr} {v : Vfs}

theorem count_entries_set (ht : s.threads[k]? = some t) (v : Vfs) (t' : FdTable) (a : ℕ) :
    (Files.entries ⟨v, s.threads.set k t'⟩).count a + t.node.count a =
      s.entries.count a + t'.node.count a := by
  obtain ⟨hk, rfl⟩ := List.getElem?_eq_some_iff.mp ht
  obtain ⟨A, B, hs, -, hset⟩ := @exists_of_set _ k t' _ hk
  simp only [Files.entries, hset]
  nth_rewrite 2 [hs]
  simp only [map_append, map_cons, flatten_append, flatten_cons, count_append]
  omega

theorem FdTable.count_put (hfd : fd < 16) (b offset c : ℕ) :
    (t.put fd b offset).node.count c + (if t.at fd = c then 1 else 0) =
      t.node.count c + if b = c then 1 else 0 := by
  have hlt : fd < t.node.length := t.length_node ▸ hfd
  obtain ⟨A, B, hs, -, hset⟩ := @exists_of_set _ fd b _ hlt
  simp only [put, hset, FdTable.at, getElem?_eq_getElem hlt, getD_some]
  nth_rewrite 3 [hs]
  simp only [count_append, count_cons, beq_iff_eq]
  omega

theorem FdTable.lt_of_at (h : t.at fd ≠ 0) : fd < 16 := by
  by_contra hge
  rw [FdTable.at, getElem?_eq_none (by rw [t.length_node]; omega)] at h
  exact h rfl

theorem FdTable.firstFree_spec (h : t.firstFree = some fd) : 3 ≤ fd ∧ fd < 16 ∧ t.at fd = 0 := by
  have hmem := mem_of_find?_eq_some h
  have hat := find?_some h
  rw [mem_range'_1] at hmem
  exact ⟨hmem.1, hmem.2, by simpa using hat⟩

theorem mem_entries (ht : t ∈ s.threads) (ha : t.at fd ≠ 0) : t.at fd ∈ s.entries := by
  refine mem_flatten.mpr ⟨t.node, mem_map_of_mem ht, ?_⟩
  rw [FdTable.at, getElem?_eq_getElem (t.length_node ▸ FdTable.lt_of_at ha)]
  exact getElem_mem _

namespace FilesInv

theorem mem_handles (h : FilesInv fat s) (ht : t ∈ s.threads) (ha : t.at fd ≠ 0) :
    t.at fd ∈ s.vfs.handles :=
  count_pos_iff.mp ((count_pos_iff.mpr (mem_entries ht ha)).trans_le (h.opened _ ha))

theorem set (h : FilesInv fat s) (ht : s.threads[k]? = some t) (hinv : VfsInv fat v)
    (hcount : ∀ a, a ≠ 0 → s.vfs.handles.count a + t'.node.count a ≤
      v.handles.count a + t.node.count a) : FilesInv fat ⟨v, s.threads.set k t'⟩ := by
  refine ⟨hinv, fun a ha => ?_⟩
  have hset := count_entries_set ht v t' a
  have hle := h.opened a ha
  have hmore := hcount a ha
  dsimp only
  omega

theorem sameTable (h : FilesInv fat s) (ht : s.threads[k]? = some t) (hinv : VfsInv fat v)
    (hv : v.handles = s.vfs.handles) : FilesInv fat ⟨v, s.threads.set k t⟩ :=
  h.set ht hinv fun a _ => by rw [hv]

theorem close (h : FilesInv fat s) (ht : s.threads[k]? = some t) (fd : ℕ) :
    ∃ r, sysClose fd s.vfs t = some r ∧ FilesInv fat ⟨r.2.1, s.threads.set k r.2.2⟩ := by
  unfold sysClose
  split_ifs with hfd
  · exact ⟨_, rfl, h.sameTable ht h.vfs rfl⟩
  rw [not_or] at hfd
  obtain ⟨v, hclose, hinv, hhs⟩ := h.vfs.close_handle (fun _ _ => none)
    (h.mem_handles (mem_of_getElem? ht) hfd.2)
  rw [VfsOp.run] at hclose
  refine ⟨_, by rw [hclose, map_some], h.set ht hinv fun a ha => ?_⟩
  have hput := FdTable.count_put (t := t) (FdTable.lt_of_at hfd.2) 0 0 a
  rw [if_neg (Ne.symm ha)] at hput
  simp only [hhs, count_erase, beq_iff_eq]
  omega

theorem «open» (h : FilesInv fat s) (ht : s.threads[k]? = some t)
    (hsafe : SafeOpen fat disk made path s.vfs) (flags : ℕ) :
    ∃ r, sysOpen disk made path flags s.vfs t = some r ∧
      FilesInv fat ⟨r.2.1, s.threads.set k r.2.2⟩ := by
  obtain ⟨r, pos, hopen, hwent⟩ := h.vfs.opens disk hsafe.1
  -- the node that was found or created
  obtain ⟨q, hq, hhs, hinv⟩ : ∃ q, (if r.1 = 0 ∧ flags.testBit 0 then vfsCreate disk made path r.2
      else some r) = some q ∧ q.2.handles = s.vfs.handles ∧ VfsInv fat (q.2.keep q.1) := by
    split_ifs
    · obtain ⟨q, hcreate, hg, hinv⟩ := hwent.inv.create made (hsafe.2 r hopen)
      exact ⟨q, hcreate, hg.handles.trans hwent.globals.handles, hinv⟩
    · exact ⟨r, rfl, hwent.globals.handles,
        hwent.inv.keep fun h0 => (hwent.arrives h0).free hwent.inv⟩
  rw [sysOpen, hopen, bind_some, hq, bind_some]
  unfold Vfs.keep at hinv ⊢
  split_ifs at hinv ⊢ with h0
  · exact ⟨_, rfl, h.sameTable ht hinv hhs⟩
  cases hfree : t.firstFree with
  | none =>
    obtain ⟨v, hclose, hinv', hhs'⟩ := hinv.close_handle disk mem_cons_self
    rw [VfsOp.run, erase_cons_head] at hclose
    exact ⟨_, by rw [hclose, map_some], h.sameTable ht hinv' (by rw [hhs', erase_cons_head, hhs])⟩
  | some fd =>
    obtain ⟨-, hlt, hat⟩ := FdTable.firstFree_spec hfree
    refine ⟨_, rfl, h.set ht hinv fun a ha => ?_⟩
    have hput := FdTable.count_put (t := t) hlt q.1 0 a
    rw [hat, if_neg (Ne.symm ha)] at hput
    simp only [count_cons, hhs, beq_iff_eq]
    omega

theorem step (h : FilesInv fat s) (hs : FilesStep fat s s') : FilesInv fat s' := by
  cases hs with
  | spawn =>
    refine ⟨h.vfs, fun a ha => (le_of_eq ?_).trans (h.opened a ha)⟩
    simp [Files.entries, FdTable.empty, Ne.symm ha]
  | exit k =>
    refine ⟨h.vfs, fun a ha => le_trans ?_ (h.opened a ha)⟩
    exact (((eraseIdx_sublist s.threads k).map FdTable.node).flatten).count_le a
  | «open» ht hsafe hr =>
    obtain ⟨r, hr', hinv⟩ := h.open ht hsafe _
    exact Option.some.inj (hr'.symm.trans hr) ▸ hinv
  | close ht hr =>
    obtain ⟨r, hr', hinv⟩ := h.close ht _
    exact Option.some.inj (hr'.symm.trans hr) ▸ hinv
  | move ht => exact h.set ht h.vfs fun a _ => le_rfl
  | @kernel v disk op hen hsafe hclose hrun =>
    obtain ⟨v', hrun', hinv, hhs⟩ := h.vfs.step_handles disk hen hsafe
    obtain rfl := Option.some.inj (hrun'.symm.trans hrun)
    refine ⟨hinv, fun a ha => ?_⟩
    have hle := h.opened a ha
    change s.entries.count a ≤ v'.handles.count a
    cases op with
    | close b =>
      have hb := hclose b rfl
      rw [show v'.handles = _ from hhs, count_erase]
      split_ifs with hba
      · rw [eq_of_beq hba] at hb
        omega
      · exact hle
    | _ => exact hle.trans (Sublist.count_le _ hhs)

end FilesInv

/-- **A descriptor never dangles**, in any run whose paths are safe: its node has not been deleted, a node
of the disk is in one entry of one thread only, and every call returns. -/
theorem descriptors_are_live {ino : ℕ} {initrd : Option (List CStr)}
    (h : ReflTransGen (FilesStep fat) ⟨vfsInit fat ino initrd, []⟩ s) {t : FdTable}
    (ht : s.threads[k]? = some t) :
    (∀ fd, t.at fd ≠ 0 → ∃ n, s.vfs.node (t.at fd) = some n ∧
      (n.cls.onDisk = true → s.entries.count (t.at fd) = 1)) ∧
    (∀ fd, (sysClose fd s.vfs t).isSome) ∧
    ∀ disk made path flags, SafeOpen fat disk made path s.vfs →
      (sysOpen disk made path flags s.vfs t).isSome := by
  have hinv : FilesInv fat s := by
    clear ht
    induction h with
    | refl => exact ⟨vfsInit_inv fat ino initrd, fun a _ => Nat.zero_le _⟩
    | tail _ hs ih => exact ih.step hs
  refine ⟨fun fd hfd => ?_, fun fd => ?_, fun disk made path flags hsafe => ?_⟩
  · have hmem := hinv.mem_handles (mem_of_getElem? ht) hfd
    obtain ⟨n, hn, hown⟩ := hinv.vfs.owned _ (mem_cons_of_mem _ hmem) hfd
    refine ⟨n, hn, fun hd => ?_⟩
    have hone := (hown hd).2.2
    have hle := hinv.opened _ hfd
    have hpos := count_pos_iff.mpr (mem_entries (mem_of_getElem? ht) hfd)
    rw [Vfs.owners, count_cons] at hone
    omega
  · obtain ⟨r, hr, -⟩ := hinv.close ht fd
    rw [hr]
    rfl
  · obtain ⟨r, hr, -⟩ := hinv.open ht hsafe flags
    rw [hr]
    rfl

theorem descriptors_are_live_open : ∃ (s : Files) (t : FdTable) (n : VNode), s.threads[0]? = some t ∧
    t.at 3 = 3 ∧ s.vfs.node 3 = some n ∧ s.entries.count 3 = 1 := by
  have h1 : ReflTransGen (FilesStep false) ⟨vfsInit false 2 none, []⟩ ⟨vfsInit false 2 none, [.empty]⟩ :=
    .single .spawn
  have hopen : sysOpen diskWithA none ['/', 'a'] 0 (vfsInit false 2 none) .empty = some _ := rfl
  have hsafe : SafeOpen false diskWithA none ['/', 'a'] (vfsInit false 2 none) := by
    refine ⟨rfl, fun r hr => ?_⟩
    obtain rfl := Option.some.inj hr
    exact fun _ => rfl
  have h2 := h1.tail (.open (k := 0) rfl hsafe hopen)
  obtain ⟨n, hn, hone⟩ :=
    (descriptors_are_live (k := 0) (t := FdTable.empty.put 3 3 0) h2 rfl).1 3 (by decide)
  have hdisk : n.cls.onDisk = true := by
    cases hn
    rfl
  exact ⟨_, _, n, rfl, rfl, hn, hone hdisk⟩

end KeonOS
