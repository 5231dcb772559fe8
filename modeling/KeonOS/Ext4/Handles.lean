import KeonOS.Ext4.ReadWrite

/-!
# Several objects for one file

Each `Ext4File` keeps its own copy of the inode and writes it back as a whole. As long as every call goes
through an object whose copy is the inode on the disk, the calls act as on a single object; an object
with an older copy loses what was written through another one.

* **`Ext4.handles_act_as_one`**: the run is that of a single object.
-/

namespace KeonOS

inductive FileCall
  | read (offset size : ℕ)
  | write (offset : ℕ) (data : List UInt8)

def FileCall.op (h : ℕ) : FileCall → Ext4Op
  | .read offset size => .read h offset size
  | .write offset data => .write h offset data

namespace Ext4

/-- Calls in a given order, each with the number of its object. -/
def interleaving (calls : List (ℕ × FileCall)) : List Ext4Op := calls.map fun c => c.2.op c.1

/-- The same calls on the first object. -/
def sequential (calls : List (ℕ × FileCall)) : List Ext4Op := calls.map fun c => c.2.op 0

/-- Every call goes through an object that holds the inode on the disk at that moment. -/
def CurrentRun (fs : Ext4) : List Ext4Op → List Ext4Node → ℕ → Ext4Store → Prop
  | [], _, _, _ => True
  | op :: ops, nodes, ino, s =>
    (∃ h c f, op = FileCall.op h c ∧ nodes[h]? = some f ∧ f.ino = ino ∧ f.isDir = false ∧
      fs.Current s.disk f) ∧
    ∀ r nodes' s', (fs.call op nodes).exec s = some ((r, nodes'), s') → CurrentRun fs ops nodes' ino s'

variable {fs : Ext4} {use : ℕ → BlockUse} {live : ℕ → Prop} {s : Ext4Store}

theorem Current.eq {d : ℕ → Mem} {f g : Ext4Node} (hf : fs.Current d f) (hg : fs.Current d g)
    (hino : f.ino = g.ino) (hdir : f.isDir = g.isDir) : f = g := by
  have hinode : f.inode = g.inode := by rw [hf.inode, hg.inode, hino]
  have hsize : f.size = g.size := by rw [hf.size, hg.size, hinode]
  cases f
  simp only at hino hdir hinode hsize
  rw [hino, hdir, hinode, hsize]

theorem call_current (hw : fs.WellFormed) (h : fs.Consistent s.disk use live) {f : Ext4Node}
    (hlive : live f.ino) (hfile : f.isDir = false) (hf : fs.Current s.disk f) (c : FileCall) :
    ∃ r f' s' use', fs.Current s'.disk f' ∧ f'.ino = f.ino ∧ f'.isDir = false ∧
      fs.Consistent s'.disk use' live ∧
      ∀ k (nodes : List Ext4Node), nodes[k]? = some f →
        (fs.call (c.op k) nodes).exec s = some ((r, nodes.set k f'), s') := by
  have hbs : 0 < fs.blockSize := lt_of_lt_of_le (by norm_num) hw.desc_fits
  have hok : fs.InodeOk s.disk use f.ino f.inode := by
    rw [hf.inode]
    exact h.inodes f.ino hlive
  cases c with
  | read offset size =>
    obtain ⟨l, hl, -⟩ := exec_read_same hbs hok hok (fun _ _ => rfl) offset size
    refine ⟨.bytes l, f, s, use, hf, rfl, hfile, h, fun k nodes hk => ?_⟩
    obtain ⟨hlt, hget⟩ := List.getElem?_eq_some_iff.mp hk
    simp only [FileCall.op, call, onNode, hk, hfile, if_true, BlockM.exec_map, hl, Option.map_some]
    rw [← hget, List.set_getElem_self]
  | write offset data =>
    obtain ⟨n, f', s', use', hexec, hwr⟩ := exec_write hw h hlive hok offset data
    refine ⟨.count n, f', s', use', hwr.current hf, hwr.ino, hwr.isDir.trans hfile, hwr.consistent,
      fun k nodes hk => ?_⟩
    simp only [FileCall.op, call, onNode, hk, hfile, if_true, BlockM.exec_map, hexec, Option.map_some]

/-- **Objects that are up to date act as one**: each call returns what it returns on a single object, and
the volume ends the same. -/
theorem handles_act_as_one (hw : fs.WellFormed) (h : fs.Consistent s.disk use live) {f₀ : Ext4Node}
    (hlive : live f₀.ino) (hfile : f₀.isDir = false) (hf₀ : fs.Current s.disk f₀)
    (calls : List (ℕ × FileCall)) (nodes : List Ext4Node)
    (hrun : fs.CurrentRun (interleaving calls) nodes f₀.ino s) :
    ∃ rs nodes' f' s', (fs.run (interleaving calls) nodes).exec s = some ((rs, nodes'), s') ∧
      (fs.run (sequential calls) [f₀]).exec s = some ((rs, [f']), s') ∧
      (fs.openNode false f₀.ino).exec s' = some (f', s') := by
  induction calls generalizing nodes f₀ s use with
  | nil =>
    refine ⟨[], nodes, f₀, s, rfl, rfl, ?_⟩
    have hopen : fs.Current s.disk
        ⟨false, f₀.ino, fs.inodeOf s.disk f₀.ino, inodeSizeOf (fs.inodeOf s.disk f₀.ino)⟩ := ⟨rfl, rfl⟩
    rw [exec_openNode, hopen.eq hf₀ rfl hfile.symm]
  | cons c calls ih =>
    obtain ⟨⟨k, c', f, hop, hk, hino, hdir, hf⟩, hrest⟩ := hrun
    -- the object of the call is the single one
    obtain rfl : f = f₀ := hf.eq hf₀ hino (hdir.trans hfile.symm)
    obtain ⟨r, f', s₁, use₁, hf', hino', hdir', hcons', hcall⟩ := call_current hw h hlive hfile hf c.2
    obtain rfl : c.1 = k := by
      obtain ⟨k', c⟩ := c
      cases c <;> cases c' <;> simp_all [FileCall.op]
    have hcall₁ := hcall c.1 nodes hk
    obtain ⟨rs, nodes', f'', s', hexec, hexec₀, hopen⟩ :=
      ih hcons' (hino' ▸ hlive) hdir' hf' (nodes.set c.1 f') (hino' ▸ hrest _ _ _ hcall₁)
    refine ⟨r :: rs, nodes', f'', s', ?_, ?_, hino' ▸ hopen⟩
    · simp only [interleaving, List.map_cons, run, BlockM.exec_bind, hcall₁, Option.bind_some]
      rw [← interleaving, hexec]
      rfl
    · simp only [sequential, List.map_cons, run, BlockM.exec_bind, hcall 0 [f] rfl,
        Option.bind_some, List.set_cons_zero]
      rw [← sequential, hexec₀]
      rfl

def smallEmpty : Ext4Node :=
  ⟨false, 13, small.inodeOf smallDisk 13, inodeSizeOf (small.inodeOf smallDisk 13)⟩

theorem handles_act_as_one_small : ∃ rs nodes' f' s',
      (small.run [.write 1 0 [1, 2]] [smallEmpty, smallEmpty]).exec ⟨smallDisk, []⟩ =
        some ((rs, nodes'), s') ∧
      (small.run [.write 0 0 [1, 2]] [smallEmpty]).exec ⟨smallDisk, []⟩ = some ((rs, [f']), s') ∧
      (small.openNode false 13).exec s' = some (f', s') :=
  handles_act_as_one small_wellFormed small_consistent (show smallLive 13 by simp [smallLive]) rfl
    ⟨rfl, rfl⟩ [(1, .write 0 [1, 2])] [smallEmpty, smallEmpty]
    ⟨⟨1, .write 0 [1, 2], smallEmpty, rfl, rfl, rfl, rfl, ⟨rfl, rfl⟩⟩, fun _ _ _ _ => trivial⟩

/-- The first two bytes of the empty file as a new object reads them after some calls. -/
def readAfter (calls : List Ext4Op) : Option (List UInt8) := ((do
    let _ ← small.run calls [smallEmpty, smallEmpty]
    let f ← small.openNode false 13
    small.read f 0 2 : Ext4M (List UInt8)).exec ⟨smallDisk, []⟩).map Prod.fst

/-- **An object with an older copy of the inode loses a write**: the file ends with one byte instead of
two, and the second object reads nothing of what the first one wrote. -/
theorem stale_handle_loses_write : readAfter [.write 0 0 [1, 2], .write 1 0 [3]] = some [3] ∧
      readAfter [.write 0 0 [1, 2], .write 0 0 [3]] = some [3, 2] ∧
      ((small.run [.write 0 0 [1, 2], .read 1 0 2] [smallEmpty, smallEmpty]).exec
        ⟨smallDisk, []⟩).map (fun r => r.1.1) = some [.count 2, .bytes []] := by
  decide +kernel

end Ext4

end KeonOS
