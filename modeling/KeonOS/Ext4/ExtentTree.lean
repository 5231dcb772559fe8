import KeonOS.Ext4.Layout

/-!
# The extent tree of a file

An index node has a key for each of its children, a leaf has extents. `extent_get_block` chooses one
child at every level, the last one with a key at or below the block. The extents of all leaves, from left
to right, form one list, and the lookup should agree with a search of it.

* **`Ext4.lookupNode_eq`**: the walk finds the extents it does not pass by;
* **`Ext4.extent_lookup_iff`**: when the lookup agrees with the flattened tree.
-/

namespace KeonOS

open List

/-- `len` blocks from `start` on, for the logical blocks from `block` on. -/
structure Extent where
  block : ℕ
  len : ℕ
  start : ℕ
deriving DecidableEq, Repr

namespace Extent

def Covers (e : Extent) (l : ℕ) : Prop := e.block ≤ l ∧ l < e.block + e.len

instance (e : Extent) (l : ℕ) : Decidable (e.Covers l) := inferInstanceAs (Decidable (_ ∧ _))

def target (e : Extent) (l : ℕ) : ℕ := e.start + (l - e.block)

def Before (e e' : Extent) : Prop := e.block + e.len ≤ e'.block

theorem Covers.unique {α : Type} {f : α → Extent} {xs : List α}
    (h : xs.Pairwise fun x y => (f x).Before (f y)) {x y : α} (hx : x ∈ xs) (hy : y ∈ xs) {l : ℕ}
    (hxl : (f x).Covers l) (hyl : (f y).Covers l) : x = y := by
  obtain ⟨i, hi, rfl⟩ := getElem_of_mem hx
  obtain ⟨j, hj, rfl⟩ := getElem_of_mem hy
  rw [Covers] at hxl hyl
  rcases lt_trichotomy i j with hij | rfl | hji
  · have hbefore := pairwise_iff_getElem.mp h i j hi hj hij
    rw [Before] at hbefore
    omega
  · rfl
  · have hbefore := pairwise_iff_getElem.mp h j i hj hi hji
    rw [Before] at hbefore
    omega

end Extent

def extentAt (m : Mem) (p : ℕ) : Extent := ⟨eeBlock m p, eeLen m p, eeStart m p⟩

structure LooksUp (es : List Extent) (l r : ℕ) : Prop where
  found : ∀ e ∈ es, e.Covers l → r = e.target l
  missing : (∀ e ∈ es, ¬e.Covers l) → r = 0

namespace Ext4

variable (fs : Ext4) (d : ℕ → Mem)

/-! ## The flattened tree -/

/-- The extents in the leaves below a node, from left to right. -/
def leafExtents : ℕ → Mem → ℕ → List Extent
  | 0, m, a => (List.range (ehEntries m a)).map fun k => extentAt m (entryAt a k)
  | depth + 1, m, a => (List.range (ehEntries m a)).flatMap fun k =>
      leafExtents depth (fs.childOf d m a k) 0

/-- The key after that of child `k`; the last child reaches up to `hi`. -/
def nextKey (m : Mem) (a hi k : ℕ) : ℕ :=
  if k + 1 < ehEntries m a then eiBlock m (entryAt a (k + 1)) else hi

/-- The keys below a node are at least `lo` and less than `hi`. -/
def KeysOk : ℕ → Mem → ℕ → ℕ → ℕ → Prop
  | 0, m, a, lo, hi => ∀ k < ehEntries m a,
      lo ≤ eeBlock m (entryAt a k) ∧ eeBlock m (entryAt a k) < hi ∧
      1 ≤ eeLen m (entryAt a k) ∧ eeLen m (entryAt a k) ≤ 32768
  | depth + 1, m, a, lo, hi => ∀ k < ehEntries m a,
      lo ≤ eiBlock m (entryAt a k) ∧ eiBlock m (entryAt a k) < nextKey m a hi k ∧
      nextKey m a hi k ≤ hi ∧
      KeysOk depth (fs.childOf d m a k) 0 (eiBlock m (entryAt a k)) (nextKey m a hi k)

/-- **A well-formed extent tree**: keys increase and bound those below them, and extents do not overlap. -/
structure ExtentTree (inode : Mem) : Prop where
  extents : usesExtents inode = true
  magic : ehMagic inode iBlock = extentMagic
  nodes : fs.NodesOk d (ehDepth inode iBlock) inode iBlock
  keys : fs.KeysOk d (ehDepth inode iBlock) inode iBlock 0 (2 ^ 32)
  sorted : (fs.leafExtents d (ehDepth inode iBlock) inode iBlock).Pairwise Extent.Before

/-- The flattened tree, each extent with the key at which the walk goes to another leaf. -/
def leafRanges : ℕ → Mem → ℕ → ℕ → List (Extent × ℕ)
  | 0, m, a, hi => (List.range (ehEntries m a)).map fun k => (extentAt m (entryAt a k), hi)
  | depth + 1, m, a, hi => (List.range (ehEntries m a)).flatMap fun k =>
      leafRanges depth (fs.childOf d m a k) 0 (nextKey m a hi k)

/-- The walk comes to the extent, and the extent ends at a 32-bit number. -/
def Reached (l : ℕ) (r : Extent × ℕ) : Prop := r.1.Covers l ∧ l < r.2 ∧ r.1.block + r.1.len < 2 ^ 32

instance (l : ℕ) (r : Extent × ℕ) : Decidable (Reached l r) := inferInstanceAs (Decidable (_ ∧ _ ∧ _))

variable {fs d} {depth : ℕ} {m : Mem} {a lo hi l : ℕ}

theorem map_leafRanges (depth : ℕ) (m : Mem) (a hi : ℕ) :
    (fs.leafRanges d depth m a hi).map Prod.fst = fs.leafExtents d depth m a := by
  induction depth generalizing m a hi with
  | zero => simp [leafRanges, leafExtents]
  | succ depth ih => simp only [leafRanges, leafExtents, map_flatMap, ih]

theorem KeysOk.mem_leafRanges (h : fs.KeysOk d depth m a lo hi) {r : Extent × ℕ}
    (hr : r ∈ fs.leafRanges d depth m a hi) : lo ≤ r.1.block ∧ r.2 ≤ hi ∧ r.1.len ≤ 32768 := by
  induction depth generalizing m a lo hi with
  | zero =>
    obtain ⟨k, hk, rfl⟩ := List.mem_map.mp hr
    have hkey := h k (mem_range.mp hk)
    exact ⟨hkey.1, le_refl hi, hkey.2.2.2⟩
  | succ depth ih =>
    obtain ⟨k, hk, hr⟩ := mem_flatMap.mp hr
    obtain ⟨hlo, -, hnext, hkeys⟩ := h k (mem_range.mp hk)
    obtain ⟨h1, h2, h3⟩ := ih hkeys hr
    exact ⟨hlo.trans h1, h2.trans hnext, h3⟩

/-! ## The walk -/

theorem KeysOk.next_le (h : fs.KeysOk d (depth + 1) m a lo hi) {i j : ℕ} (hij : i < j)
    (hj : j < ehEntries m a) : nextKey m a hi i ≤ eiBlock m (entryAt a j) := by
  induction j with
  | zero => exact absurd hij (Nat.not_lt_zero i)
  | succ j ih =>
    have hnext : ∀ {k}, k + 1 < ehEntries m a → nextKey m a hi k = eiBlock m (entryAt a (k + 1)) :=
      fun hk => if_pos hk
    rcases Nat.lt_succ_iff_lt_or_eq.mp hij with hlt | rfl
    · have hkey := (h j (by omega)).2.1
      rw [hnext hj] at hkey
      exact (ih hlt (by omega)).trans hkey.le
    · exact (hnext hj).le

theorem findSome?_range_eq {α : Type} {n k : ℕ} {f : ℕ → Option α} (hk : k < n)
    (h : ∀ j < n, j ≠ k → f j = none) : (List.range n).findSome? f = f k := by
  cases hf : f k with
  | none =>
    refine findSome?_eq_none_iff.mpr fun j hj => ?_
    by_cases heq : j = k
    · rw [heq, hf]
    · exact h j (mem_range.mp hj) heq
  | some v =>
    have hsome : ((List.range n).findSome? f).isSome :=
      findSome?_isSome_iff.mpr ⟨k, mem_range.mpr hk, by rw [hf]; rfl⟩
    obtain ⟨w, hw⟩ := Option.isSome_iff_exists.mp hsome
    obtain ⟨j, hj, hfj⟩ := exists_of_findSome?_eq_some hw
    have heq : j = k := by
      by_contra hne
      rw [h j (mem_range.mp hj) hne] at hfj
      cases hfj
    rw [hw, ← hf, ← heq, hfj]

theorem findExtent_eq_find? (h : fs.KeysOk d 0 m a lo hi) (hl : l < hi) : findExtent m a l =
      ((fs.leafRanges d 0 m a hi).find? (Reached l ·)).map fun r => r.1.target l := by
  rw [leafRanges, find?_map, Option.map_map, findExtent]
  refine congrArg (Option.map _) (firstBelow_congr fun k hk => ?_)
  obtain ⟨-, -, -, hlen⟩ := h k hk
  refine Bool.decide_congr ?_
  simp only [Reached, Extent.Covers, extentAt]
  omega

theorem lookupNode_eq (h : fs.KeysOk d depth m a lo hi) (hl : l < hi) (hl' : l < 2 ^ 32 - 1) :
    fs.lookupNode d l depth m a =
      (((fs.leafRanges d depth m a hi).find? (Reached l ·)).map fun r => r.1.target l).getD 0 := by
  induction depth generalizing m a lo hi with
  | zero => rw [lookupNode, findExtent_eq_find? h hl]
  | succ depth ih =>
    -- a child whose keys do not enclose the block is passed by
    have hskip : ∀ j < ehEntries m a, (l < eiBlock m (entryAt a j) ∨ nextKey m a hi j ≤ l) →
        (fs.leafRanges d depth (fs.childOf d m a j) 0 (nextKey m a hi j)).find? (Reached l ·) =
          none := by
      intro j hj hout
      refine find?_eq_none.mpr fun r hr hreach => ?_
      obtain ⟨h1, h2, -⟩ := (h j hj).2.2.2.mem_leafRanges hr
      obtain ⟨hcov, hlt, -⟩ := of_decide_eq_true hreach
      rcases hout with hout | hout
      · exact absurd (h1.trans hcov.1) (not_le.mpr hout)
      · exact absurd (hlt.trans_le h2) (not_lt.mpr hout)
    have hbound : ∀ j, (l < if j + 1 < ehEntries m a then eiBlock m (entryAt a (j + 1)) else
        0xFFFFFFFF) ↔ l < nextKey m a hi j := by
      intro j
      rw [nextKey]
      split_ifs
      · rfl
      · omega
    rw [lookupNode, leafRanges, find?_flatMap, findIndex]
    simp only [hbound]
    cases hfirst : firstBelow (ehEntries m a) fun k =>
        decide (eiBlock m (entryAt a k) ≤ l ∧ l < nextKey m a hi k) with
    | none =>
      rw [findSome?_eq_none_iff.mpr fun j hj => ?_]
      · rfl
      · have hj := mem_range.mp hj
        have hnot := of_decide_eq_false (firstBelow_eq_none hfirst hj)
        exact hskip j hj (by omega)
    | some k =>
      obtain ⟨hk, hkey⟩ := firstBelow_eq_some hfirst
      obtain ⟨hle, hlt⟩ := of_decide_eq_true hkey
      rw [findSome?_range_eq hk fun j hj hne => hskip j hj ?_, Option.map_some]
      · exact ih (h k hk).2.2.2 hlt
      · rcases Nat.lt_or_gt_of_ne hne with hjk | hkj
        · exact .inr ((h.next_le hjk hk).trans hle)
        · exact .inl (hlt.trans_le (h.next_le hkj hj))

/-! ## The lookup -/

/-- **The lookup agrees with the flattened tree** exactly when the extent that covers the block ends below
`2 ^ 32` and the block lies below the next key of every index on the way. (An extent that maps the block
to block zero cannot be told from none.) -/
theorem extent_lookup_iff (fs : Ext4) (s : Ext4Store) {inode : Mem} (h : fs.ExtentTree s.disk inode)
    {l : ℕ} (hl : l < 2 ^ 32 - 1) :
    (∀ e ∈ fs.leafExtents s.disk (ehDepth inode iBlock) inode iBlock, e.Covers l →
      ∀ e' ∈ fs.leafExtents s.disk (ehDepth inode iBlock) inode iBlock, e'.Covers l → e' = e) ∧
    ∃ r, (fs.extentGetBlock inode l).exec s = some (r, s) ∧
      (LooksUp (fs.leafExtents s.disk (ehDepth inode iBlock) inode iBlock) l r ↔
        ∀ e ∈ fs.leafRanges s.disk (ehDepth inode iBlock) inode iBlock (2 ^ 32), e.1.Covers l →
          (l < e.2 ∧ e.1.block + e.1.len < 2 ^ 32) ∨ e.1.target l = 0) := by
  refine ⟨fun e he hcov e' he' hcov' => Extent.Covers.unique h.sorted he' he hcov' hcov, _,
    exec_extentGetBlock_of_nodes (fun _ => h.magic) fun _ => h.nodes, ?_⟩
  rw [mapOf, if_pos h.extents, lookupNode_eq h.keys (by omega) hl]
  have hsorted := h.sorted
  rw [← map_leafRanges _ _ _ (2 ^ 32)] at hsorted ⊢
  set rs := fs.leafRanges s.disk (ehDepth inode iBlock) inode iBlock (2 ^ 32) with hrs
  cases hfind : rs.find? (Reached l ·) with
  | none =>
    have hnot : ∀ e ∈ rs, e.1.Covers l → ¬(l < e.2 ∧ e.1.block + e.1.len < 2 ^ 32) :=
      fun e he hcov hreach => find?_eq_none.mp hfind e he (decide_eq_true ⟨hcov, hreach⟩)
    refine ⟨fun hlook e he hcov => .inr ?_, fun hall => ⟨fun e he hcov => ?_, fun _ => rfl⟩⟩
    · exact (hlook.found e.1 (mem_map_of_mem he) hcov).symm
    · obtain ⟨e, hmem, rfl⟩ := List.mem_map.mp he
      exact ((hall e hmem hcov).resolve_left (hnot e hmem hcov)).symm
  | some e₀ =>
    have he₀ := mem_of_find?_eq_some hfind
    have hreached : Reached l e₀ := of_decide_eq_true (find?_some (p := (Reached l ·)) hfind)
    obtain ⟨hcov₀, hreach₀⟩ := hreached
    have huniq : ∀ e ∈ rs, e.1.Covers l → e = e₀ := fun e he hcov =>
      Extent.Covers.unique (pairwise_map.mp hsorted) he he₀ hcov hcov₀
    refine ⟨fun _ e he hcov => .inl (huniq e he hcov ▸ hreach₀), fun _ => ⟨?_, fun hnone => ?_⟩⟩
    · intro e he hcov
      obtain ⟨e, hmem, rfl⟩ := List.mem_map.mp he
      rw [huniq e hmem hcov]
      rfl
    · exact absurd hcov₀ (hnone e₀.1 (mem_map_of_mem he₀))

def leafBlock (es : List Extent) : Mem :=
  es.zipIdx.foldl (fun m e => ((m.writeLE (entryAt 0 e.2) 4 e.1.block).writeLE (entryAt 0 e.2 + 4) 2
    e.1.len).writeLE (entryAt 0 e.2 + 8) 4 e.1.start)
    ((Mem.writeLE (fun _ => 0) 0 2 extentMagic).writeLE 2 2 es.length)

/-- A disk with two leaves, and an inode with an index of them. -/
def treeDisk : ℕ → Mem
  | 20 => leafBlock [⟨5, 3, 30⟩, ⟨50, 10, 40⟩]
  | 21 => leafBlock [⟨120, 4, 60⟩]
  | _ => fun _ => 0

def treeInode : Mem :=
  ((((newInode 0x81A4 1 0 none).writeLE (iBlock + 2) 2 2).writeLE (iBlock + 6) 2 1).writeLE
    (entryAt iBlock 0 + 4) 4 20).writeLE (entryAt iBlock 1) 8 (100 + 2 ^ 32 * 21)

theorem treeInode_extentTree : small.ExtentTree treeDisk treeInode := by
  have hdepth : ehDepth treeInode iBlock = 1 := by decide +kernel
  refine ⟨by decide +kernel, by decide +kernel, ?_, ?_, ?_⟩ <;> rw [hdepth]
  · have hnode : ∀ k < ehEntries treeInode iBlock,
        ehMagic (small.childOf treeDisk treeInode iBlock k) 0 = extentMagic ∧
        ehDepth (small.childOf treeDisk treeInode iBlock k) 0 = 0 := by
      decide +kernel
    exact fun k hk => ⟨(hnode k hk).1, (hnode k hk).2, trivial⟩
  · simp only [KeysOk]
    decide +kernel
  · have hlist : small.leafExtents treeDisk 1 treeInode iBlock =
        [⟨5, 3, 30⟩, ⟨50, 10, 40⟩, ⟨120, 4, 60⟩] := by
      decide +kernel
    rw [hlist]
    simp [Extent.Before]

/-- Block 121 of this file is found. -/
theorem extent_lookup_tree :
    (small.extentGetBlock treeInode 121).exec ⟨treeDisk, []⟩ = some (61, ⟨treeDisk, []⟩) := by
  obtain ⟨-, r, hexec, hiff⟩ := extent_lookup_iff small ⟨treeDisk, []⟩ treeInode_extentTree
    (show 121 < 2 ^ 32 - 1 by norm_num)
  have hlook := hiff.mpr (by decide +kernel)
  have hr : r = 61 := hlook.found ⟨120, 4, 60⟩ (by decide +kernel) (by decide)
  rw [hexec, hr]

def lastInode : Mem := addExtent (newInode 0x81A4 1 0 none) (2 ^ 32 - 10) 10 100

/-- **An extent that ends at `2 ^ 32` is not found**: the sum of its first block and its length is
zero. -/
theorem extent_lookup_wraps : small.ExtentTree treeDisk lastInode ∧ (⟨2 ^ 32 - 10, 10, 100⟩ : Extent) ∈
      small.leafExtents treeDisk (ehDepth lastInode iBlock) lastInode iBlock ∧
    (⟨2 ^ 32 - 10, 10, 100⟩ : Extent).Covers (2 ^ 32 - 5) ∧
    (⟨2 ^ 32 - 10, 10, 100⟩ : Extent).target (2 ^ 32 - 5) = 105 ∧
    (small.extentGetBlock lastInode (2 ^ 32 - 5)).exec ⟨treeDisk, []⟩ = some (0, ⟨treeDisk, []⟩) := by
  have hdepth : ehDepth lastInode iBlock = 0 := by decide +kernel
  have htree : small.ExtentTree treeDisk lastInode := by
    refine ⟨by decide +kernel, by decide +kernel, ?_, ?_, ?_⟩ <;> rw [hdepth]
    · trivial
    · simp only [KeysOk]
      decide +kernel
    · exact pairwise_singleton _ _
  refine ⟨htree, by decide +kernel, by decide, by decide, ?_⟩
  rw [exec_extentGetBlock_of_nodes (fun _ => htree.magic) fun _ => htree.nodes]
  have hmap : small.mapOf treeDisk lastInode (2 ^ 32 - 5) = 0 := by decide +kernel
  rw [hmap]

end Ext4

end KeonOS
