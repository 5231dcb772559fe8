import KeonOS.Fat.Listing

/-!
# FAT32: a new entry in the listing

`create` and `mkdir` store their entry in the first slot that is free or deleted. A directory
without such a slot gets the next free cluster, with whatever that cluster contains: its slots are
then slots of the directory.

* **`listing_insert_iff`**: when a slot that is filled is the only change;
* **`findFreeEntry_at`**: where the slot is, and which clusters are added for it;
* `GrowthOk`, **`fat_growth_iff`**: the two calls.
-/

namespace KeonOS

open FatGeometry FatName List

/-! ## One slot is filled -/

/-- What `readdir` lists of a directory of `n` slots: the slots and their entries. -/
def listing (m : Mem) (n : ℕ) : List (ℕ × FatDirent) := (listed m n).map fun g => (g, listedDirent m g)

variable {i k e : ℕ} {name : List UInt8} {attr : UInt8}

section Insert

variable {m m' : Mem} {n n' g : ℕ}

theorem SameSlot.isShort_iff (h : SameSlot m i m' g) : IsShort m i ↔ IsShort m' g := by
  rw [IsShort, IsShort, SlotLive, SlotLive, h.first, h.attr]

theorem SameSlot.isLong_iff (h : SameSlot m i m' g) : IsLong m i ↔ IsLong m' g := by
  rw [IsLong, IsLong, SlotLive, SlotLive, h.first, h.attr]

variable {a : ℕ}

theorem listedFrom_congr (h : ∀ e, a ≤ e → e < a + k → SameSlot m e m' e) :
    listedFrom m a k = listedFrom m' a k := by
  induction k generalizing a with
  | zero => rfl
  | succ k ih =>
    have ha := h a le_rfl (by omega)
    rw [listedFrom, listedFrom, ha.first, ih fun e h1 h2 => h e (by omega) (by omega)]
    simp only [ha.isShort_iff]

theorem dirLfnBefore_congr (h₀ : dirLfnBefore m a = dirLfnBefore m' a)
    (h : ∀ e, a ≤ e → e < a + k → SameSlot m e m' e) : dirLfnBefore m (a + k) = dirLfnBefore m' (a + k) := by
  induction k with
  | zero => exact h₀
  | succ k ih =>
    have hk := h (a + k) (by omega) (by omega)
    rw [← Nat.add_assoc, dirLfnBefore, dirLfnBefore, ih fun e h1 h2 => h e h1 (by omega),
      hk.lfnStoreAll_eq]
    simp only [hk.isLong_iff]

theorem listedDirent_congr (hlfn : dirLfnBefore m g = dirLfnBefore m' g) (h : SameSlot m g m' g) :
    listedDirent m g = listedDirent m' g := by
  rw [listedDirent, listedDirent, listedName, listedName, hlfn, h.direntName_eq, h.cluster]

theorem listing_congr (h : ∀ e < n, SameSlot m e m' e) : listing m n = listing m' n := by
  have hlist : listed m n = listed m' n := listedFrom_congr fun e _ he => h e (by omega)
  rw [listing, listing, hlist]
  refine map_congr_left fun g hg => ?_
  have hlt := (mem_listed.mp hg).1
  have hlfn : dirLfnBefore m (0 + g) = dirLfnBefore m' (0 + g) :=
    dirLfnBefore_congr rfl fun e _ he => h e (by omega)
  rw [Nat.zero_add] at hlfn
  rw [listedDirent_congr hlfn (h g hlt)]

/-- Slot `g`, the first free one, is filled, in a directory extended from `n` to `n'` slots. -/
structure Fills (m m' : Mem) (n n' g : ℕ) : Prop where
  lt : g < n'
  le : n ≤ n'
  grown : n < n' → n ≤ g
  before : ∀ h < g, SlotLive m h
  free : ¬SlotLive m g
  filled : entFirst m' g ≠ 0
  attr : entAttr m' g &&& attrVolume = 0 ∧ entAttr m' g ≠ attrLfn
  others : ∀ h < n', h ≠ g → SameSlot m h m' h

/-- What makes the new entry `e` the only change: it is not taken for a deleted one, has its own name, and
no slot that was not listed before is listed with it. -/
structure InsertOk (m m' : Mem) (n n' g : ℕ) (e : FatDirent) : Prop where
  live : entFirst m' g ≠ deletedMark
  entry : listedDirent m' g = e
  grown : ∀ h, n ≤ h → h < g → ¬IsShort m h
  rest : n ≤ g ∨ entFirst m g = 0 → ∀ h, g < h → h < n' →
    (∀ x, g < x → x < h → entFirst m x ≠ 0) → ¬IsShort m h

namespace Fills

variable (h : Fills m m' n n' g)
include h

omit h in
theorem congr {m₁ : Mem} (h : Fills m₁ m' n n' g) (hm : ∀ e < n', SameSlot m e m₁ e) :
    Fills m m' n n' g where
  lt := h.lt
  le := h.le
  grown := h.grown
  before e he := by
    rw [SlotLive, (hm e (he.trans h.lt)).first]
    exact h.before e he
  free := by
    rw [SlotLive, (hm g h.lt).first]
    exact h.free
  filled := h.filled
  attr := h.attr
  others e he hne o ho := (hm e he o ho).trans (h.others e he hne o ho)

theorem not_isLong : ¬IsLong m g ∧ ¬IsLong m' g := ⟨fun hl => h.free hl.1, fun hl => h.attr.2 hl.2⟩

theorem isShort_iff : IsShort m' g ↔ entFirst m' g ≠ deletedMark := by
  refine ⟨fun hs => hs.1.2, fun hd => ⟨⟨h.filled, hd⟩, fun hv => ?_, h.attr.2⟩⟩
  exact hv.1 h.attr.1

theorem listedDirent_eq (he : e < n') (hne : e ≠ g) : listedDirent m e = listedDirent m' e := by
  refine listedDirent_congr ?_ (h.others e he hne)
  rcases lt_or_gt_of_ne hne with hlt | hgt
  · have hlfn : dirLfnBefore m (0 + e) = dirLfnBefore m' (0 + e) :=
      dirLfnBefore_congr rfl fun x _ hx => h.others x (by omega) (by omega)
    rwa [Nat.zero_add] at hlfn
  -- Both the free slot and the new entry end a long name.
  have hstart : dirLfnBefore m (g + 1) = dirLfnBefore m' (g + 1) := by
    rw [dirLfnBefore, dirLfnBefore, if_neg h.not_isLong.1, if_neg h.not_isLong.2]
  have hlfn : dirLfnBefore m (g + 1 + (e - (g + 1))) = dirLfnBefore m' (g + 1 + (e - (g + 1))) :=
    dirLfnBefore_congr hstart fun x h1 h2 => h.others x (by omega) (by omega)
  rwa [show g + 1 + (e - (g + 1)) = e by omega] at hlfn

theorem listed_before : listedFrom m' 0 g = listedFrom m 0 g :=
  (listedFrom_congr fun e _ he => h.others e (by have := h.lt; omega) (by omega)).symm

theorem listed_after : listedFrom m' (g + 1) (n' - (g + 1)) = listedFrom m (g + 1) (n' - (g + 1)) :=
  (listedFrom_congr fun e h1 h2 => h.others e (by omega) (by omega)).symm

omit h in
theorem listed_split (hlt : g < k) (hbefore : ∀ e < g, entFirst m e ≠ 0) :
    listed m k = listedFrom m 0 g ++ if entFirst m g = 0 then []
      else if IsShort m g then g :: listedFrom m (g + 1) (k - (g + 1))
      else listedFrom m (g + 1) (k - (g + 1)) := by
  have hsplit := listedFrom_add (m := m) 0 g (k - (g + 1) + 1)
  rw [show g + (k - (g + 1) + 1) = k by omega, if_pos, Nat.zero_add, listedFrom] at hsplit
  · exact hsplit
  · intro e he
    exact hbefore e (by have := (mem_range'_1.mp he).2; omega)

theorem listed_filled (hlive : entFirst m' g ≠ deletedMark) :
    listed m' n' = listedFrom m 0 g ++ g :: listedFrom m (g + 1) (n' - (g + 1)) := by
  have hlt := h.lt
  rw [listed_split hlt, if_neg h.filled, if_pos (h.isShort_iff.mpr hlive), h.listed_before,
    h.listed_after]
  intro e he
  rw [← (h.others e (by omega) (by omega)).first]
  exact (h.before e he).1

theorem listed_old (hgrown : ∀ e, n ≤ e → e < g → ¬IsShort m e)
    (hrest : n ≤ g ∨ entFirst m g = 0 → ∀ e, g < e → e < n' →
      (∀ x, g < x → x < e → entFirst m x ≠ 0) → ¬IsShort m e) :
    listed m n = listedFrom m 0 g ++ listedFrom m (g + 1) (n' - (g + 1)) := by
  have hbefore : ∀ e < g, entFirst m e ≠ 0 := fun e he => (h.before e he).1
  have hnil : n ≤ g ∨ entFirst m g = 0 → listedFrom m (g + 1) (n' - (g + 1)) = [] := by
    intro hor
    refine eq_nil_iff_forall_not_mem.mpr fun e he => ?_
    obtain ⟨hle, hshort, hall⟩ := mem_listedFrom.mp he
    exact hrest hor e (by omega) (by omega) (fun x h1 h2 => hall x (by omega) h2) hshort
  by_cases hle : n ≤ g
  · have hsplit := listedFrom_add (m := m) 0 n (g - n)
    rw [show n + (g - n) = g by omega, if_pos fun e he => hbefore e
      (by have := (mem_range'_1.mp he).2; omega)] at hsplit
    have hmid : listedFrom m (0 + n) (g - n) = [] := by
      refine eq_nil_iff_forall_not_mem.mpr fun e he => ?_
      obtain ⟨hle, hshort, -⟩ := mem_listedFrom.mp he
      exact hgrown e (by omega) (by omega) hshort
    rw [hsplit, hmid, hnil (.inl hle), append_nil, append_nil]
    rfl
  · have hn : n = n' := by
      by_contra hne
      have := h.grown (by have := h.le; omega)
      omega
    have hshort : ¬IsShort m g := fun hs => h.free hs.1
    rw [listed_split (not_le.mp hle) hbefore, if_neg hshort, hn]
    split_ifs with hzero
    · rw [hnil (.inr hzero)]
    · rfl

end Fills

theorem listing_insert_iff (h : Fills m m' n n' g) {e : FatDirent} :
    (∃ l₁ l₂, listing m n = l₁ ++ l₂ ∧ listing m' n' = l₁ ++ (g, e) :: l₂) ↔ InsertOk m m' n n' g e := by
  constructor
  · rintro ⟨l₁, l₂, hold, hnew⟩
    have hmem : (g, e) ∈ listing m' n' := by rw [hnew]; simp
    obtain ⟨g', hg', heq⟩ := List.mem_map.mp hmem
    obtain ⟨rfl, hentry⟩ := Prod.mk.inj heq
    have hlive := (mem_listed.mp hg').2.1.1.2
    -- Every other slot that is listed afterwards was listed before.
    have hsub : ∀ x, x ∈ listed m' n' → x ≠ g' → x ∈ listed m n := by
      intro x hx hne
      have hx' : (x, listedDirent m' x) ∈ listing m' n' := List.mem_map.mpr ⟨x, hx, rfl⟩
      rw [hnew] at hx'
      have hx'' : (x, listedDirent m' x) ∈ listing m n := by
        rw [hold]
        rcases mem_append.mp hx' with hx' | hx'
        · exact mem_append_left _ hx'
        · rcases mem_cons.mp hx' with heq | hx'
          · exact absurd (congrArg Prod.fst heq) hne
          · exact mem_append_right _ hx'
      obtain ⟨y, hy, heq⟩ := List.mem_map.mp hx''
      have hyx : y = x := congrArg Prod.fst heq
      rwa [← hyx]
    have hlt := h.lt
    refine ⟨hlive, hentry, fun x h1 h2 hs => ?_, fun hor x h1 h2 hall hs => ?_⟩
    · have hx : x ∈ listed m' n' := by
        refine mem_listed.mpr ⟨by omega, (h.others x (by omega) (by omega)).isShort_iff.mp hs,
          fun y hy => ?_⟩
        rw [← (h.others y (by omega) (by omega)).first]
        exact (h.before y (by omega)).1
      have := (mem_listed.mp (hsub x hx (by omega))).1
      omega
    have hx : x ∈ listed m' n' := by
      refine mem_listed.mpr ⟨h2, (h.others x h2 (by omega)).isShort_iff.mp hs, fun y hy => ?_⟩
      rcases lt_trichotomy y g' with hyg | rfl | hyg
      · rw [← (h.others y (by omega) (by omega)).first]
        exact (h.before y hyg).1
      · exact h.filled
      · rw [← (h.others y (by omega) (by omega)).first]
        exact hall y hyg hy
    obtain ⟨hxn, -, hbefore⟩ := mem_listed.mp (hsub x hx (by omega))
    rcases hor with hle | hzero
    · omega
    · exact hbefore g' h1 hzero
  · rintro ⟨hlive, hentry, hgrown, hrest⟩
    have hlt := h.lt
    refine ⟨(listedFrom m 0 g).map fun x => (x, listedDirent m x),
      (listedFrom m (g + 1) (n' - (g + 1))).map fun x => (x, listedDirent m x), ?_, ?_⟩
    · rw [listing, h.listed_old hgrown hrest, map_append]
    have hsame : ∀ {a k : ℕ}, a + k ≤ n' → (∀ x, a ≤ x → x < a + k → x ≠ g) →
        (listedFrom m a k).map (fun x => (x, listedDirent m' x)) =
          (listedFrom m a k).map fun x => (x, listedDirent m x) := by
      intro a k hk hne
      refine map_congr_left fun x hx => ?_
      have hxa := (mem_listedFrom.mp hx).1
      rw [h.listedDirent_eq (by omega) (hne x hxa.1 hxa.2)]
    rw [listing, h.listed_filled hlive, map_append, map_cons, hentry,
      hsame (by omega) (fun x _ hx => by omega), hsame (by omega) (fun x hx _ => by omega)]

end Insert

/-! ## The new entry -/

theorem newEntry_fields (attr : UInt8) (hname : name.length = 11) (hk : k < 2 ^ 32) :
    entName (Mem.ofBytes (newEntry name attr k)) 0 = name ∧
      entAttr (Mem.ofBytes (newEntry name attr k)) 0 = attr ∧
      entCluster (Mem.ofBytes (newEntry name attr k)) 0 = k := by
  have hbytes := Mem.bytesAt_ofBytes (newEntry name attr k)
  obtain ⟨hbytes, -⟩ := Mem.bytesAt_append hbytes
  obtain ⟨hbytes, hlow⟩ := Mem.bytesAt_append hbytes
  obtain ⟨hbytes, -⟩ := Mem.bytesAt_append hbytes
  obtain ⟨hbytes, hhigh⟩ := Mem.bytesAt_append hbytes
  obtain ⟨hbytes, -⟩ := Mem.bytesAt_append hbytes
  obtain ⟨hbytes, hattr⟩ := Mem.bytesAt_append hbytes
  simp only [length_append, length_replicate, Mem.length_leBytes, length_singleton,
    hname, Nat.zero_add] at hbytes hattr hhigh hlow
  have hlow := Mem.readLE_of_bytesAt hlow
  have hhigh := Mem.readLE_of_bytesAt hhigh
  refine ⟨hbytes, singleton_inj.mp hattr, ?_⟩
  rw [entCluster, Nat.zero_mul, Nat.zero_add, Nat.zero_add, hlow, hhigh]
  omega

theorem head_field (h0 : 0 ∉ name) (rest : List UInt8) : (field 8 (base name) ++ rest).getD 0 0 ≠ 0 ∧
      ((field 8 (base name) ++ rest).getD 0 0 = deletedMark ↔ name.head? = some deletedMark) := by
  have hspace : spaceChar ≠ 0 ∧ spaceChar ≠ deletedMark ∧ dotChar ≠ deletedMark := by decide
  cases name with
  | nil => exact ⟨hspace.1, iff_of_false hspace.2.1 nofun⟩
  | cons c name =>
    by_cases hc : c = dotChar
    · have hbase : base (c :: name) = [] := by simp [base, hc]
      rw [hbase, hc]
      exact ⟨hspace.1, iff_of_false hspace.2.1 fun h => hspace.2.2 (Option.some.inj h)⟩
    have hbase : base (c :: name) = c :: base name := by simp [base, hc]
    have hget : (field 8 (base (c :: name)) ++ rest).getD 0 0 = upcase c := by
      rw [hbase]
      rfl
    rw [hget, head?_cons, Option.some.injEq, upcase_eq_iff (.inr (by decide)), Ne,
      upcase_eq_iff (.inl (by decide))]
    exact ⟨fun heq => h0 (heq ▸ mem_cons_self), Iff.rfl⟩

/-! ## Where the entry is stored -/

/-- The first free slot of the clusters `l` is slot `s` of the cluster `c` at position `j`. -/
structure SlotAt (fs : Fat32) (d : FatDisk) (l : List ℕ) (j c s : ℕ) : Prop where
  cluster : l[j]? = some c
  slot : fs.freeSlot d c = some s
  before : ∀ i < j, ∀ x, l[i]? = some x → fs.freeSlot d x = none

section Search

variable {fs : Fat32} {N dir j c s : ℕ} {d d' : FatDisk} {cs F : List ℕ} (hg : FatGeometry fs N)
include hg

theorem allocateCluster_head (ht : fs.Linked N d)
    (hF : freeList N (fs.getNextCluster d) = k :: F) :
    2 ≤ k ∧ k < N ∧ fs.getNextCluster d k = 0 ∧
      fs.allocateCluster d = (k, (fs.setEntry d k takenMark).took k) := by
  obtain ⟨hkN, hk0⟩ := mem_freeList.mp (hF ▸ mem_cons_self)
  have hclusters := hg.clusters
  rcases hg.allocateCluster_spec ht.reserved with ⟨i, hi2, -, hi0, hmin, halloc⟩ | ⟨hnone, -⟩
  · have hik : i = k := by
      have hle : i ≤ k := not_lt.mp fun hlt => hmin k hlt hk0
      exact le_antisymm hle (le_of_freeList hF (by omega) hi0)
    rw [← hik]
    exact ⟨hi2, hik ▸ hkN, hi0, halloc⟩
  · exact absurd hk0 (hnone k (by omega))

theorem freeSlot_congr (hc2 : 2 ≤ c) (hcN : c < N)
    (h : ∀ l, fs.InCluster c l → d'.sector l = d.sector l) : fs.freeSlot d' c = fs.freeSlot d c := by
  have hbytes : fs.clusterBytes d' c = fs.clusterBytes d c := by
    funext x
    rw [Fat32.clusterBytes, Fat32.clusterBytes, FatDisk.read, FatDisk.read, hg.clusterToLba_eq hcN hc2]
    split_ifs with hx
    · rw [h _ ⟨by omega, by omega⟩]
    · rfl
  rw [Fat32.freeSlot, Fat32.freeSlot, hbytes]

omit hg in
theorem SlotAt.congr {l : List ℕ} (h : SlotAt fs d l j c s)
    (hl : ∀ x ∈ l, fs.freeSlot d' x = fs.freeSlot d x) : SlotAt fs d' l j c s where
  cluster := h.cluster
  slot := (hl c (mem_of_getElem? h.cluster)).trans h.slot
  before i hi x hx := (hl x (mem_of_getElem? hx)).trans (h.before i hi x hx)

omit hg in
theorem visited_cluster (ht : fs.Linked N d)
    (hcs : fs.Chain N d dir cs)
    (hF : freeList N (fs.getNextCluster d) = F) {x : ℕ} (hx : x ∈ cs ++ F) : 2 ≤ x ∧ x < N := by
  rcases mem_append.mp hx with hx | hx
  · exact ⟨(hcs.used x hx).1, (hcs.used x hx).2.1⟩
  obtain ⟨hxN, hx0⟩ := mem_freeList.mp (hF ▸ hx)
  refine ⟨?_, hxN⟩
  by_contra hlt
  interval_cases x
  · exact ht.reserved.1 hx0
  · exact ht.reserved.2 hx0

theorem findFreeEntry_at {fuel cluster : ℕ} (ht : fs.Linked N d)
    (hcs : fs.Chain N d dir cs) (hi : cs[i]? = some cluster)
    (hF : freeList N (fs.getNextCluster d) = F) (hslot : SlotAt fs d (cs ++ F) j c s) (hij : i ≤ j)
    (hfuel : j < fuel + i) :
    ∃ d', fs.findFreeEntry fuel cluster d = (some (some (fs.entryLba c s, Fat32.entryOffset s)), d') ∧
      TableExtend N endMark (fs.getNextCluster d) (fs.getNextCluster d') dir cs
        (F.take (j + 1 - cs.length)) ∧
      freeList N (fs.getNextCluster d') = F.drop (j + 1 - cs.length) ∧ Touches fs.InFat d d' := by
  induction fuel generalizing i cluster d cs F with
  | zero => omega
  | succ fuel ih =>
    have hmarks := hg.marks
    have hlt := (List.getElem?_eq_some_iff.mp hi).1
    obtain ⟨hk2, hkN, -⟩ := hcs.used_at hi
    have hc : cluster < endMark := by omega
    have hget : (cs ++ F)[i]? = some cluster := by rwa [getElem?_append_left hlt]
    rcases hij.eq_or_lt with rfl | hij
    · obtain rfl : cluster = c := Option.some.inj (hget.symm.trans hslot.cluster)
      refine ⟨d, Fat32.findFreeEntry_found hc hslot.slot, ?_, ?_, .refl d⟩
      · rw [show i + 1 - cs.length = 0 by omega, take_zero]
        exact .refl ht hcs
      · rw [show i + 1 - cs.length = 0 by omega, drop_zero, hF]
    have hnone := hslot.before i hij cluster hget
    by_cases hlast : i + 1 < cs.length
    · obtain ⟨hnext, hin⟩ := hcs.next_in hi hlast
      rw [Fat32.findFreeEntry_next hc hnone (by omega)]
      exact ih ht hcs hnext hF hslot (by omega) (by omega)
    obtain ⟨hend, xs, rfl⟩ := hcs.last_at hi (by omega)
    -- The directory has no free slot, and gets the first free cluster.
    obtain ⟨k, F', hF'⟩ : ∃ k F', F = k :: F' := by
      cases F with
      | nil =>
        have hj := (List.getElem?_eq_some_iff.mp hslot.cluster).1
        rw [append_nil] at hj
        omega
      | cons k F' => exact ⟨k, F', rfl⟩
    rw [hF'] at hF
    obtain ⟨hk2', hk, hk0, halloc⟩ := allocateCluster_head hg ht hF
    have hstep := hg.extend_chain ht hcs hk2' hk hk0
    rw [Fat32.findFreeEntry_last hc hnone hend, halloc]
    generalize hd₁ : fs.setNextCluster ((fs.setEntry d k takenMark).took k) cluster k = d₁ at hstep ⊢
    have htouch : Touches fs.InFat d d₁ := hd₁ ▸ hg.touches_link hkN hk
    have hF₁ : freeList N (fs.getNextCluster d₁) = F' := hstep.freeList hcs hF
    have hslot₁ : SlotAt fs d₁ (xs ++ [cluster] ++ [k] ++ F') j c s := by
      rw [append_assoc _ [k], singleton_append, ← hF']
      refine hslot.congr fun x hx => ?_
      obtain ⟨hx2, hxN⟩ := visited_cluster ht hcs (hF' ▸ hF) hx
      exact freeSlot_congr hg hx2 hxN fun l hl => htouch.sector l (hg.not_inFat hl)
    have hget₁ : (xs ++ [cluster] ++ [k])[i + 1]? = some k := by
      rw [show i + 1 = (xs ++ [cluster]).length by omega]
      exact getElem?_concat_length
    obtain ⟨d', hres, hext, hfree, htouch'⟩ :=
      ih hstep.table hstep.chain hget₁ hF₁ hslot₁ (by omega) (by omega)
    have hlen : j + 1 - (xs ++ [cluster]).length = j + 1 - (xs ++ [cluster] ++ [k]).length + 1 := by
      simp only [length_append, length_singleton] at *
      omega
    refine ⟨d', hres, ?_, ?_, htouch.trans htouch'⟩
    · rw [hF', hlen, take_succ_cons]
      exact hstep.trans hext
    · rw [hF', hlen, drop_succ_cons, hfree]

end Search

section Store

variable {fs : Fat32} {N dir j c s : ℕ} {d d₁ d₂ : FatDisk} {cs : List ℕ} (hg : FatGeometry fs N)

theorem slot_byte_lt {o : ℕ} (he : e < cs.length * fs.dirSlots) (ho : o < dirEntryBytes) :
    e * dirEntryBytes + o < cs.length * fs.clusterSize := by
  have hle := Nat.mul_le_mul_right dirEntryBytes (Nat.succ_le_of_lt he)
  rw [Nat.mul_assoc, dirSlots_mul, Nat.succ_mul] at hle
  omega

theorem entFirst_entName (m : Mem) (i : ℕ) : (entName m i).getD 0 0 = entFirst m i := rfl

theorem slot_index_lt (hj : cs[j]? = some c) (hs : s < fs.dirSlots) :
    j * fs.dirSlots + s < cs.length * fs.dirSlots := by
  have hle := Nat.mul_le_mul_right fs.dirSlots (List.getElem?_eq_some_iff.mp hj).1
  rw [Nat.succ_mul] at hle
  omega

theorem freeSlot_eq_none (h : fs.freeSlot d c = none) (hi : i < fs.dirSlots) :
    SlotLive (fs.clusterBytes d c) i := by
  rw [Fat32.freeSlot, find?_range_eq_none] at h
  have := h i hi
  rw [SlotLive, ← not_or]
  simpa using this

theorem freeSlot_eq_some (h : fs.freeSlot d c = some s) : s < fs.dirSlots ∧
    ¬SlotLive (fs.clusterBytes d c) s ∧ ∀ i < s, SlotLive (fs.clusterBytes d c) i := by
  rw [Fat32.freeSlot, find?_range_eq_some] at h
  obtain ⟨hfree, hs, hbefore⟩ := h
  refine ⟨mem_range.mp hs, ?_, fun i hi => ?_⟩
  · rw [SlotLive, ← not_or, not_not]
    simpa using hfree
  · have := hbefore i hi
    rw [SlotLive, ← not_or]
    simpa using this

variable (hcs : fs.Chain N d dir cs)
include hg hcs

theorem fileByte_storeEntry (hj : cs[j]? = some c) (hs : s < fs.dirSlots) (entry : List UInt8)
    (d₁ : FatDisk) {p : ℕ} (hp : p < cs.length * fs.clusterSize) :
    fs.fileByte (Fat32.storeEntry (fs.entryLba c s, Fat32.entryOffset s) entry d₁) cs p =
      if (j * fs.dirSlots + s) * dirEntryBytes ≤ p ∧ p < (j * fs.dirSlots + s) * dirEntryBytes + 32
      then Mem.ofBytes entry (p - (j * fs.dirSlots + s) * dirEntryBytes)
      else fs.fileByte d₁ cs p := by
  have hlt : ∀ {q}, q < cs.length * fs.clusterSize → q / fs.clusterSize < cs.length :=
    fun hq => Nat.div_lt_of_lt_mul (by rwa [Nat.mul_comm])
  obtain ⟨hlba, hoff⟩ := sectorOf_slot hg hcs hj hs
  have hslot := slot_lt (slot_index_lt hj hs)
  have hw : (j * fs.dirSlots + s) * 32 % 512 + 32 ≤ 512 := by omega
  refine hg.fileByte_stored hcs.nodup (fun x hx => (hcs.used x hx).1) (hlt hslot) hw (fun l _ hl => ?_)
    (fun x hx => ?_) (hlt hp)
  · rw [hlba] at hl
    exact touches_storeEntry.sector l hl
  · rw [hlba, hoff, Fat32.storeEntry, FatDisk.sector_write_one, if_pos rfl, Mem.slice_apply hx,
      Nat.zero_add, Mem.copy, Mem.copy, FatDisk.read_one hx]

theorem fills_storeEntry (hslot : SlotAt fs d cs j c s) {n : ℕ} (hn : n ≤ cs.length)
    (hgrown : n < cs.length → n ≤ j) (htouch : Touches fs.InFat d d₁) {stored : List UInt8}
    (hlen : stored.length = 11) (hk : k < 2 ^ 32) (hfirst : stored.getD 0 0 ≠ 0)
    (hattr : attr &&& attrVolume = 0 ∧ attr ≠ attrLfn) :
    Fills (fs.fileByte d cs) (fs.fileByte (Fat32.storeEntry (fs.entryLba c s, Fat32.entryOffset s)
        (newEntry stored attr k) d₁) cs) (n * fs.dirSlots) (cs.length * fs.dirSlots)
        (j * fs.dirSlots + s) ∧
      SameSlot (Mem.ofBytes (newEntry stored attr k)) 0 (fs.fileByte (Fat32.storeEntry
        (fs.entryLba c s, Fat32.entryOffset s) (newEntry stored attr k) d₁) cs)
        (j * fs.dirSlots + s) := by
  obtain ⟨hs, hfree, hlive⟩ := freeSlot_eq_some hslot.slot
  have hS := dirSlots_pos hg
  have hlt := slot_index_lt hslot.cluster hs
  have hstored := fun p => fileByte_storeEntry hg hcs hslot.cluster hs (newEntry stored attr k) d₁
    (p := p)
  generalize fs.fileByte (Fat32.storeEntry (fs.entryLba c s, Fat32.entryOffset s)
    (newEntry stored attr k) d₁) cs = m' at hstored ⊢
  have hentry : SameSlot (Mem.ofBytes (newEntry stored attr k)) 0 m' (j * fs.dirSlots + s) := by
    intro o ho
    rw [hstored _ (slot_byte_lt hlt ho), if_pos ⟨by omega, Nat.add_lt_add_left ho _⟩,
      Nat.add_sub_cancel_left, Nat.zero_mul, Nat.zero_add]
  obtain ⟨hname, hattrs, -⟩ := newEntry_fields attr hlen hk
  refine ⟨⟨hlt, Nat.mul_le_mul_right _ hn, fun hgrow => ?_, fun h hh => ?_, ?_, ?_, ?_, fun h hh hne o ho =>
    ?_⟩, hentry⟩
  · have := Nat.mul_le_mul_right fs.dirSlots (hgrown (lt_of_mul_lt_mul_right' hgrow))
    omega
  · -- The clusters before are full, and so are the slots before in the same one.
    have hdiv : h / fs.dirSlots ≤ j := by
      refine Nat.le_of_lt_succ (Nat.div_lt_of_lt_mul ?_)
      rw [Nat.mul_comm, Nat.succ_mul]
      omega
    have hdlt := lt_of_le_of_lt hdiv (List.getElem?_eq_some_iff.mp hslot.cluster).1
    have hget := getElem?_eq_getElem hdlt
    have hmod := Nat.mod_lt h hS
    have hsame := sameSlot_cluster hg hcs hget hmod
    rw [Nat.mul_comm, Nat.div_add_mod] at hsame
    rw [SlotLive, ← hsame.first]
    rcases hdiv.eq_or_lt with heq | hlt'
    · have hc : cs[h / fs.dirSlots] = c := Option.some.inj (hget.symm.trans (heq ▸ hslot.cluster))
      have hdm := Nat.div_add_mod h fs.dirSlots
      rw [heq, Nat.mul_comm] at hdm
      rw [hc]
      exact hlive _ (by omega)
    · exact freeSlot_eq_none (hslot.before _ hlt' _ hget) hmod
  · rwa [SlotLive, ← (sameSlot_cluster hg hcs hslot.cluster hs).first]
  · rwa [← hentry.first, ← entFirst_entName, hname]
  · rwa [← hentry.attr, hattrs]
  · have hp : h * dirEntryBytes + o < cs.length * fs.clusterSize := slot_byte_lt hh ho
    rw [hstored _ hp, if_neg, fileByte_of_touches hg htouch hp]
    change ¬((j * fs.dirSlots + s) * 32 ≤ h * 32 + o ∧ h * 32 + o < (j * fs.dirSlots + s) * 32 + 32)
    change o < 32 at ho
    omega

end Store

/-! ## The calls -/

/-- The entry that `readdir` makes of a stored name. -/
def newDirent (stored : List UInt8) (attr : UInt8) (k : ℕ) : FatDirent :=
  ⟨(dirChars stored attr).takeWhile (· ≠ 0), k⟩

/-- The directory at `dir` has the entries `L`, with their slots, and `readdir` returns them. -/
structure Listed (fs : Fat32) (N dir : ℕ) (d : FatDisk) (L : List (ℕ × FatDirent)) : Prop where
  slots : ∃ cs, TableChain N endMark (fs.getNextCluster d) dir cs ∧
    L = listing (fs.fileByte d cs) (cs.length * fs.dirSlots)
  reads : ∀ fuel, N < fuel → ∀ index < 2 ^ 32,
    fs.readdir fuel dir index d = some (L[index]?.map Prod.snd)

/-- The entries are the previous ones with `e`, in slot `g`, inserted. -/
def Inserts (fs : Fat32) (N dir : ℕ) (d d' : FatDisk) (g : ℕ) (e : FatDirent) : Prop :=
  ∃ l₁ l₂, Listed fs N dir d (l₁ ++ l₂) ∧ Listed fs N dir d' (l₁ ++ (g, e) :: l₂)

/-- The name is not one of a deleted entry, no other long name is left before the slot, and no slot that
was beyond the end of the directory has an entry. -/
structure GrowthOk (m : Mem) (name stored : List UInt8) (attr : UInt8) (n n' g : ℕ) : Prop where
  head : name.head? ≠ some deletedMark
  alone : dirLfnBefore m g 0 ≠ 0 →
    (lfnString (dirLfnBefore m g)).take 127 = (dirChars stored attr).takeWhile (· ≠ 0)
  grown : ∀ h, n ≤ h → h < g → ¬IsShort m h
  rest : n ≤ g ∨ entFirst m g = 0 → ∀ h, g < h → h < n' →
    (∀ x, g < x → x < h → entFirst m x ≠ 0) → ¬IsShort m h

section Calls

variable {fs : Fat32} {N dir j c s k fuel : ℕ} {d d₁ d' : FatDisk} {cs ks F : List ℕ} {name : List UInt8}
  (hg : FatGeometry fs N)

include hg

theorem listed_iff (hcs : fs.Chain N d dir cs) (hdir : dir ≠ 0)
    {L : List (ℕ × FatDirent)} :
    Listed fs N dir d L ↔ L = listing (fs.fileByte d cs) (cs.length * fs.dirSlots) := by
  constructor
  · rintro ⟨⟨cs', hcs', hL⟩, -⟩
    rw [hL, hcs'.unique hcs]
  rintro rfl
  refine ⟨⟨cs, hcs, rfl⟩, fun fuel hfuel index hindex => ?_⟩
  rw [readdir_eq hg hcs hdir (lt_of_le_of_lt hcs.length_le hfuel) hindex, listing, getElem?_map,
    Option.map_map]
  rfl

variable {rest : List UInt8}

theorem inserts_iff (hcs : fs.Chain N d dir cs)
    (hcs' : fs.Chain N d' dir (cs ++ ks)) (hdir : dir ≠ 0) (h0 : 0 ∉ name)
    {g : ℕ} (hrest : rest.length = 3) (hk : k < 2 ^ 32)
    (hfills : Fills (fs.fileByte d (cs ++ ks)) (fs.fileByte d' (cs ++ ks)) (cs.length * fs.dirSlots)
      ((cs ++ ks).length * fs.dirSlots) g)
    (hentry : SameSlot (Mem.ofBytes (newEntry (field 8 (base name) ++ rest) attr k)) 0
      (fs.fileByte d' (cs ++ ks)) g) :
    Inserts fs N dir d d' g (newDirent (field 8 (base name) ++ rest) attr k) ↔
      GrowthOk (fs.fileByte d (cs ++ ks)) name (field 8 (base name) ++ rest) attr
        (cs.length * fs.dirSlots) ((cs ++ ks).length * fs.dirSlots) g := by
  have hsame : listing (fs.fileByte d cs) (cs.length * fs.dirSlots) =
      listing (fs.fileByte d (cs ++ ks)) (cs.length * fs.dirSlots) := by
    refine listing_congr fun e he o ho => (fileByte_append ?_).symm
    exact Nat.div_lt_of_lt_mul (by rw [Nat.mul_comm fs.clusterSize]; exact slot_byte_lt he ho)
  rw [Inserts]
  simp only [listed_iff hg hcs hdir, listed_iff hg hcs' hdir, hsame]
  simp only [eq_comm (b := listing _ _)]
  rw [listing_insert_iff hfills]
  have hlfn : dirLfnBefore (fs.fileByte d (cs ++ ks)) (0 + g) =
      dirLfnBefore (fs.fileByte d' (cs ++ ks)) (0 + g) :=
    dirLfnBefore_congr rfl fun e _ he => hfills.others e (by have := hfills.lt; omega) (by omega)
  rw [Nat.zero_add] at hlfn
  obtain ⟨hname, hattrs, hcluster⟩ := newEntry_fields attr (k := k)
    (show (field 8 (base name) ++ rest).length = 11 by simp [hrest]) hk
  have hfirst : entFirst (fs.fileByte d' (cs ++ ks)) g = deletedMark ↔ name.head? = some deletedMark := by
    rw [← hentry.first, ← entFirst_entName, hname]
    exact (head_field h0 rest).2
  have hdirent : listedDirent (fs.fileByte d' (cs ++ ks)) g =
      newDirent (field 8 (base name) ++ rest) attr k ↔
      (dirLfnBefore (fs.fileByte d (cs ++ ks)) g 0 ≠ 0 →
        (lfnString (dirLfnBefore (fs.fileByte d (cs ++ ks)) g)).take 127 =
          (dirChars (field 8 (base name) ++ rest) attr).takeWhile (· ≠ 0)) := by
    rw [listedDirent, newDirent, listedName, ← hlfn, direntName, ← hentry.name_eq, ← hentry.attr,
      ← hentry.cluster, hname, hattrs, hcluster]
    split_ifs with hz
    · simp [hz]
    · simp [hz]
  constructor
  · rintro ⟨hlive, hdir, hgrown, hrest⟩
    exact ⟨fun h => hlive (hfirst.mpr h), hdirent.mp hdir, hgrown, hrest⟩
  · rintro ⟨hlive, hdir, hgrown, hrest⟩
    exact ⟨fun h => hlive (hfirst.mp h), hdirent.mpr hdir, hgrown, hrest⟩

omit hg in
theorem SlotAt.take (h : SlotAt fs d (cs ++ F) j c s) :
    SlotAt fs d (cs ++ F.take (j + 1 - cs.length)) j c s := by
  have hget : ∀ i < j + 1, (cs ++ F.take (j + 1 - cs.length))[i]? = (cs ++ F)[i]? := by
    intro i hi
    rw [← take_length_add_append, getElem?_take_of_lt (by omega)]
  refine ⟨(hget j (by omega)).trans h.cluster, h.slot, fun i hi x hx => h.before i hi x ?_⟩
  rwa [hget i (by omega)] at hx

theorem stored_iff (hcs : fs.Chain N d dir cs) (hdir : dir ≠ 0)
    (h0 : 0 ∉ name) (hrest : rest.length = 3) (hk : k < 2 ^ 32)
    (hattr : attr &&& attrVolume = 0 ∧ attr ≠ attrLfn) (hslot : SlotAt fs d (cs ++ F) j c s)
    (hks : ks = F.take (j + 1 - cs.length))
    (hcs₁ : fs.Chain N d₁ dir (cs ++ ks))
    (hsame : ∀ x ∈ cs ++ ks, ∀ l, fs.InCluster x l → d₁.sector l = d.sector l)
    {d₂ : FatDisk} (htouch : Touches fs.InFat d₁ d₂)
    (hnext : ∀ x ∈ cs ++ ks, fs.getNextCluster d₂ x = fs.getNextCluster d₁ x) :
    Inserts fs N dir d (Fat32.storeEntry (fs.entryLba c s, Fat32.entryOffset s)
        (newEntry (field 8 (base name) ++ rest) attr k) d₂) (j * fs.dirSlots + s)
        (newDirent (field 8 (base name) ++ rest) attr k) ↔
      GrowthOk (fs.fileByte d (cs ++ ks)) name (field 8 (base name) ++ rest) attr
        (cs.length * fs.dirSlots) ((cs ++ ks).length * fs.dirSlots) (j * fs.dirSlots + s) := by
  have hclusters := hg.clusters
  have hslot₁ : SlotAt fs d₁ (cs ++ ks) j c s := by
    rw [hks] at hcs₁ hsame ⊢
    refine hslot.take.congr fun x hx => ?_
    have hused := hcs₁.used x hx
    exact freeSlot_congr hg hused.1 hused.2.1 (hsame x hx)
  have hgrown : cs.length < (cs ++ ks).length → cs.length ≤ j := by
    intro hlt
    by_contra hj
    rw [hks, show j + 1 - cs.length = 0 by omega, take_zero, append_nil] at hlt
    omega
  obtain ⟨hfills, hentry⟩ := fills_storeEntry hg hcs₁ hslot₁ (by simp) hgrown htouch
    (show (field 8 (base name) ++ rest).length = 11 by simp [hrest]) hk (head_field h0 rest).1 hattr
  refine inserts_iff hg hcs ?_ hdir h0 hrest hk (hfills.congr fun e he o ho => ?_) hentry
  · refine hcs₁.congr fun x hx => ?_
    have hused := hcs₁.used c (mem_of_getElem? hslot₁.cluster)
    rw [getNextCluster_of_touches hg touches_storeEntry _
      (lt_of_lt_of_le (hcs₁.used x hx).2.1 hclusters), hnext x hx]
    rintro l rfl
    exact hg.not_inFat (entryLba_mem hg hused.1 hused.2.1 (freeSlot_eq_some hslot₁.slot).1)
  · have hlt : (e * dirEntryBytes + o) / fs.clusterSize < (cs ++ ks).length :=
      Nat.div_lt_of_lt_mul (by rw [Nat.mul_comm fs.clusterSize]; exact slot_byte_lt he ho)
    have hget := getElem?_eq_getElem hlt
    rw [Fat32.fileByte, Fat32.fileByte, hsame _ (getElem_mem hlt) _ (hg.sectorOf_mem hget)]

theorem create_listed_iff (ht : fs.Linked N d)
    (hcs : fs.Chain N d dir cs) (hdir : dir ≠ 0) (h0 : 0 ∉ name)
    (hF : freeList N (fs.getNextCluster d) = F) (hslot : SlotAt fs d (cs ++ F) j c s)
    (hfirst : F[j + 1 - cs.length]? = some k) (hfuel : j < fuel)
    (hks : ks = F.take (j + 1 - cs.length)) :
    (∃ f d', fs.create fuel dir name d = (some (some f), d') ∧ Inserts fs N dir d d'
        (j * fs.dirSlots + s) (newDirent (created name) 0x20 f.firstCluster)) ↔
      GrowthOk (fs.fileByte d (cs ++ ks)) name (created name) 0x20 (cs.length * fs.dirSlots)
        ((cs ++ ks).length * fs.dirSlots) (j * fs.dirSlots + s) := by
  have hclusters := hg.clusters
  obtain ⟨d₁, hres, hext, hfree, htouch⟩ :=
    findFreeEntry_at hg ht hcs (chain_first hcs hdir) hF hslot (Nat.zero_le j) hfuel
  rw [← hks] at hext
  obtain ⟨hlt, hget⟩ := List.getElem?_eq_some_iff.mp hfirst
  rw [drop_eq_getElem_cons hlt, hget] at hfree
  obtain ⟨hk2, hkN, hk0, halloc⟩ := allocateCluster_head hg hext.table hfree
  have hcreate : fs.create fuel dir name d =
      (some (some ⟨k, 0, fs.entryLba c s, Fat32.entryOffset s⟩), Fat32.storeEntry
        (fs.entryLba c s, Fat32.entryOffset s) (newEntry (created name) 0x20 k)
        ((fs.setEntry d₁ k takenMark).took k)) := by
    rw [Fat32.create, hres]
    simp only [halloc, if_neg (show k ≠ 0 by omega)]
  have hk32 : k < 2 ^ 32 := by have := hg.entries; omega
  have htaken : Touches fs.InFat d₁ ((fs.setEntry d₁ k takenMark).took k) :=
    (hg.touches_setEntry (by omega)).took k
  rw [hcreate]
  refine Iff.trans ?_ (stored_iff hg hcs hdir h0 (by simp) hk32 (by decide) hslot hks hext.chain
    (fun x hx l hl => htouch.sector l (hg.not_inFat hl)) htaken fun x hx => ?_)
  · constructor
    · rintro ⟨f, d', hf, hins⟩
      obtain ⟨hfile, rfl⟩ := Prod.mk.inj hf
      obtain rfl := Option.some.inj (Option.some.inj hfile)
      exact hins
    · exact fun hins => ⟨_, _, rfl, hins⟩
  · obtain ⟨-, hxN, hx0⟩ := hext.chain.used x hx
    rw [Fat32.getNextCluster_took, hg.getNextCluster_setEntry (by omega) (by omega), if_neg]
    rintro rfl
    exact hx0 hk0

theorem mkdir_listed_iff (ht : fs.Linked N d)
    (hcs : fs.Chain N d dir cs) (hdir : dir ≠ 0) (h0 : 0 ∉ name)
    (hF : freeList N (fs.getNextCluster d) = k :: F) (hslot : SlotAt fs d (cs ++ F) j c s)
    (hfuel : j < fuel) (hks : ks = F.take (j + 1 - cs.length)) :
    (∃ d', fs.mkdir fuel dir name d = (some true, d') ∧ Inserts fs N dir d d' (j * fs.dirSlots + s)
        (newDirent (madeDir name) attrDirectory k)) ↔
      GrowthOk (fs.fileByte d (cs ++ ks)) name (madeDir name) attrDirectory (cs.length * fs.dirSlots)
        ((cs ++ ks).length * fs.dirSlots) (j * fs.dirSlots + s) := by
  have hclusters := hg.clusters
  have hmark : endMark ≤ takenMark := by decide
  obtain ⟨hk2, hkN, hk0, halloc⟩ := allocateCluster_head hg ht hF
  have hd₁ := getNextCluster_filled (d := d) hg hk2 hkN (Mem.ofBytes (fs.dotEntries dir k))
  have hsector : ∀ x, 2 ≤ x → x ≠ k → ∀ l, fs.InCluster x l → (((fs.setEntry d k takenMark).took k).write
      (fs.clusterToLba k) fs.sectorsPerCluster (Mem.ofBytes (fs.dotEntries dir k))).sector l =
        d.sector l := by
    intro x hx2 hxk l hl
    rw [FatDisk.sector_write, hg.clusterToLba_eq hkN hk2, if_neg]
    · exact (hg.touches_setEntry (by omega)).sector l (hg.not_inFat hl)
    · exact fun hin => hxk (inCluster_unique hl hin hx2 hk2)
  have hmkdir : ∀ place d₂, fs.findFreeEntry fuel dir (((fs.setEntry d k takenMark).took k).write
      (fs.clusterToLba k) fs.sectorsPerCluster (Mem.ofBytes (fs.dotEntries dir k))) =
        (some (some place), d₂) → fs.mkdir fuel dir name d =
          (some true, Fat32.storeEntry place (newEntry (madeDir name) attrDirectory k) d₂) := by
    intro place d₂ hres
    rw [Fat32.mkdir, halloc]
    simp only [if_neg (show k ≠ 0 by omega), hres]
  generalize ((fs.setEntry d k takenMark).took k).write (fs.clusterToLba k) fs.sectorsPerCluster
    (Mem.ofBytes (fs.dotEntries dir k)) = d₁ at hd₁ hsector hmkdir
  have hkept : TableKept N endMark (fs.getNextCluster d) (fs.getNextCluster d₁) [] :=
    (TableKept.alloc ht hg.marks hk2 hkN hk0 hmark).congr hg.reserved hd₁
  have hcs₁ := hkept.others dir cs hcs not_mem_nil
  have hF₁ : freeList N (fs.getNextCluster d₁) = F := by
    refine freeList_taken hF fun x hx => ?_
    rw [hd₁ x hx, Function.update_apply]
    split_ifs with hxk
    · exact iff_of_false (by decide) fun h => h.2 hxk
    · exact (and_iff_left hxk).symm
  have hvisited : ∀ x ∈ cs ++ F, 2 ≤ x ∧ x < N ∧ x ≠ k := by
    intro x hx
    obtain ⟨hx2, hxN⟩ := visited_cluster hkept.table hcs₁ hF₁ hx
    refine ⟨hx2, hxN, ?_⟩
    rintro rfl
    rcases mem_append.mp hx with hx | hx
    · exact (hcs.used x hx).2.2 hk0
    · have hnodup : (freeList N (fs.getNextCluster d)).Nodup := nodup_freeList
      rw [hF, nodup_cons] at hnodup
      exact hnodup.1 hx
  have hslot₁ : SlotAt fs d₁ (cs ++ F) j c s := hslot.congr fun x hx => by
    obtain ⟨hx2, hxN, hxk⟩ := hvisited x hx
    exact freeSlot_congr hg hx2 hxN (hsector x hx2 hxk)
  obtain ⟨d₂, hres, hext, -, htouch⟩ :=
    findFreeEntry_at hg hkept.table hcs₁ (chain_first hcs₁ hdir) hF₁ hslot₁ (Nat.zero_le j) hfuel
  rw [← hks] at hext
  have hk32 : k < 2 ^ 32 := by have := hg.entries; omega
  rw [hmkdir _ _ hres]
  refine Iff.trans ?_ (stored_iff hg hcs hdir h0 (by simp) hk32 (by decide) hslot hks hext.chain
    (fun x hx l hl => ?_) (.refl d₂) fun x hx => rfl)
  · constructor
    · rintro ⟨d', hf, hins⟩
      obtain ⟨-, rfl⟩ := Prod.mk.inj hf
      exact hins
    · exact fun hins => ⟨_, rfl, hins⟩
  · have hmem : x ∈ cs ++ F := by
      rw [hks] at hx
      exact (mem_append.mp hx).elim (mem_append_left _)
        fun h => mem_append_right _ (mem_of_mem_take h)
    obtain ⟨hx2, -, hxk⟩ := hvisited x hmem
    rw [htouch.sector l (hg.not_inFat hl), hsector x hx2 hxk l hl]

/-- **When a new entry is the only change of the listing.** -/
theorem fat_growth_iff (ht : LinkTable N endMark (fs.getNextCluster d))
    (hcs : TableChain N endMark (fs.getNextCluster d) dir cs) (hdir : dir ≠ 0) (h0 : 0 ∉ name)
    (hslot : SlotAt fs d (cs ++ F) j c s) (hfuel : j < fuel) (hks : ks = F.take (j + 1 - cs.length)) :
    (freeList N (fs.getNextCluster d) = F → F[j + 1 - cs.length]? = some k →
      ((∃ f d', fs.create fuel dir name d = (some (some f), d') ∧ Inserts fs N dir d d'
          (j * fs.dirSlots + s) (newDirent (created name) 0x20 f.firstCluster)) ↔
        GrowthOk (fs.fileByte d (cs ++ ks)) name (created name) 0x20 (cs.length * fs.dirSlots)
          ((cs ++ ks).length * fs.dirSlots) (j * fs.dirSlots + s))) ∧
    (freeList N (fs.getNextCluster d) = k :: F →
      ((∃ d', fs.mkdir fuel dir name d = (some true, d') ∧ Inserts fs N dir d d' (j * fs.dirSlots + s)
          (newDirent (madeDir name) attrDirectory k)) ↔
        GrowthOk (fs.fileByte d (cs ++ ks)) name (madeDir name) attrDirectory (cs.length * fs.dirSlots)
          ((cs ++ ks).length * fs.dirSlots) (j * fs.dirSlots + s))) :=
  ⟨fun hF hk => create_listed_iff hg ht hcs hdir h0 hF hslot hk hfuel hks,
    fun hF => mkdir_listed_iff hg ht hcs hdir h0 hF hslot hfuel hks⟩

end Calls

theorem fat_growth_empty : ∃ f d', smallFat.create 1 3 [0x41] smallDisk = (some (some f), d') ∧
    Inserts smallFat 256 3 smallDisk d' 0 (newDirent (created [0x41]) 0x20 f.firstCluster) := by
  have hcs : TableChain 256 endMark (smallFat.getNextCluster smallDisk) 3 [3] :=
    .singleton (by decide) (by decide) (by decide +kernel) (by decide)
  have hzero : ∀ h < 16, entFirst (smallFat.fileByte smallDisk [3]) h = 0 := by decide +kernel
  have hslot : SlotAt smallFat smallDisk ([3] ++ freeList 256 (smallFat.getNextCluster smallDisk))
      0 3 0 := ⟨rfl, by decide +kernel, fun i hi => absurd hi (Nat.not_lt_zero i)⟩
  have h0 : (0 : UInt8) ∉ [0x41] := by decide
  have hk : (freeList 256 (smallFat.getNextCluster smallDisk))[0 + 1 - [3].length]? = some 4 := by
    decide +kernel
  refine ((fat_growth_iff smallFat_geometry smallDisk_links hcs (by decide) h0 hslot Nat.one_pos
    rfl).1 rfl hk).mpr ⟨by decide, fun h => absurd rfl h,
      fun h _ hlt => absurd hlt (Nat.not_lt_zero h), fun _ h _ hlt _ hshort => ?_⟩
  exact hshort.1.1 (hzero h hlt)

/-- A directory of 16 entries in cluster 3, and an old entry in the free cluster 4. -/
def leftoverDisk : FatDisk :=
  ⟨fun l x => if l = 0 ∧ x < 16 then 0xFF else if l = 5 then plainEntry.getD (x % 32) 0
    else if l = 6 ∧ 32 ≤ x then plainEntry.getD (x - 32) 0 else 0, [], []⟩

/-- The old entry is listed with the new one. -/
theorem create_lists_leftovers : TableChain 256 endMark (smallFat.getNextCluster leftoverDisk) 3 [3] ∧
      (smallFat.create 3 3 [0x42] leftoverDisk).1.isSome ∧
      ∀ g e, ¬ Inserts smallFat 256 3 leftoverDisk (smallFat.create 3 3 [0x42] leftoverDisk).2 g e := by
  refine ⟨.singleton (by decide) (by decide) (by decide +kernel) (by decide), by decide +kernel, ?_⟩
  rintro g e ⟨l₁, l₂, hold, hnew⟩
  have h16 : smallFat.readdir 300 3 16 leftoverDisk = some none := by decide +kernel
  have h17 : smallFat.readdir 300 3 17 (smallFat.create 3 3 [0x42] leftoverDisk).2 ≠ some none := by
    decide +kernel
  rw [hold.reads 300 (by decide) 16 (by decide)] at h16
  rw [hnew.reads 300 (by decide) 17 (by decide)] at h17
  simp at h16 h17
  omega

end KeonOS
