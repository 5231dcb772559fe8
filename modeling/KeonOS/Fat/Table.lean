import KeonOS.Fat.Model
import KeonOS.Lib.Fuel
import KeonOS.Lib.LinkTable
import Mathlib.Data.List.Find

/-!
# The file allocation table on the disk

The entries of the first table, read with `get_next_cluster`, as a table of links.

* **`allocateCluster_spec`**: `allocate_cluster` takes the first free entry;
* **`extend_chain`**: a cluster that is allocated and linked behind the last one of a chain;
* **`freeClusterChain_spec`**: `free_cluster_chain` of a chain clears its entries;
* **`free_cluster_chain_exact`**: what it clears in any table, with cycles and links out of the table.
-/

namespace KeonOS

open List Relation

/-! ## Sizes -/

/-- The volume has the clusters `2 ≤ k < N`. The table may have more entries than that. -/
structure FatGeometry (fs : Fat32) (N : ℕ) : Prop where
  sectors : 0 < fs.sectorsPerCluster
  tables : 0 < fs.tableCount
  reserved : 2 ≤ N
  clusters : N ≤ fs.entries
  marks : N ≤ endMark
  entries : fs.entries ≤ 2 ^ 28
  fits : fs.dataLba + (N - 2) * fs.sectorsPerCluster ≤ 2 ^ 32

namespace Fat32

variable (fs : Fat32)

def InFat (l : ℕ) : Prop := fs.fatLba ≤ l ∧ l < fs.fatLba + fs.tableSize32

def InCluster (k l : ℕ) : Prop := fs.dataLba + (k - 2) * fs.sectorsPerCluster ≤ l ∧
    l < fs.dataLba + (k - 2) * fs.sectorsPerCluster + fs.sectorsPerCluster

theorem fatOffset_eq (k : ℕ) : fatOffset k = k % 128 * 4 := by
  unfold fatOffset
  omega

instance (k l : ℕ) : Decidable (fs.InCluster k l) := by unfold InCluster; infer_instance

abbrev Chain (N : ℕ) (d : FatDisk) (c : ℕ) (cs : List ℕ) : Prop :=
  TableChain N endMark (fs.getNextCluster d) c cs

abbrev Linked (N : ℕ) (d : FatDisk) : Prop := LinkTable N endMark (fs.getNextCluster d)

end Fat32

/-! ## Sectors -/

@[simp]
theorem Fat32.allocated_setEntry (fs : Fat32) (d : FatDisk) (k v : ℕ) :
    (fs.setEntry d k v).allocated = d.allocated := FatDisk.allocated_write

@[simp]
theorem Fat32.allocated_setNextCluster (fs : Fat32) (d : FatDisk) (k v : ℕ) :
    (fs.setNextCluster d k v).allocated = d.allocated := FatDisk.allocated_write

section

variable (fs : Fat32) {d : FatDisk} {j k l v : ℕ}

theorem Fat32.getNextCluster_sector (d : FatDisk) (k : ℕ) :
    fs.getNextCluster d k = (d.sector (fs.fatSector k)).readLE (k % 128 * 4) 4 % 2 ^ 28 := by
  rw [getNextCluster, fatOffset_eq]
  congr 1
  exact Mem.readLE_congr fun i hi => FatDisk.read_one (by omega)

theorem Fat32.sector_setEntry : (fs.setEntry d k v).sector l = if l = fs.fatSector k then
      ((d.read l 1).writeLE (k % 128 * 4) 4 v).slice 0 512 else d.sector l := by
  rw [setEntry, FatDisk.sector_write_one, fatOffset_eq]
  split_ifs with h
  · rw [h]
  · rfl

theorem Fat32.getNextCluster_setEntry (hk : k < 2 ^ 28) (hj : j < 2 ^ 28) :
    fs.getNextCluster (fs.setEntry d k v) j =
      if j = k then v % 2 ^ 28 else fs.getNextCluster d j := by
  rw [getNextCluster_sector, sector_setEntry]
  by_cases hsec : fs.fatSector j = fs.fatSector k
  · have hdiv : j / 128 = k / 128 := by
      unfold fatSector at hsec
      omega
    rw [if_pos hsec, Mem.readLE_slice (by omega), Nat.zero_add]
    by_cases hjk : j = k
    · rw [if_pos hjk, hjk, Mem.readLE_writeLE]
      omega
    · rw [if_neg hjk, Mem.readLE_writeLE_of_disjoint (by omega), getNextCluster_sector]
      congr 1
      exact Mem.readLE_congr fun i hi => FatDisk.read_one (by omega)
  · have hjk : j ≠ k := by
      rintro rfl
      exact hsec rfl
    rw [if_neg hsec, if_neg hjk, getNextCluster_sector]

end

structure Touches (S : ℕ → Prop) (d d' : FatDisk) : Prop where
  sector : ∀ l, ¬ S l → d'.sector l = d.sector l
  written : ∀ l ∈ d'.written, l ∈ d.written ∨ S l

namespace Touches

variable {S S' : ℕ → Prop} {d d' d'' : FatDisk}

theorem refl (d : FatDisk) : Touches S d d := ⟨fun _ _ => rfl, fun _ h => .inl h⟩

theorem mono (h : Touches S d d') (hS : ∀ l, S l → S' l) : Touches S' d d' :=
  ⟨fun l hl => h.sector l fun hs => hl (hS l hs), fun l hl => (h.written l hl).imp_right (hS l)⟩

theorem trans (h : Touches S d d') (h' : Touches S d' d'') : Touches S d d'' :=
  ⟨fun l hl => (h'.sector l hl).trans (h.sector l hl),
    fun l hl => (h'.written l hl).elim (h.written l) .inr⟩

theorem took (h : Touches S d d') (k : ℕ) : Touches S d (d'.took k) := ⟨h.sector, h.written⟩

theorem write {lba count : ℕ} {buffer : Mem} (h : ∀ l, lba ≤ l → l < lba + count → S l) :
    Touches S d (d.write lba count buffer) := by
  refine ⟨fun l hl => ?_, fun l hl => (FatDisk.mem_written_write hl).imp_right fun hin =>
    h l hin.1 hin.2⟩
  rw [FatDisk.sector_write, if_neg fun hin => hl (h l hin.1 hin.2)]

end Touches

namespace FatGeometry

variable {fs : Fat32} {N k j l v : ℕ} {d d' : FatDisk} (hg : FatGeometry fs N)
include hg

theorem table_below : fs.fatLba + fs.tableSize32 ≤ fs.dataLba := by
  have := Nat.le_mul_of_pos_left fs.tableSize32 hg.tables
  unfold Fat32.dataLba
  omega

theorem fatSector_eq (hk : k < fs.entries) : fs.fatSector k = fs.fatLba + k / 128 := by
  have h1 := hg.table_below
  have h2 := hg.fits
  have h3 := hg.entries
  unfold Fat32.entries at hk h3
  unfold Fat32.fatSector
  omega

omit hg in
theorem inFat_sector (hk : k < fs.entries) : fs.InFat (fs.fatLba + k / 128) := by
  unfold Fat32.entries at hk
  exact ⟨by omega, by omega⟩

theorem getNextCluster_eq (hk : k < fs.entries) :
    fs.getNextCluster d k = (d.sector (fs.fatLba + k / 128)).readLE (k % 128 * 4) 4 % 2 ^ 28 := by
  rw [fs.getNextCluster_sector, hg.fatSector_eq hk]

theorem getNextCluster_congr (h : ∀ l, fs.InFat l → d'.sector l = d.sector l)
    (hk : k < fs.entries) : fs.getNextCluster d' k = fs.getNextCluster d k := by
  rw [hg.getNextCluster_eq hk, hg.getNextCluster_eq hk, h _ (inFat_sector hk)]

theorem getNextCluster_setEntry (hk : k < fs.entries) (hj : j < fs.entries) :
    fs.getNextCluster (fs.setEntry d k v) j =
      if j = k then v % 2 ^ 28 else fs.getNextCluster d j :=
  fs.getNextCluster_setEntry (hk.trans_le hg.entries) (hj.trans_le hg.entries)

theorem touches_setEntry (hk : k < fs.entries) : Touches fs.InFat d (fs.setEntry d k v) := by
  refine Touches.write fun l h1 h2 => ?_
  rw [hg.fatSector_eq hk] at h1 h2
  obtain rfl : l = fs.fatLba + k / 128 := by omega
  exact inFat_sector hk

theorem touches_setNextCluster (hk : k < fs.entries) :
    Touches fs.InFat d (fs.setNextCluster d k v) := hg.touches_setEntry hk

end FatGeometry

/-! ## Allocation -/

abbrev takenMark : ℕ := 0x0FFFFFFF

namespace FatGeometry

variable {fs : Fat32} {N c x : ℕ} {d : FatDisk} {xs cs : List ℕ} (hg : FatGeometry fs N)
include hg

theorem allocateCluster_eq : fs.allocateCluster d =
      match (List.range fs.entries).find? fun k => fs.getNextCluster d k = 0 with
      | none => (0, d.took 0)
      | some k => (k, (fs.setEntry d k takenMark).took k) := by
  have hsector : ∀ k < fs.entries, (fs.fatLba + k / 128) % 2 ^ 32 = fs.fatSector k := by
    intro k hk
    have h1 := hg.table_below
    have h2 := hg.fits
    have h3 := (inFat_sector hk).2
    rw [hg.fatSector_eq hk, Nat.mod_eq_of_lt (by omega)]
  have hfind : ((List.range fs.entries).find? fun k =>
      (d.read ((fs.fatLba + k / 128) % 2 ^ 32) 1).readLE (k % 128 * 4) 4 % 2 ^ 28 = 0) =
      (List.range fs.entries).find? fun k => fs.getNextCluster d k = 0 := by
    refine find?_congr fun k hk => ?_
    have hk := mem_range.mp hk
    rw [hsector k hk, Fat32.getNextCluster, Fat32.fatOffset_eq]
  rw [Fat32.allocateCluster, hfind]
  cases hres : (List.range fs.entries).find? fun k => fs.getNextCluster d k = 0 with
  | none => rfl
  | some k =>
    have hk : k < fs.entries := mem_range.mp (mem_of_find?_eq_some hres)
    have hmod : k % 2 ^ 32 = k := Nat.mod_eq_of_lt (by have := hg.entries; omega)
    simp only [hsector k hk, hmod]
    rw [Fat32.setEntry, Fat32.fatOffset_eq]

theorem allocateCluster_spec (hres : fs.getNextCluster d 0 ≠ 0 ∧ fs.getNextCluster d 1 ≠ 0) :
    (∃ k, 2 ≤ k ∧ k < fs.entries ∧ fs.getNextCluster d k = 0 ∧ (∀ j < k, fs.getNextCluster d j ≠ 0) ∧
      fs.allocateCluster d = (k, (fs.setEntry d k takenMark).took k)) ∨
    (∀ j < fs.entries, fs.getNextCluster d j ≠ 0) ∧ fs.allocateCluster d = (0, d.took 0) := by
  rw [hg.allocateCluster_eq]
  cases hfind : (List.range fs.entries).find? fun k => fs.getNextCluster d k = 0 with
  | none =>
    rw [find?_range_eq_none] at hfind
    exact .inr ⟨fun j hj => by simpa using hfind j hj, rfl⟩
  | some k =>
    rw [find?_range_eq_some] at hfind
    obtain ⟨hfree, hk, hbefore⟩ := hfind
    have hfree : fs.getNextCluster d k = 0 := by simpa using hfree
    refine .inl ⟨k, ?_, mem_range.mp hk, hfree, fun j hj => by simpa using hbefore j hj, rfl⟩
    by_contra hlt
    interval_cases k
    · exact hres.1 hfree
    · exact hres.2 hfree

theorem allocateCluster_taken (hres : fs.getNextCluster d 0 ≠ 0 ∧ fs.getNextCluster d 1 ≠ 0)
    (h : 0 < freeCount N (fs.getNextCluster d) ∨
      (fs.allocateCluster d).1 ≠ 0 ∧ (fs.allocateCluster d).1 < N) :
    ∃ k, 2 ≤ k ∧ k < N ∧ fs.getNextCluster d k = 0 ∧
      fs.allocateCluster d = (k, (fs.setEntry d k takenMark).took k) := by
  rcases hg.allocateCluster_spec hres with ⟨k, hk2, -, hfree, hmin, heq⟩ | ⟨hnone, heq⟩
  · refine ⟨k, hk2, ?_, hfree, heq⟩
    rcases h with h | h
    · obtain ⟨j, hj, hj0⟩ := exists_free h
      by_contra hle
      exact hmin j (by omega) hj0
    · rw [heq] at h
      exact h.2
  · rcases h with h | h
    · obtain ⟨j, hj, hj0⟩ := exists_free h
      exact absurd hj0 (hnone j (lt_of_lt_of_le hj hg.clusters))
    · rw [heq] at h
      exact absurd rfl h.1

theorem extend_chain (ht : fs.Linked N d)
    (hcs : fs.Chain N d c (xs ++ [x])) {k : ℕ} (hk2 : 2 ≤ k) (hk : k < N)
    (hfree : fs.getNextCluster d k = 0) :
    TableExtend N endMark (fs.getNextCluster d)
      (fs.getNextCluster (fs.setNextCluster ((fs.setEntry d k takenMark).took k) x k))
      c (xs ++ [x]) [k] := by
  have hclusters := hg.clusters
  have hmarks := hg.marks
  have hmark : endMark < 2 ^ 28 := by decide
  have hx : x < N := (hcs.used x (by simp)).2.1
  refine (TableExtend.snoc ht hmarks hcs hk2 hk hfree (show endMark ≤ takenMark by decide)).congr
    hg.reserved fun j hj => ?_
  rw [Fat32.setNextCluster, hg.getNextCluster_setEntry (by omega) (by omega)]
  rw [Fat32.getNextCluster_took, hg.getNextCluster_setEntry (by omega) (by omega)]
  by_cases hjx : j = x
  · rw [if_pos hjx, hjx, Function.update_self, Nat.mod_mod, Nat.mod_eq_of_lt (by omega)]
  rw [if_neg hjx, Function.update_of_ne hjx]
  by_cases hjk : j = k
  · rw [if_pos hjk, hjk, Function.update_self]
    rfl
  · rw [if_neg hjk, Function.update_of_ne hjk]

theorem touches_link {x k : ℕ} (hx : x < N) (hk : k < N) :
    Touches fs.InFat d (fs.setNextCluster ((fs.setEntry d k takenMark).took k) x k) :=
  ((hg.touches_setEntry (hk.trans_le hg.clusters)).took k).trans
    (hg.touches_setNextCluster (hx.trans_le hg.clusters))

theorem link_next {i : ℕ} (ht : fs.Linked N d) (hcs : fs.Chain N d c cs) (hi : cs[i]? = some x)
    (hlast : ¬i + 1 < cs.length) (h : 0 < freeCount N (fs.getNextCluster d) ∨
      (fs.allocateCluster d).1 ≠ 0 ∧ (fs.allocateCluster d).1 < N) :
    ∃ k d', (fs.allocateCluster d).1 = k ∧ fs.setNextCluster (fs.allocateCluster d).2 x k = d' ∧
      TableExtend N endMark (fs.getNextCluster d) (fs.getNextCluster d') c cs [k] ∧
      (cs ++ [k])[i + 1]? = some k ∧ Touches fs.InFat d d' ∧
      freeCount N (fs.getNextCluster d') + 1 = freeCount N (fs.getNextCluster d) := by
  have hlt := (List.getElem?_eq_some_iff.mp hi).1
  obtain ⟨-, xs, rfl⟩ := hcs.last_at hi (by omega)
  obtain ⟨k, hk2, hk, hk0, halloc⟩ := hg.allocateCluster_taken ht.reserved h
  have hstep := hg.extend_chain ht hcs hk2 hk hk0
  refine ⟨k, _, by rw [halloc], rfl, ?_, ?_, ?_⟩
  · rwa [halloc]
  · rw [show i + 1 = (xs ++ [x]).length by omega]
    exact getElem?_concat_length
  · rw [halloc]
    exact ⟨hg.touches_link (hcs.used_at hi).2.1 hk, hstep.free⟩

/-! ## Release -/

theorem freeLoop_spec : ∀ {cs : List ℕ} {v : ℕ} {d : FatDisk} {fuel : ℕ},
    fs.Chain N d (if endMark ≤ v then 0 else v) cs →
    cs.length < fuel →
      ∃ d', fs.freeLoop fuel v d = some d' ∧ Touches fs.InFat d d' ∧ d'.allocated = d.allocated ∧
        ∀ k < fs.entries, fs.getNextCluster d' k = if k ∈ cs then 0 else fs.getNextCluster d k
  | [], v, d, fuel + 1, hcs, _ => by
    have hstop : ¬ (v < endMark ∧ v ≠ 0) := by
      rintro ⟨hlt, hne⟩
      have hnull : (if endMark ≤ v then 0 else v) = 0 := hcs.chain
      rw [if_neg (not_le.mpr hlt)] at hnull
      exact hne hnull
    exact ⟨d, by rw [Fat32.freeLoop, if_neg hstop], .refl d, rfl, by simp⟩
  | x :: cs, v, d, fuel + 1, hcs, hfuel => by
    obtain ⟨hx2, hxN, -⟩ := hcs.used x (mem_cons_self ..)
    have hclusters := hg.clusters
    have hmarks := hg.marks
    have hv : v = x := by
      have hfirst : (if endMark ≤ v then 0 else v) = x := hcs.chain.1
      split_ifs at hfirst
      · omega
      · exact hfirst
    subst hv
    have hnodup : v ∉ cs := (nodup_cons.mp hcs.nodup).1
    have hentry : ∀ k < fs.entries, fs.getNextCluster (fs.setEntry d v 0) k =
        if k = v then 0 else fs.getNextCluster d k :=
      fun k hk => hg.getNextCluster_setEntry (by omega) hk
    have hrest : fs.Chain N (fs.setEntry d v 0)
        (linkOf endMark (fs.getNextCluster d) v) cs := by
      refine hcs.rest.congr fun k hk => ?_
      have hkN := (hcs.used k (mem_cons_of_mem _ hk)).2.1
      rw [hentry k (by omega), if_neg (ne_of_mem_of_not_mem hk hnodup)]
    obtain ⟨d', hloop, htouch, halloc, htable⟩ := freeLoop_spec hrest (Nat.lt_of_succ_lt_succ hfuel)
    rw [fs.allocated_setEntry] at halloc
    refine ⟨d', ?_, (hg.touches_setEntry (by omega)).trans htouch, halloc, fun k hk => ?_⟩
    · rwa [Fat32.freeLoop, if_pos ⟨by omega, by omega⟩]
    · rw [htable k hk, hentry k hk]
      by_cases hkv : k = v
      · simp [hkv]
      · simp [hkv]

theorem freeClusterChain_spec
    (hcs : fs.Chain N d c cs) {fuel : ℕ} (hfuel : cs.length < fuel) :
    ∃ d', fs.freeClusterChain fuel c d = some d' ∧ Touches fs.InFat d d' ∧ d'.allocated = d.allocated ∧
      ∀ k < fs.entries, fs.getNextCluster d' k = if k ∈ cs then 0 else fs.getNextCluster d k := by
  by_cases hc : c = 0
  · obtain rfl : cs = [] := hcs.chain.unique hc
    refine ⟨d, ?_, .refl d, rfl, by simp⟩
    rw [Fat32.freeClusterChain, if_pos (by omega)]
  obtain ⟨hc2, hcN, -⟩ := hcs.used c (hcs.head_mem hc)
  have hmarks := hg.marks
  rw [Fat32.freeClusterChain, if_neg (by omega)]
  refine hg.freeLoop_spec ?_ hfuel
  rwa [if_neg (by omega)]

end FatGeometry

/-! ## Release of any table -/

section Links

variable {t t' : ℕ → ℕ} {c k : ℕ}

/-- A link that the loop of `free_cluster_chain` follows. -/
def LinkLive (v : ℕ) : Prop := v < endMark ∧ v ≠ 0

instance : DecidablePred LinkLive := fun _ => inferInstanceAs (Decidable (_ ∧ _))

theorem LinkLive.lt {v : ℕ} (h : LinkLive v) : v < 2 ^ 28 := h.1.trans (by decide)

/-- The entries that the links lead to from `c`, up to a free entry or a mark. -/
def LinkReaches (t : ℕ → ℕ) (c k : ℕ) : Prop :=
  LinkLive c ∧ ReflTransGen (fun a b => t a = b ∧ LinkLive b) c k

theorem LinkReaches.live (h : LinkReaches t c k) : LinkLive k := by
  rcases h.2.cases_tail with rfl | ⟨_, -, -, hk⟩
  · exact h.1
  · exact hk

variable (hc : LinkLive c) (hclear : ∀ k < 2 ^ 28, t' k = if k = c then 0 else t k)
include hc hclear

theorem linkReaches_clear : LinkReaches t c k ↔ k = c ∨ LinkReaches t' (t c) k := by
  constructor
  · rintro ⟨-, h⟩
    induction h with
    | refl => exact .inl rfl
    | @tail a b hpath hab ih =>
      obtain ⟨rfl, hb⟩ := hab
      refine .inr ?_
      by_cases ha : a = c
      · rw [ha] at hb ⊢
        exact ⟨hb, .refl⟩
      · obtain ⟨hstart, hpath'⟩ := ih.resolve_left ha
        have hlive : LinkReaches t c a := ⟨hc, hpath⟩
        exact ⟨hstart, hpath'.tail ⟨by rw [hclear a hlive.live.lt, if_neg ha], hb⟩⟩
  · rintro (rfl | ⟨hstart, h⟩)
    · exact ⟨hc, .refl⟩
    refine ⟨hc, ?_⟩
    induction h with
    | refl => exact .single ⟨rfl, hstart⟩
    | @tail a b hpath hab ih =>
      obtain ⟨rfl, hb⟩ := hab
      have hlive : LinkReaches t' (t c) a := ⟨hstart, hpath⟩
      have hnext := hclear a hlive.live.lt
      split_ifs at hnext
      · exact absurd hnext hb.2
      · exact ih.tail ⟨hnext.symm, hb⟩

def usedEntries (t : ℕ → ℕ) : Finset ℕ := (Finset.range (2 ^ 28)).filter fun k => t k ≠ 0

omit hc in
theorem usedEntries_clear : usedEntries t' = (usedEntries t).erase c := by
  ext k
  simp only [usedEntries, Finset.mem_filter, Finset.mem_erase, Finset.mem_range]
  constructor
  · rintro ⟨hk, h⟩
    rw [hclear k hk] at h
    split_ifs at h with hkc
    · exact absurd rfl h
    · exact ⟨hkc, hk, h⟩
  · rintro ⟨hkc, hk, h⟩
    exact ⟨hk, by rwa [hclear k hk, if_neg hkc]⟩

end Links

theorem Fat32.freeLoop_exact (fs : Fat32) (n : ℕ) : ∀ (c : ℕ) (d : FatDisk),
    (usedEntries (fs.getNextCluster d)).card + (if LinkLive c then 1 else 0) ≤ n → ∃ d',
      (∀ fuel, n < fuel → fs.freeLoop fuel c d = some d') ∧ ∀ k < 2 ^ 28,
        (LinkReaches (fs.getNextCluster d) c k → fs.getNextCluster d' k = 0) ∧
        (¬LinkReaches (fs.getNextCluster d) c k → fs.getNextCluster d' k = fs.getNextCluster d k) := by
  induction n using Nat.strong_induction_on with
  | _ n ih =>
    intro c d hn
    by_cases hc : LinkLive c
    swap
    · refine ⟨d, ?_, fun k _ => ⟨fun h => absurd h.1 hc, fun _ => rfl⟩⟩
      rintro (_ | fuel) hfuel
      · exact absurd hfuel (Nat.not_lt_zero _)
      · exact if_neg hc
    have hclear : ∀ k < 2 ^ 28, fs.getNextCluster (fs.setEntry d c 0) k =
        if k = c then 0 else fs.getNextCluster d k := fun k hk => fs.getNextCluster_setEntry hc.lt hk
    have hused := usedEntries_clear hclear
    rw [if_pos hc] at hn
    -- The entry was in use, or it was the last one.
    have hless : (usedEntries (fs.getNextCluster (fs.setEntry d c 0))).card +
        (if LinkLive (fs.getNextCluster d c) then 1 else 0) ≤ n - 1 := by
      rw [hused]
      by_cases h0 : fs.getNextCluster d c = 0
      · have := Finset.card_erase_le (s := usedEntries (fs.getNextCluster d)) (a := c)
        rw [if_neg fun h => h.2 h0]
        omega
      · have hmem : c ∈ usedEntries (fs.getNextCluster d) :=
          Finset.mem_filter.mpr ⟨Finset.mem_range.mpr hc.lt, h0⟩
        have := Finset.card_erase_lt_of_mem hmem
        split_ifs <;> omega
    obtain ⟨d', hend, htable⟩ := ih (n - 1) (by omega) _ _ hless
    refine ⟨d', ?_, fun k hk => ?_⟩
    · rintro (_ | fuel) hfuel
      · exact absurd hfuel (Nat.not_lt_zero _)
      · exact (if_pos hc).trans (hend fuel (by omega))
    obtain ⟨hreach, hkeep⟩ := htable k hk
    rw [linkReaches_clear hc hclear]
    rw [hclear k hk] at hkeep
    refine ⟨?_, fun h => ?_⟩
    · rintro (rfl | h)
      · by_cases h : LinkReaches (fs.getNextCluster (fs.setEntry d k 0)) (fs.getNextCluster d k) k
        · exact hreach h
        · rw [hkeep h, if_pos rfl]
      · exact hreach h
    · rw [hkeep fun h' => h (.inr h'), if_neg fun h' => h (.inl h')]

/-- **`free_cluster_chain` clears exactly the entries that the links lead to**, whatever the table. -/
theorem free_cluster_chain_exact (fs : Fat32) (d : FatDisk) {c : ℕ} (hc : 2 ≤ c) :
    ∃ d', Ends (fun fuel => fs.freeClusterChain fuel c d) d' ∧ ∀ k < 2 ^ 28,
      (LinkReaches (fs.getNextCluster d) c k → fs.getNextCluster d' k = 0) ∧
      (¬LinkReaches (fs.getNextCluster d) c k → fs.getNextCluster d' k = fs.getNextCluster d k) := by
  obtain ⟨d', hend, htable⟩ := fs.freeLoop_exact _ c d le_rfl
  have hends : Ends (fun fuel => fs.freeLoop fuel c d) d' := ⟨_, hend⟩
  refine ⟨d', ?_, htable⟩
  simpa only [Fat32.freeClusterChain, if_neg (not_lt.mpr hc)] using hends

/-- The entry of cluster 2 links to itself. -/
theorem free_cluster_chain_exact_loop :
    let fs : Fat32 := ⟨0, 1, 1, 1, 1, 2⟩
    ∃ d', Ends (fun fuel => fs.freeClusterChain fuel 2 ⟨fun _ x => if x = 8 then 2 else 0, [], []⟩) d' ∧
      fs.getNextCluster d' 2 = 0 := by
  intro fs
  obtain ⟨d', hend, htable⟩ := free_cluster_chain_exact fs
    ⟨fun _ x => if x = 8 then 2 else 0, [], []⟩ (c := 2) le_rfl
  exact ⟨d', hend, (htable 2 (by norm_num)).1 ⟨by decide, .refl⟩⟩

end KeonOS
