import KeonOS.Fat.FileLaws

/-!
# The chains of a FAT32 volume

What the four operations that change the table do to its chains. A state is the disk with the first
clusters of the files and directories whose entries have not been unlinked.

* **`fat_chains`**: in every run the table stays well formed and every step obeys the law.
-/

namespace KeonOS

open FatGeometry List

variable {fs : Fat32} {N c : ℕ}

/-! ## A free entry -/

variable {i k first : ℕ} {d d' d₁ : FatDisk} {place : ℕ × ℕ} {entry : List UInt8} {cs gs : List ℕ}

namespace Fat32

variable {fuel cluster : ℕ} {d : FatDisk}

theorem findFreeEntry_found (hc : cluster < endMark) (h : fs.freeSlot d cluster = some i) :
    fs.findFreeEntry (fuel + 1) cluster d = (some (some (fs.entryLba cluster i, entryOffset i)), d) := by
  rw [findFreeEntry, if_pos hc, h]

theorem findFreeEntry_next (hc : cluster < endMark) (h : fs.freeSlot d cluster = none)
    (hnext : ¬ endMark ≤ fs.getNextCluster d cluster) :
    fs.findFreeEntry (fuel + 1) cluster d = fs.findFreeEntry fuel (fs.getNextCluster d cluster) d := by
  rw [findFreeEntry, if_pos hc, h]
  exact if_neg hnext

theorem findFreeEntry_last (hc : cluster < endMark) (h : fs.freeSlot d cluster = none)
    (hnext : endMark ≤ fs.getNextCluster d cluster) :
    fs.findFreeEntry (fuel + 1) cluster d = fs.findFreeEntry fuel (fs.allocateCluster d).1
      (fs.setNextCluster (fs.allocateCluster d).2 cluster (fs.allocateCluster d).1) := by
  rw [findFreeEntry, if_pos hc, h]
  exact if_pos hnext

theorem grows_findFreeEntry (fs : Fat32) : ∀ (fuel cluster : ℕ) (d : FatDisk),
    d.Grows (fs.findFreeEntry fuel cluster d).2
  | 0, _, d => .refl d
  | fuel + 1, cluster, d => by
    by_cases hc : cluster < endMark
    · cases hslot : fs.freeSlot d cluster with
      | some i =>
        rw [findFreeEntry_found hc hslot]
        exact .refl d
      | none =>
        by_cases hnext : endMark ≤ fs.getNextCluster d cluster
        · rw [findFreeEntry_last hc hslot hnext]
          exact ((fs.grows_allocateCluster d).trans (.write _)).trans (grows_findFreeEntry fs fuel _ _)
        · rw [findFreeEntry_next hc hslot hnext]
          exact grows_findFreeEntry fs fuel _ d
    · rw [findFreeEntry, if_neg hc]
      exact .refl d

end Fat32

theorem grows_mkdir (fs : Fat32) (fuel dir : ℕ) (name : List UInt8) (d : FatDisk) :
    (fs.allocateCluster d).2.Grows (fs.mkdir fuel dir name d).2 := by
  unfold Fat32.mkdir
  generalize fs.allocateCluster d = r
  rcases r with ⟨new, d₁⟩
  simp only
  split
  · exact .refl d₁
  generalize hd₂ : d₁.write (fs.clusterToLba new) fs.sectorsPerCluster
    (Mem.ofBytes (fs.dotEntries dir new)) = d₂
  have hwrite : d₁.Grows d₂ := hd₂ ▸ FatDisk.Grows.write d₁
  have hgrows := hwrite.trans (fs.grows_findFreeEntry fuel dir d₂)
  generalize fs.findFreeEntry fuel dir d₂ = r at hgrows ⊢
  rcases r with ⟨_ | _ | place, d₃⟩
  · exact hgrows
  · exact hgrows
  · exact hgrows.trans (.write d₃)

/-- The place of a directory entry is in one of the clusters. -/
def PlaceIn (fs : Fat32) (cs : List ℕ) : Option (Option (ℕ × ℕ)) → Prop
  | none => True
  | some none => False
  | some (some place) => ∃ k ∈ cs, fs.InCluster k place.1

theorem entryLba_mem (hg : FatGeometry fs N) (hk2 : 2 ≤ k) (hk : k < N)
    (hi : i < fs.dirSlots) : fs.InCluster k (fs.entryLba k i) := by
  have hfits := hg.cluster_fits hk hk2
  have hin : i * dirEntryBytes / 512 < fs.sectorsPerCluster := by
    have hslots : (fs.dirSlots) * dirEntryBytes ≤ fs.clusterSize := Nat.div_mul_le_self ..
    have := Nat.mul_lt_mul_of_pos_right hi (show 0 < dirEntryBytes by decide)
    rw [Fat32.clusterSize] at hslots
    omega
  rw [Fat32.entryLba, hg.clusterToLba_eq hk hk2, Nat.mod_eq_of_lt (by omega)]
  exact ⟨by omega, by omega⟩

theorem findFreeEntry_spec (hg : FatGeometry fs N) : ∀ {fuel i cluster : ℕ} {d : FatDisk} {cs : List ℕ},
    fs.Linked N d → fs.Chain N d c cs →
    cs[i]? = some cluster → (fs.findFreeEntry fuel cluster d).2.Found N →
    ∃ ks, TableExtend N endMark (fs.getNextCluster d)
        (fs.getNextCluster (fs.findFreeEntry fuel cluster d).2) c cs ks ∧
      Touches fs.InFat d (fs.findFreeEntry fuel cluster d).2 ∧
      PlaceIn fs (cs ++ ks) (fs.findFreeEntry fuel cluster d).1 ∧
      ((fs.findFreeEntry fuel cluster d).1 = none →
        fuel + i ≤ cs.length + freeCount N (fs.getNextCluster d))
  | 0, i, cluster, d, cs, ht, hcs, hi, _ => by
    have hlt := (List.getElem?_eq_some_iff.mp hi).1
    exact ⟨[], .refl ht hcs, .refl d, trivial, fun _ => by omega⟩
  | fuel + 1, i, cluster, d, cs, ht, hcs, hi, hfound => by
    have hmarks := hg.marks
    have hlt := (List.getElem?_eq_some_iff.mp hi).1
    obtain ⟨hk2, hkN, -⟩ := hcs.used_at hi
    have hc : cluster < endMark := by omega
    cases hslot : fs.freeSlot d cluster with
    | some j =>
      rw [Fat32.findFreeEntry_found hc hslot]
      have hj := mem_range.mp (mem_of_find?_eq_some hslot)
      refine ⟨[], .refl ht hcs, .refl d, ⟨cluster, ?_, entryLba_mem hg hk2 hkN hj⟩, ?_⟩
      · rw [append_nil]
        exact mem_of_getElem? hi
      · simp
    | none =>
      by_cases hlast : i + 1 < cs.length
      · obtain ⟨hnext, hin⟩ := hcs.next_in hi hlast
        rw [Fat32.findFreeEntry_next hc hslot (by omega)] at hfound ⊢
        obtain ⟨ks, hext, htouch, hplace, hmore⟩ := findFreeEntry_spec hg ht hcs hnext hfound
        exact ⟨ks, hext, htouch, hplace, fun h => by have := hmore h; omega⟩
      rw [Fat32.findFreeEntry_last hc hslot (hcs.last_at hi (by omega)).1] at hfound ⊢
      have htaken : (fs.allocateCluster d).1 ≠ 0 ∧ (fs.allocateCluster d).1 < N := by
        refine hfound _ ((fs.grows_findFreeEntry fuel _ _).allocated ?_)
        rw [fs.allocated_setNextCluster, fs.allocated_allocateCluster]
        exact mem_cons_self ..
      obtain ⟨k, d', hk, hd', hstep, hget, hlink, hcount⟩ :=
        hg.link_next ht hcs hi hlast (.inr htaken)
      rw [hk, hd'] at hfound ⊢
      obtain ⟨ks, hext, htouch, hplace, hmore⟩ :=
        findFreeEntry_spec hg hstep.table hstep.chain hget hfound
      refine ⟨k :: ks, hstep.trans hext, hlink.trans htouch, ?_, fun h => ?_⟩
      · rwa [append_assoc _ [k], singleton_append] at hplace
      · have := hmore h
        rw [length_append, length_singleton] at this
        omega

/-! ## New chains -/

theorem getNextCluster_of_touches (hg : FatGeometry fs N) {S : ℕ → Prop}
    (h : Touches S d d') (hS : ∀ l, S l → ¬ fs.InFat l) (hk : k < fs.entries) :
    fs.getNextCluster d' k = fs.getNextCluster d k :=
  hg.getNextCluster_congr (fun l hl => h.sector l fun hs => hS l hs hl) hk

theorem touches_storeEntry : Touches (fun l => l = place.1) d (Fat32.storeEntry place entry d) :=
  Touches.write fun _ h1 h2 => by omega

/-- The directory with the clusters `cs` may have been extended, and the free cluster `new` has become a
chain. -/
structure NewChain (fs : Fat32) (N : ℕ) (d d' : FatDisk) (cs : List ℕ) (new : ℕ) : Prop where
  kept : TableKept N endMark (fs.getNextCluster d) (fs.getNextCluster d') cs
  free : 2 ≤ new ∧ new < N ∧ fs.getNextCluster d new = 0
  chain : TableChain N endMark (fs.getNextCluster d') new [new]
  head : ChainHead N (fs.getNextCluster d') new

section New

variable {fuel dir : ℕ} {name : List UInt8} {d : FatDisk} {cs : List ℕ}

theorem chain_first {t : ℕ → ℕ} (hcs : TableChain N endMark t c cs) (hc : c ≠ 0) : cs[0]? = some c := by
  cases cs with
  | nil => exact absurd hcs.chain hc
  | cons x xs => rw [hcs.chain.1]; rfl

theorem FatDisk.Found.of_grows (h : d'.Found N) (hd : d.Grows d') : d.Found N :=
  fun k hk => h k (hd.allocated hk)

theorem NewChain.of_extend (hg : FatGeometry fs N) (ht : fs.Linked N d)
    (hcs : fs.Chain N d dir cs)
    (hhead : ChainHead N (fs.getNextCluster d) dir) {d₂ : FatDisk} {ks : List ℕ}
    (hext : TableExtend N endMark (fs.getNextCluster d) (fs.getNextCluster d₁) dir cs ks)
    (hk2 : 2 ≤ k) (hk : k < N) (hfree : fs.getNextCluster d₁ k = 0)
    (hd₂ : ∀ x < N, fs.getNextCluster d₂ x = Function.update (fs.getNextCluster d₁) k takenMark x) :
    NewChain fs N d d₂ cs k := by
  have hmark : endMark ≤ takenMark := by decide
  obtain ⟨hchain, hnew⟩ := hext.table.alloc_new hg.marks hk2 hk hfree hmark
  have hold : fs.getNextCluster d k = 0 := by
    have hnot : k ∉ cs ++ ks := fun hmem => (hext.chain.used k hmem).2.2 hfree
    rw [mem_append, not_or] at hnot
    rw [← hext.frame k hk hnot.1 hnot.2, hfree]
  refine ⟨?_, ⟨hk2, hk, hold⟩, hchain.congr fun x hx => ?_, fun j hj2 hj => ?_⟩
  · exact ((TableKept.extend hext ht hg.marks hcs hhead).trans
      (.alloc hext.table hg.marks hk2 hk hfree hmark)).congr hg.reserved hd₂
  · exact hd₂ x (hchain.used x hx).2.1
  · rw [hd₂ j hj]
    exact hnew j hj2 hj

theorem create_spec (hg : FatGeometry fs N) (ht : fs.Linked N d)
    (hcs : fs.Chain N d dir cs) (hdir : dir ≠ 0)
    (hhead : ChainHead N (fs.getNextCluster d) dir) (hfound : (fs.create fuel dir name d).2.Found N) :
    ((fs.create fuel dir name d).1 = none → fuel ≤ cs.length + freeCount N (fs.getNextCluster d)) ∧
      (fs.create fuel dir name d).1 ≠ some none ∧
      ∀ f, (fs.create fuel dir name d).1 = some (some f) →
        NewChain fs N d (fs.create fuel dir name d).2 cs f.firstCluster := by
  have hspec : (fs.findFreeEntry fuel dir d).2.Found N → _ :=
    findFreeEntry_spec hg ht hcs (chain_first hcs hdir)
  unfold Fat32.create at hfound ⊢
  generalize fs.findFreeEntry fuel dir d = r at hspec hfound ⊢
  rcases r with ⟨_ | _ | place, d₁⟩
  · obtain ⟨ks, -, -, -, hmore⟩ := hspec hfound
    exact ⟨fun _ => by simpa using hmore rfl, by simp, by simp⟩
  · obtain ⟨ks, -, -, hplace, -⟩ := hspec hfound
    exact absurd hplace id
  simp only at hfound ⊢
  have hfound₂ : (fs.allocateCluster d₁).2.Found N := by
    by_cases hk : (fs.allocateCluster d₁).1 = 0
    · rwa [if_pos hk] at hfound
    · rwa [if_neg hk, Fat32.storeEntry, FatDisk.found_write] at hfound
  have hk := hfound₂ _ (by rw [fs.allocated_allocateCluster]; exact mem_cons_self ..)
  obtain ⟨ks, hext, -, ⟨e, he, hin⟩, -⟩ := hspec (hfound₂.of_grows (fs.grows_allocateCluster d₁))
  obtain ⟨k, hk2, hkN, hfree, halloc⟩ := hg.allocateCluster_taken hext.table.reserved (.inr hk)
  rw [if_neg hk.1, halloc]
  refine ⟨by simp, by simp, fun f hf => ?_⟩
  obtain rfl : _ = f := by simpa using hf
  refine .of_extend hg ht hcs hhead hext hk2 hkN hfree fun x hx => ?_
  have hclusters := hg.clusters
  rw [getNextCluster_of_touches hg touches_storeEntry _ (show x < fs.entries by omega),
    Fat32.getNextCluster_took, hg.getNextCluster_setEntry (by omega) (by omega),
    Function.update_apply]
  · rfl
  · rintro l rfl
    exact hg.not_inFat hin

theorem found_storeEntry : (Fat32.storeEntry place entry d).Found N ↔ d.Found N := FatDisk.found_write

theorem getNextCluster_filled (hg : FatGeometry fs N) (hk2 : 2 ≤ k) (hkN : k < N) (buffer : Mem) :
    ∀ x < N, fs.getNextCluster (((fs.setEntry d k takenMark).took k).write (fs.clusterToLba k)
      fs.sectorsPerCluster buffer) x = Function.update (fs.getNextCluster d) k takenMark x := by
  intro x hx
  have hclusters := hg.clusters
  rw [getNextCluster_of_touches (S := fs.InCluster k) hg (Touches.write fun l h1 h2 => ?_)
    (fun l hl => hg.not_inFat hl) (by omega), Fat32.getNextCluster_took,
    hg.getNextCluster_setEntry (by omega) (by omega), Function.update_apply]
  · rfl
  · rw [hg.clusterToLba_eq hkN hk2] at h1 h2
    exact ⟨h1, h2⟩

theorem mkdir_spec (hg : FatGeometry fs N) (ht : fs.Linked N d)
    (hcs : fs.Chain N d dir cs) (hdir : dir ≠ 0)
    (hhead : ChainHead N (fs.getNextCluster d) dir) (hfound : (fs.mkdir fuel dir name d).2.Found N) :
    ((fs.mkdir fuel dir name d).1 = none → fuel ≤ cs.length + freeCount N (fs.getNextCluster d)) ∧
      (fs.mkdir fuel dir name d).1 ≠ some false ∧
      ((fs.mkdir fuel dir name d).1 = some true →
        NewChain fs N d (fs.mkdir fuel dir name d).2 cs (fs.allocateCluster d).1) := by
  have hclusters := hg.clusters
  have hmark : endMark ≤ takenMark := by decide
  have hk : (fs.allocateCluster d).1 ≠ 0 ∧ (fs.allocateCluster d).1 < N := by
    refine hfound _ ((grows_mkdir fs fuel dir name d).allocated ?_)
    rw [fs.allocated_allocateCluster]
    exact mem_cons_self ..
  obtain ⟨k, hk2, hkN, hfree, halloc⟩ := hg.allocateCluster_taken ht.reserved (.inr hk)
  rw [halloc] at hk
  unfold Fat32.mkdir at hfound ⊢
  rw [halloc] at hfound ⊢
  simp only [if_neg hk.1] at hfound ⊢
  generalize hd₂ : ((fs.setEntry d k takenMark).took k).write (fs.clusterToLba k)
    fs.sectorsPerCluster (Mem.ofBytes (fs.dotEntries dir k)) = d₂ at hfound ⊢
  -- the table before the search for an entry
  have htable : ∀ x < N, fs.getNextCluster d₂ x = Function.update (fs.getNextCluster d) k takenMark x :=
    hd₂ ▸ getNextCluster_filled hg hk2 hkN _
  have hkept : TableKept N endMark (fs.getNextCluster d) (fs.getNextCluster d₂) [] :=
    (TableKept.alloc ht hg.marks hk2 hkN hfree hmark).congr hg.reserved htable
  have hused := hcs.used dir (hcs.head_mem hdir)
  have hcs₂ := hkept.others dir cs hcs not_mem_nil
  have hhead₂ := (hkept.heads dir hused.2.1 hused.2.2 hhead).2
  have hcount : freeCount N (fs.getNextCluster d₂) ≤ freeCount N (fs.getNextCluster d) := by
    rw [freeCount_congr fun x hx => by rw [htable x hx], ← freeCount_alloc hkN hfree
      (show takenMark ≠ 0 by decide)]
    omega
  have hspec : (fs.findFreeEntry fuel dir d₂).2.Found N → _ :=
    findFreeEntry_spec hg hkept.table hcs₂ (chain_first hcs₂ hdir)
  generalize fs.findFreeEntry fuel dir d₂ = r at hspec hfound ⊢
  rcases r with ⟨_ | _ | place, d₃⟩
  · obtain ⟨ks, -, -, -, hmore⟩ := hspec hfound
    refine ⟨fun _ => ?_, by simp, by simp⟩
    have := hmore rfl
    omega
  · obtain ⟨ks, -, -, hplace, -⟩ := hspec hfound
    exact absurd hplace id
  simp only [found_storeEntry] at hfound
  obtain ⟨ks, hext, -, ⟨e, he, hin⟩, -⟩ := hspec hfound
  refine ⟨by simp, by simp, fun _ => ?_⟩
  have hstore : ∀ x < N, fs.getNextCluster
      (Fat32.storeEntry place (newEntry (FatName.madeDir name) attrDirectory k) d₃) x =
        fs.getNextCluster d₃ x := by
    intro x hx
    refine getNextCluster_of_touches hg touches_storeEntry ?_ (by omega)
    rintro l rfl
    exact hg.not_inFat hin
  have hext' := (TableKept.extend hext hkept.table hg.marks hcs₂ hhead₂).congr hg.reserved hstore
  obtain ⟨hchain, hnew⟩ := ht.alloc_new hg.marks hk2 hkN hfree hmark
  have hchain₂ : fs.Chain N d₂ k [k] :=
    hchain.congr fun x hx => htable x (hchain.used x hx).2.1
  have hnew₂ : ChainHead N (fs.getNextCluster d₂) k := fun j hj2 hj => by
    rw [htable j hj]
    exact hnew j hj2 hj
  have hkcs : k ∉ cs := fun hmem => (hcs.used k hmem).2.2 hfree
  refine ⟨⟨hext'.table, fun c gs hgs hc => ?_, fun c hc hcused hchead => ?_⟩, ⟨hk2, hkN, hfree⟩,
    hext'.others k [k] hchain₂ hkcs, ?_⟩
  · exact hext'.others c gs (hkept.others c gs hgs not_mem_nil) hc
  · obtain ⟨hcused, hchead⟩ := hkept.heads c hc hcused hchead
    exact hext'.heads c hc hcused hchead
  · exact (hext'.heads k hkN (hchain₂.used k (by simp)).2.2 hnew₂).2

end New

/-! ## Files -/

theorem writeFile_extends (hg : FatGeometry fs N) {f : FatFile} {offset size : ℕ} {buffer : Mem}
    (ht : fs.Linked N d)
    (hcs : fs.Chain N d f.firstCluster cs) (hf : f.firstCluster ≠ 0)
    (hentry : ∃ k, fs.InCluster k f.dirEntryLba)
    (hfound : (fs.writeFile f offset size buffer d).2.2.Found N) :
    ∃ ks, TableExtend N endMark (fs.getNextCluster d)
      (fs.getNextCluster (fs.writeFile f offset size buffer d).2.2) f.firstCluster cs ks := by
  have hB : ∀ j < size, (offset + j) % 2 ^ 32 / fs.clusterSize < 2 ^ 32 := fun j _ =>
    lt_of_le_of_lt (Nat.div_le_self ..) (Nat.mod_lt _ (by norm_num))
  have hloop : ∃ ks, FileWrite fs N f.firstCluster offset size 0 buffer d
      (fs.writeLoop f offset size buffer size 0 d).2 cs ks :=
    hg.writeLoop_spec hf hB (by omega) ht hcs (.inr (hfound.of_grows grows_writeFile))
  obtain ⟨ks, hloop⟩ := hloop
  obtain ⟨k, hin⟩ := hentry
  refine ⟨ks, hloop.extend.congr hg.reserved fun x hx => ?_⟩
  refine getNextCluster_of_touches hg touches_writeFile ?_ (lt_of_lt_of_le hx hg.clusters)
  rintro l rfl
  exact hg.not_inFat hin

/-! ## Unlinking -/

namespace Fat32

/-- The first cluster of the entry that `unlink` takes. -/
def unlinkEntry (fs : Fat32) (name : List UInt8) : ℕ → ℕ → FatDisk → Option ℕ
  | 0, _, _ => none
  | fuel + 1, cluster, d =>
    if cluster < endMark ∧ cluster ≠ 0 then
      match unlinkScan (fs.clusterBytes d cluster) name (List.range fs.dirSlots) with
      | some i => some (entCluster (fs.clusterBytes d cluster) i)
      | none => unlinkEntry fs name fuel (fs.getNextCluster d cluster) d
    else none

theorem freeLoop_mono (fs : Fat32) : ∀ {fuel more cluster : ℕ} {d d' : FatDisk},
    fs.freeLoop fuel cluster d = some d' → fuel ≤ more → fs.freeLoop more cluster d = some d'
  | 0, _, _, _, _, h, _ => by simp [freeLoop] at h
  | fuel + 1, more + 1, cluster, d, d', h, hle => by
    rw [freeLoop] at h ⊢
    split_ifs at h ⊢ with hc
    · exact freeLoop_mono fs h (by omega)
    · exact h

theorem freeClusterChain_mono (fs : Fat32) {fuel more cluster : ℕ}
    (h : fs.freeClusterChain fuel cluster d = some d') (hle : fuel ≤ more) :
    fs.freeClusterChain more cluster d = some d' := by
  rw [freeClusterChain] at h ⊢
  split_ifs at h ⊢
  · exact h
  · exact fs.freeLoop_mono h hle

end Fat32

section Unlink

variable {name : List UInt8} {d : FatDisk} {cs : List ℕ}

theorem unlinkLoop_spec (hg : FatGeometry fs N) (hcs : fs.Chain N d c cs) :
    ∀ {fuel i cluster : ℕ} {r : Bool × FatDisk}, TableChain.At endMark cs i cluster →
    fs.unlinkLoop name fuel cluster d = some r →
      (r = (false, d) ∧ fs.unlinkEntry name fuel cluster d = none) ∨
      r.1 = true ∧ ∃ n first d₁, fs.unlinkEntry name fuel cluster d = some first ∧
        fs.freeClusterChain n first d = some d₁ ∧ r.2.allocated = d₁.allocated ∧
        ∃ k ∈ cs, Touches (fs.InCluster k) d₁ r.2
  | 0, _, _, _, _, h => by simp [Fat32.unlinkLoop] at h
  | fuel + 1, i, cluster, r, .inr ⟨_, hend⟩, h => by
    rw [Fat32.unlinkLoop, if_neg (by omega), Option.some.injEq] at h
    rw [Fat32.unlinkEntry, if_neg (by omega)]
    exact .inl ⟨h.symm, rfl⟩
  | fuel + 1, i, cluster, r, .inl hi, h => by
    have hmarks := hg.marks
    have hmem := mem_of_getElem? hi
    obtain ⟨hk2, hkN, -⟩ := hcs.used cluster hmem
    have hc : cluster < endMark ∧ cluster ≠ 0 := ⟨by omega, by omega⟩
    rw [Fat32.unlinkLoop, if_pos hc] at h
    rw [Fat32.unlinkEntry, if_pos hc]
    cases hscan : unlinkScan (fs.clusterBytes d cluster) name (List.range fs.dirSlots) with
    | some j =>
      simp only [hscan, Option.map_eq_some_iff] at h
      obtain ⟨d₁, hfree, rfl⟩ := h
      refine .inr ⟨rfl, fuel + 1, _, d₁, rfl, hfree, FatDisk.allocated_write, cluster, hmem, ?_⟩
      refine Touches.write fun l h1 h2 => ?_
      rw [hg.clusterToLba_eq hkN hk2] at h1 h2
      exact ⟨h1, h2⟩
    | none =>
      simp only [hscan] at h ⊢
      exact unlinkLoop_spec hg hcs (hcs.at_succ hi) h

theorem unlinkLoop_total (hg : FatGeometry fs N)
    (hcs : fs.Chain N d c cs) {G : ℕ} :
    ∀ {fuel i cluster : ℕ}, TableChain.At endMark cs i cluster → cs.length + G < fuel + i →
      (∀ first, fs.unlinkEntry name fuel cluster d = some first →
        ∃ gs, fs.Chain N d first gs ∧ gs.length ≤ G) →
      ∃ r, fs.unlinkLoop name fuel cluster d = some r
  | 0, _, _, hat, hfuel, _ => absurd hat.le (by omega)
  | fuel + 1, _, _, .inr ⟨_, hend⟩, _, _ => ⟨_, by rw [Fat32.unlinkLoop, if_neg (by omega)]⟩
  | fuel + 1, i, cluster, .inl hi, hfuel, hentry => by
    have hmarks := hg.marks
    have hlt := (List.getElem?_eq_some_iff.mp hi).1
    obtain ⟨hk2, hkN, -⟩ := hcs.used_at hi
    have hc : cluster < endMark ∧ cluster ≠ 0 := ⟨by omega, by omega⟩
    rw [Fat32.unlinkLoop, if_pos hc]
    rw [Fat32.unlinkEntry, if_pos hc] at hentry
    cases hscan : unlinkScan (fs.clusterBytes d cluster) name (List.range fs.dirSlots) with
    | some j =>
      simp only [hscan] at hentry ⊢
      obtain ⟨gs, hgs, hlen⟩ := hentry _ rfl
      obtain ⟨d₁, hfree, -⟩ := hg.freeClusterChain_spec hgs (show _ < fuel + 1 by omega)
      exact ⟨_, by rw [hfree]; rfl⟩
    | none =>
      simp only [hscan] at hentry ⊢
      exact unlinkLoop_total hg hcs (hcs.at_succ hi) (by omega) hentry

theorem unlink_frees (hg : FatGeometry fs N) {n : ℕ}
    (hgs : fs.Chain N d first gs)
    (hfree : fs.freeClusterChain n first d = some d₁) (htouch : Touches (fs.InCluster k) d₁ d') :
    ∀ x < fs.entries, fs.getNextCluster d' x = if x ∈ gs then 0 else fs.getNextCluster d x := by
  obtain ⟨d₂, hspec, -, -, htable⟩ := hg.freeClusterChain_spec hgs
    (show gs.length < max n (gs.length + 1) by omega)
  have hmono := fs.freeClusterChain_mono hfree (le_max_left n (gs.length + 1))
  obtain rfl : d₁ = d₂ := Option.some.inj (hmono.symm.trans hspec)
  intro x hx
  rw [getNextCluster_of_touches hg htouch (fun l hl => hg.not_inFat hl) hx, htable x hx]

variable {fuel dir : ℕ}

theorem unlink_done (hg : FatGeometry fs N)
    (hcs : fs.Chain N d dir cs) (hdir : dir ≠ 0)
    (h : fs.unlink fuel dir name d = some (true, d'))
    (hentry : fs.unlinkEntry name fuel dir d = some first) :
    ∃ d₁ n k, fs.freeClusterChain n first d = some d₁ ∧ Touches (fs.InCluster k) d₁ d' := by
  unfold Fat32.unlink at h
  split_ifs at h
  · simp at h
  · rcases unlinkLoop_spec hg hcs (.inl (chain_first hcs hdir)) h with ⟨heq, -⟩ | ⟨-, n, f, d₁, hf, hfree, -, k, -, ht⟩
    · simp at heq
    · rw [hentry, Option.some.injEq] at hf
      exact ⟨d₁, n, k, hf ▸ hfree, ht⟩

theorem unlink_missed (hg : FatGeometry fs N)
    (hcs : fs.Chain N d dir cs) (hdir : dir ≠ 0)
    (h : fs.unlink fuel dir name d = some (false, d')) : d' = d := by
  unfold Fat32.unlink at h
  split_ifs at h
  · simpa using h.symm
  · rcases unlinkLoop_spec hg hcs (.inl (chain_first hcs hdir)) h with ⟨heq, -⟩ | ⟨htrue, -⟩
    · exact (Prod.mk.inj heq).2
    · simp at htrue

end Unlink

/-! ## Runs -/

/-- The disk, and the first clusters of the files and directories that have not been unlinked. -/
structure FatState where
  disk : FatDisk
  live : List ℕ

inductive FatEvent
  | created (dir new : ℕ)
  | made (dir new : ℕ)
  | wrote (first : ℕ)
  | unlinked (first : ℕ)
  | missed

def FatEvent.own : FatEvent → ℕ
  | created dir _ | made dir _ => dir
  | wrote first | unlinked first => first
  | missed => 0

inductive FatStep (fs : Fat32) : FatState → FatEvent → FatState → Prop
  | create {s : FatState} {fuel dir : ℕ} {name : List UInt8} {f : FatFile} {d : FatDisk}
      (hdir : dir ∈ s.live) (h : fs.create fuel dir name s.disk = (some (some f), d)) :
      FatStep fs s (.created dir f.firstCluster) ⟨d, f.firstCluster :: s.live⟩
  | mkdir {s : FatState} {fuel dir : ℕ} {name : List UInt8} {d : FatDisk}
      (hdir : dir ∈ s.live) (h : fs.mkdir fuel dir name s.disk = (some true, d)) :
      FatStep fs s (.made dir (fs.allocateCluster s.disk).1) ⟨d, (fs.allocateCluster s.disk).1 :: s.live⟩
  | write {s : FatState} {f : FatFile} {offset size : ℕ} {buffer : Mem}
      (hf : f.firstCluster ∈ s.live) (hentry : ∃ k, fs.InCluster k f.dirEntryLba) :
      FatStep fs s (.wrote f.firstCluster) ⟨(fs.writeFile f offset size buffer s.disk).2.2, s.live⟩
  | unlink {s : FatState} {fuel dir first : ℕ} {name : List UInt8} {d : FatDisk}
      (hdir : dir ∈ s.live) (h : fs.unlink fuel dir name s.disk = some (true, d))
      (hentry : fs.unlinkEntry name fuel dir s.disk = some first) (hfirst : first ∈ s.live) :
      FatStep fs s (.unlinked first) ⟨d, s.live.filter (· ≠ first)⟩
  | miss {s : FatState} {fuel dir : ℕ} {name : List UInt8} {d : FatDisk}
      (hdir : dir ∈ s.live) (h : fs.unlink fuel dir name s.disk = some (false, d)) :
      FatStep fs s .missed ⟨d, s.live⟩

/-- Runs in which every search for a free cluster finds one. -/
inductive FatRun (fs : Fat32) (N : ℕ) : FatState → FatState → Prop
  | refl {s : FatState} : FatRun fs N s s
  | step {s₀ s s' : FatState} {e : FatEvent} (hrun : FatRun fs N s₀ s) (h : FatStep fs s e s')
      (hfound : s'.disk.Found N) : FatRun fs N s₀ s'

/-- The table is well formed, and the live first clusters are heads of chains. -/
structure FatState.Good (fs : Fat32) (N : ℕ) (s : FatState) : Prop where
  table : LinkTable N endMark (fs.getNextCluster s.disk)
  heads : ∀ c ∈ s.live, (2 ≤ c ∧ c < N ∧ fs.getNextCluster s.disk c ≠ 0) ∧
    ChainHead N (fs.getNextCluster s.disk) c

/-- What a step does: the new table is well formed, the chains of other heads stay, and exactly the
clusters of an unlinked entry become free. -/
structure StepLaw (fs : Fat32) (N : ℕ) (e : FatEvent) (d d' : FatDisk) : Prop where
  table : LinkTable N endMark (fs.getNextCluster d')
  others : ∀ c gs, TableChain N endMark (fs.getNextCluster d) c gs →
    ChainHead N (fs.getNextCluster d) c → c ≠ 0 → c ≠ e.own →
    TableChain N endMark (fs.getNextCluster d') c gs
  event : match e with
    | .created _ new | .made _ new =>
      fs.getNextCluster d new = 0 ∧ TableChain N endMark (fs.getNextCluster d') new [new]
    | .wrote _ => True
    | .unlinked first => ∃ gs, TableChain N endMark (fs.getNextCluster d) first gs ∧
      ∀ k < fs.entries, fs.getNextCluster d' k = if k ∈ gs then 0 else fs.getNextCluster d k
    | .missed => ∀ k < fs.entries, fs.getNextCluster d' k = fs.getNextCluster d k

section Runs

variable {s s' s₀ : FatState} {e : FatEvent}

theorem FatState.Good.chain (h : s.Good fs N) (hc : c ∈ s.live) :
    ∃ cs, fs.Chain N s.disk c cs := by
  obtain ⟨⟨h2, hN, hused⟩, -⟩ := h.heads c hc
  exact h.table.ends c h2 hN hused

theorem FatState.Good.ne_zero (h : s.Good fs N) (hc : c ∈ s.live) : c ≠ 0 := by
  have := (h.heads c hc).1.1
  omega

theorem FatState.Good.of_kept (h : s.Good fs N)
    (hkept : TableKept N endMark (fs.getNextCluster s.disk) (fs.getNextCluster d) cs) :
    FatState.Good fs N ⟨d, s.live⟩ := by
  refine ⟨hkept.table, fun c hc => ?_⟩
  obtain ⟨⟨h2, hN, hused⟩, hhead⟩ := h.heads c hc
  obtain ⟨hused', hhead'⟩ := hkept.heads c hN hused hhead
  exact ⟨⟨h2, hN, hused'⟩, hhead'⟩

theorem FatState.Good.of_new (h : s.Good fs N) {new : ℕ}
    (hnew : NewChain fs N s.disk d cs new) : FatState.Good fs N ⟨d, new :: s.live⟩ := by
  have hkept := h.of_kept hnew.kept
  refine ⟨hkept.table, fun c hc => ?_⟩
  rcases mem_cons.mp hc with rfl | hc
  · exact ⟨hnew.chain.used c (mem_singleton_self c), hnew.head⟩
  · exact hkept.heads c hc

theorem others_of_kept {own : ℕ} (hcs : fs.Chain N d own cs)
    (hkept : TableKept N endMark (fs.getNextCluster d) (fs.getNextCluster d') cs) (c : ℕ)
    (gs : List ℕ) (hgs : fs.Chain N d c gs)
    (hhead : ChainHead N (fs.getNextCluster d) c) (hne : c ≠ own) :
    fs.Chain N d' c gs :=
  hkept.others c gs hgs (hcs.head_notMem hhead hne)

theorem law_of_freed (hg : FatGeometry fs N) (ht : fs.Linked N d)
    (hgs : fs.Chain N d first gs)
    (hhead : ChainHead N (fs.getNextCluster d) first)
    (htable : ∀ k < fs.entries, fs.getNextCluster d' k = if k ∈ gs then 0 else fs.getNextCluster d k) :
    StepLaw fs N (.unlinked first) d d' := by
  have hclusters := hg.clusters
  refine ⟨(ht.release hg.marks hgs hhead).congr hg.reserved fun k hk => htable k (by omega),
    fun c cs hcs hc _ hne => hcs.congr fun x hx => ?_, gs, hgs, htable⟩
  have hxN := (hcs.used x hx).2.1
  rw [htable x (by omega), if_neg (ht.disjoint hg.marks hgs hhead hcs (hgs.head_notMem hc hne) x hx)]

theorem FatState.Good.of_freed (hg : FatGeometry fs N) (h : s.Good fs N)
    (hgs : fs.Chain N s.disk first gs)
    (hfirst : first ∈ s.live) (htable : ∀ k < fs.entries,
      fs.getNextCluster d k = if k ∈ gs then 0 else fs.getNextCluster s.disk k) :
    FatState.Good fs N ⟨d, s.live.filter (· ≠ first)⟩ := by
  have hclusters := hg.clusters
  refine ⟨(law_of_freed hg h.table hgs (h.heads _ hfirst).2 htable).table, fun c hc => ?_⟩
  simp only [ne_eq, decide_not, mem_filter, Bool.not_eq_true', decide_eq_false_iff_not] at hc
  obtain ⟨⟨hc2, hcN, hused⟩, hhead⟩ := h.heads c hc.1
  refine ⟨⟨hc2, hcN, ?_⟩, fun j hj2 hj => ?_⟩
  · rwa [htable c (by omega), if_neg (hgs.head_notMem hhead hc.2)]
  · rw [htable j (by omega)]
    split_ifs
    · omega
    · exact hhead j hj2 hj

theorem FatStep.law (hg : FatGeometry fs N) (hs : s.Good fs N) (h : FatStep fs s e s')
    (hfound : s'.disk.Found N) : s'.Good fs N ∧ StepLaw fs N e s.disk s'.disk := by
  cases h with
  | @create fuel dir name f d hdir h =>
    obtain ⟨cs, hcs⟩ := hs.chain hdir
    have hspec : (fs.create fuel dir name s.disk).2.Found N → _ :=
      create_spec hg hs.table hcs (hs.ne_zero hdir) (hs.heads dir hdir).2
    rw [h] at hspec
    have hnew := (hspec hfound).2.2 f rfl
    exact ⟨hs.of_new hnew, hnew.kept.table,
      fun c gs hgs hhead _ hne => others_of_kept hcs hnew.kept c gs hgs hhead hne,
      hnew.free.2.2, hnew.chain⟩
  | @mkdir fuel dir name d hdir h =>
    obtain ⟨cs, hcs⟩ := hs.chain hdir
    have hspec : (fs.mkdir fuel dir name s.disk).2.Found N → _ :=
      mkdir_spec hg hs.table hcs (hs.ne_zero hdir) (hs.heads dir hdir).2
    rw [h] at hspec
    have hnew := (hspec hfound).2.2 rfl
    exact ⟨hs.of_new hnew, hnew.kept.table,
      fun c gs hgs hhead _ hne => others_of_kept hcs hnew.kept c gs hgs hhead hne,
      hnew.free.2.2, hnew.chain⟩
  | @write f offset size buffer hf hentry =>
    obtain ⟨cs, hcs⟩ := hs.chain hf
    obtain ⟨ks, hext⟩ := writeFile_extends hg hs.table hcs (hs.ne_zero hf) hentry hfound
    have hkept := TableKept.extend hext hs.table hg.marks hcs (hs.heads _ hf).2
    exact ⟨hs.of_kept hkept, hkept.table,
      fun c gs hgs hhead _ hne => others_of_kept hcs hkept c gs hgs hhead hne, trivial⟩
  | @unlink fuel dir first name d hdir h hentry hfirst =>
    obtain ⟨cs, hcs⟩ := hs.chain hdir
    obtain ⟨gs, hgs⟩ := hs.chain hfirst
    obtain ⟨d₁, n, k, hfree, htouch⟩ := unlink_done hg hcs (hs.ne_zero hdir) h hentry
    have htable := unlink_frees hg hgs hfree htouch
    exact ⟨hs.of_freed hg hgs hfirst htable, law_of_freed hg hs.table hgs (hs.heads _ hfirst).2 htable⟩
  | @miss fuel dir name d hdir h =>
    obtain ⟨cs, hcs⟩ := hs.chain hdir
    obtain rfl := unlink_missed hg hcs (hs.ne_zero hdir) h
    exact ⟨hs, hs.table, fun c gs hgs _ _ _ => hgs, fun k _ => rfl⟩

theorem FatRun.good (hg : FatGeometry fs N) (h₀ : s₀.Good fs N) (hrun : FatRun fs N s₀ s) :
    s.Good fs N := by
  induction hrun with
  | refl => exact h₀
  | step _ h hfound ih => exact (h.law hg ih hfound).1

/-- **The chains in every run**: the table is well formed, the live files and directories have their
chains, every further step obeys the law, and the calls return. -/
theorem fat_chains (hg : FatGeometry fs N) (h₀ : s₀.Good fs N) (hrun : FatRun fs N s₀ s) : s.Good fs N ∧
      (∀ e s', FatStep fs s e s' → s'.disk.Found N → StepLaw fs N e s.disk s'.disk) ∧
      ∀ dir ∈ s.live, ∀ name, ((∀ fuel, (fs.create fuel dir name s.disk).2.Found N) →
          ∃ fuel f d, fs.create fuel dir name s.disk = (some (some f), d)) ∧
        ((∀ fuel, (fs.mkdir fuel dir name s.disk).2.Found N) →
          ∃ fuel d, fs.mkdir fuel dir name s.disk = (some true, d)) ∧
        ((∀ fuel first, fs.unlinkEntry name fuel dir s.disk = some first → first ∈ s.live) →
          ∃ fuel r, fs.unlink fuel dir name s.disk = some r) := by
  have hgood := hrun.good hg h₀
  refine ⟨hgood, fun e s' h hfound => (h.law hg hgood hfound).2, fun dir hdir name => ?_⟩
  obtain ⟨cs, hcs⟩ := hgood.chain hdir
  have hne := hgood.ne_zero hdir
  have hhead := (hgood.heads dir hdir).2
  -- no loop has more iterations than there are clusters
  refine ⟨fun hfound => ?_, fun hfound => ?_, fun hentry => ?_⟩
  · generalize hn : cs.length + freeCount N (fs.getNextCluster s.disk) + 1 = n
    obtain ⟨hmore, hnull, -⟩ := create_spec hg hgood.table hcs hne hhead (hfound n)
    refine ⟨n, ?_⟩
    generalize fs.create n dir name s.disk = r at hmore hnull ⊢
    rcases r with ⟨_ | _ | f, d⟩
    · have := hmore rfl
      omega
    · exact absurd rfl hnull
    · exact ⟨f, d, rfl⟩
  · generalize hn : cs.length + freeCount N (fs.getNextCluster s.disk) + 1 = n
    obtain ⟨hmore, hfail, -⟩ := mkdir_spec hg hgood.table hcs hne hhead (hfound n)
    refine ⟨n, ?_⟩
    generalize fs.mkdir n dir name s.disk = r at hmore hfail ⊢
    rcases r with ⟨_ | _ | _, d⟩
    · have := hmore rfl
      omega
    · exact absurd rfl hfail
    · exact ⟨d, rfl⟩
  · by_cases hdots : name = [dotChar] ∨ name = [dotChar, dotChar]
    · exact ⟨0, (false, s.disk), by rw [Fat32.unlink, if_pos hdots]⟩
    refine ⟨cs.length + N + 1, ?_⟩
    rw [Fat32.unlink, if_neg hdots]
    refine unlinkLoop_total (G := N) hg hcs (.inl (chain_first hcs hne)) (by omega) fun first hf => ?_
    obtain ⟨gs, hgs⟩ := hgood.chain (hentry _ first hf)
    exact ⟨gs, hgs, hgs.length_le⟩

end Runs

/-- A run with one write, which appends a cluster to its file. -/
theorem fat_chains_small : FatState.Good smallFat 256
    ⟨(smallFat.writeFile smallFile 600 1 (fun _ => 7) smallDisk).2.2, [2, 3]⟩ := by
  have h₀ : FatState.Good smallFat 256 ⟨smallDisk, [2, 3]⟩ := by
    refine ⟨smallDisk_links, fun c hc => ?_⟩
    have hc4 : 2 ≤ c ∧ c < 4 := by
      simp only [mem_cons, not_mem_nil, or_false] at hc
      omega
    refine ⟨⟨hc4.1, by omega, ?_⟩, fun j _ hj => ?_⟩
    · rw [smallDisk_table c (by omega), if_pos hc4.2]
      decide
    · have hmark : 4 ≤ takenMark := by decide
      rw [smallDisk_table j hj]
      split_ifs <;> omega
  refine (fat_chains smallFat_geometry h₀ (.step .refl (.write (by decide) ⟨3, by decide⟩) ?_)).1
  unfold FatDisk.Found
  decide +kernel

def oneFat : Fat32 := ⟨0, 0, 1, 2, 1, 3⟩

/-- **A write that destroys the table**: the bytes of a file without a first cluster go to the entry of
cluster 0. -/
theorem fat_chains_destroyed : LinkTable 256 endMark (oneFat.getNextCluster smallDisk) ∧
      (oneFat.writeFile ⟨0, 0, 3, 0⟩ 0 4 (fun _ => 0) smallDisk).2.2.allocated = [] ∧
      ¬ LinkTable 256 endMark (oneFat.getNextCluster
        (oneFat.writeFile ⟨0, 0, 3, 0⟩ 0 4 (fun _ => 0) smallDisk).2.2) := by
  have htable : ∀ k < 256, oneFat.getNextCluster smallDisk k = smallFat.getNextCluster smallDisk k := by
    decide +kernel
  refine ⟨smallDisk_links.congr (by decide) htable, by decide +kernel, fun h => ?_⟩
  exact h.reserved.1 (by decide +kernel)

end KeonOS
