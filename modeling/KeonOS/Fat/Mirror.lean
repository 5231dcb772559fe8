import KeonOS.Fat.Chains

/-!
# The copies of the table

A FAT32 volume keeps `table_count` copies of its table. `set_next_cluster`, `allocate_cluster` and
`free_cluster_chain` write the first one only, so that the copies stay equal as long as no call
changes the table.

* **`fat_mirrored`**: in runs of such calls the copies stay equal.
-/

namespace KeonOS

open FatGeometry List

def Mirrored (fs : Fat32) (d : FatDisk) : Prop := ∀ t < fs.tableCount, ∀ i < fs.tableSize32, ∀ x < 512,
    d.sector (fs.fatLba + t * fs.tableSize32 + i) x = d.sector (fs.fatLba + i) x

inductive FatCall
  | create (dir : ℕ) (name : List UInt8)
  | mkdir (dir : ℕ) (name : List UInt8)
  | write (f : FatFile) (offset size : ℕ) (buffer : Mem)
  | unlink (dir : ℕ) (name : List UInt8)

def FatCall.run (fs : Fat32) (fuel : ℕ) (d : FatDisk) : FatCall → Option FatDisk
  | create dir name => some (fs.create fuel dir name d).2
  | mkdir dir name => some (fs.mkdir fuel dir name d).2
  | write f offset size buffer => some (fs.writeFile f offset size buffer d).2.2
  | unlink dir name => (fs.unlink fuel dir name d).map Prod.snd

/-- A call that leaves the table alone: no cluster is taken, linked or released. -/
def FatCall.KeepsTable (fs : Fat32) (N : ℕ) (d : FatDisk) : FatCall → Prop
  | create dir _ => (∀ k < fs.entries, fs.getNextCluster d k ≠ 0) ∧
    ∃ cs, TableChain N endMark (fs.getNextCluster d) dir cs ∧ ∃ k ∈ cs, fs.freeSlot d k ≠ none
  | mkdir _ _ => ∀ k < fs.entries, fs.getNextCluster d k ≠ 0
  | write f offset size _ => fs.dataLba ≤ f.dirEntryLba ∧
    ∃ cs, TableChain N endMark (fs.getNextCluster d) f.firstCluster cs ∧
      ∀ j < size, (offset + j) % 2 ^ 32 / fs.clusterSize < cs.length
  | unlink dir name => name = [dotChar] ∨ name = [dotChar, dotChar] ∨
    ∃ cs, TableChain N endMark (fs.getNextCluster d) dir cs ∧
      ∀ fuel first, fs.unlinkEntry name fuel dir d = some first → first < 2

/-- Runs in which no call changes the table, unless there is only one copy of it. -/
inductive MirrorRun (fs : Fat32) (N : ℕ) (d₀ : FatDisk) : FatDisk → Prop
  | refl : MirrorRun fs N d₀ d₀
  | step {d d' : FatDisk} {fuel : ℕ} {call : FatCall} (hrun : MirrorRun fs N d₀ d)
      (h : call.run fs fuel d = some d') (hkeep : fs.tableCount = 1 ∨ call.KeepsTable fs N d) :
      MirrorRun fs N d₀ d'

variable {fs : Fat32} {N c : ℕ} {d d' : FatDisk} {cs : List ℕ}

def DataOnly (fs : Fat32) (d d' : FatDisk) : Prop := Touches (fun l => fs.dataLba ≤ l) d d'

theorem DataOnly.mirrored (h : DataOnly fs d d') (hd : Mirrored fs d) : Mirrored fs d' := by
  intro t ht i hi x hx
  have hcopy : fs.fatLba + t * fs.tableSize32 + i < fs.dataLba := by
    have := Nat.mul_le_mul_right fs.tableSize32 (Nat.succ_le_of_lt ht)
    rw [Nat.succ_mul] at this
    rw [Fat32.dataLba]
    omega
  have hfirst : fs.fatLba + i < fs.dataLba := by omega
  rw [h.sector _ hcopy.not_ge, h.sector _ hfirst.not_ge, hd t ht i hi x hx]

theorem DataOnly.chain (hg : FatGeometry fs N) (h : DataOnly fs d d')
    (hcs : fs.Chain N d c cs) :
    fs.Chain N d' c cs :=
  hcs.congr fun k hk => getNextCluster_of_touches hg h
    (fun _ hl hin => absurd hin.2 (hg.table_below.trans hl).not_gt)
    ((hcs.used k hk).2.1.trans_le hg.clusters)

theorem chain_start (hcs : fs.Chain N d c cs) (h : 0 < cs.length) :
    cs[0]? = some c := by
  cases cs with
  | nil => exact absurd h (lt_irrefl 0)
  | cons x xs => rw [hcs.chain.1, getElem?_cons_zero]

/-! ## The calls -/

theorem allocateCluster_full (hg : FatGeometry fs N)
    (hfull : ∀ k < fs.entries, fs.getNextCluster d k ≠ 0) : fs.allocateCluster d = (0, d.took 0) := by
  have hnone : (List.range fs.entries).find? (fun k => fs.getNextCluster d k = 0) = none :=
    find?_eq_none.mpr fun k hk => by simpa using hfull k (mem_range.mp hk)
  rw [hg.allocateCluster_eq, hnone]

theorem findFreeEntry_slot (hg : FatGeometry fs N)
    (hcs : fs.Chain N d c cs) {j k : ℕ} (hj : cs[j]? = some k)
    (hslot : fs.freeSlot d k ≠ none) : ∀ {fuel i cluster : ℕ}, cs[i]? = some cluster → i ≤ j →
      (fs.findFreeEntry fuel cluster d).2 = d := by
  intro fuel
  induction fuel with
  | zero => intros; rfl
  | succ fuel ih =>
    intro i cluster hi hij
    have hmarks := hg.marks
    have hc : cluster < endMark := (hcs.used_at hi).2.1.trans_le hmarks
    cases hfree : fs.freeSlot d cluster with
    | some _ => rw [Fat32.findFreeEntry_found hc hfree]
    | none =>
      have hne : i ≠ j := by
        rintro rfl
        exact hslot (Option.some.inj (hi.symm.trans hj) ▸ hfree)
      have hlt : i + 1 < cs.length := by
        have := (List.getElem?_eq_some_iff.mp hj).1
        omega
      obtain ⟨hnext, hin⟩ := hcs.next_in hi hlt
      rw [Fat32.findFreeEntry_next hc hfree (by omega)]
      exact ih hnext (by omega)

theorem writeWalk_inside (hg : FatGeometry fs N)
    (hcs : fs.Chain N d c cs) :
    ∀ {n i cluster : ℕ}, cs[i]? = some cluster → i + n < cs.length →
      ∃ k ∈ cs, fs.writeWalk n cluster d = (k, d)
  | 0, i, cluster, hi, _ => ⟨cluster, mem_of_getElem? hi, rfl⟩
  | n + 1, i, cluster, hi, hn => by
    obtain ⟨hnext, hin⟩ := hcs.next_in hi (by omega)
    have hmarks := hg.marks
    rw [fs.writeWalk_next (by omega)]
    exact writeWalk_inside hg hcs hnext (by omega)

theorem dataOnly_writeSector (hg : FatGeometry fs N) {f : FatFile} {offset toWrite : ℕ} {bytes : Mem}
    (hcs : fs.Chain N d f.firstCluster cs)
    (hin : offset / fs.clusterSize < cs.length) :
    DataOnly fs d (fs.writeSector f offset toWrite bytes d) := by
  have hcluster := hg.clusterSize_pos
  obtain ⟨k, hk, hwalk⟩ := writeWalk_inside hg hcs (n := offset / fs.clusterSize)
    (chain_start hcs ((Nat.zero_le _).trans_lt hin)) (by rwa [Nat.zero_add])
  obtain ⟨hk2, hkN, -⟩ := hcs.used k hk
  have hfits := hg.cluster_fits hkN hk2
  have hsector : offset % fs.clusterSize / 512 < fs.sectorsPerCluster :=
    Nat.div_lt_of_lt_mul (Nat.mul_comm 512 _ ▸ Nat.mod_lt _ hcluster)
  rw [fs.writeSector_eq hwalk rfl, hg.clusterToLba_eq hkN hk2, Nat.mod_eq_of_lt (by omega)]
  exact Touches.write fun l hl _ => by omega

theorem dataOnly_writeLoop (hg : FatGeometry fs N) {f : FatFile} {offset size : ℕ} {buffer : Mem}
    (hin : ∀ j < size, (offset + j) % 2 ^ 32 / fs.clusterSize < cs.length) (fuel : ℕ) :
    ∀ {written : ℕ} {d : FatDisk}, fs.Chain N d f.firstCluster cs →
      DataOnly fs d (fs.writeLoop f offset size buffer fuel written d).2 := by
  induction fuel with
  | zero => exact fun _ => .refl _
  | succ fuel ih =>
    intro written d hcs
    rw [Fat32.writeLoop]
    split_ifs with hlt
    · refine Touches.trans ?_ (ih (DataOnly.chain hg ?_ hcs)) <;>
        exact dataOnly_writeSector hg hcs (hin written hlt)
    · exact .refl d

theorem FatCall.dataOnly (hg : FatGeometry fs N) {call : FatCall} {fuel : ℕ}
    (h : call.run fs fuel d = some d') (hkeep : call.KeepsTable fs N d) : DataOnly fs d d' := by
  cases call with
  | create dir name =>
    obtain ⟨hfull, cs, hcs, k, hk, hslot⟩ := hkeep
    obtain ⟨j, hj⟩ := mem_iff_getElem?.mp hk
    have hsearch : (fs.findFreeEntry fuel dir d).2 = d :=
      findFreeEntry_slot hg hcs hj hslot (chain_start hcs (length_pos_of_mem hk)) (Nat.zero_le j)
    cases Option.some.inj h
    rw [Fat32.create]
    rcases hfind : fs.findFreeEntry fuel dir d with ⟨_ | _ | place, d₁⟩ <;>
      rw [hfind] at hsearch <;> subst hsearch
    · exact .refl _
    · exact .refl _
    · simp only [allocateCluster_full hg hfull]
      exact (Touches.refl _).took 0
  | mkdir dir name =>
    cases Option.some.inj h
    rw [Fat32.mkdir]
    simp only [allocateCluster_full hg hkeep]
    exact (Touches.refl d).took 0
  | write f offset size buffer =>
    obtain ⟨hentry, cs, hcs, hin⟩ := hkeep
    cases Option.some.inj h
    exact (dataOnly_writeLoop hg hin size hcs).trans (touches_writeFile.mono fun l hl => hl ▸ hentry)
  | unlink dir name =>
    obtain ⟨r, hr, rfl⟩ := Option.map_eq_some_iff.mp h
    rw [Fat32.unlink] at hr
    split_ifs at hr with hdots
    · cases Option.some.inj hr
      exact .refl d
    obtain hdot | hdot | ⟨cs, hcs, hfirst⟩ : _ ∨ _ ∨ _ := hkeep
    · exact absurd (.inl hdot) hdots
    · exact absurd (.inr hdot) hdots
    cases cs with
    | nil =>
      cases fuel with
      | zero => cases hr
      | succ fuel =>
        rw [Fat32.unlinkLoop, if_neg fun h => h.2 hcs.chain] at hr
        cases hr
        exact .refl d
    | cons x xs =>
      rcases unlinkLoop_spec hg hcs (.inl (chain_start hcs (Nat.succ_pos _))) hr with
        ⟨rfl, -⟩ | ⟨-, n, first, d₁, hentry, hfree, -, k, hk, htouch⟩
      · exact .refl d
      · rw [Fat32.freeClusterChain, if_pos (hfirst fuel first hentry)] at hfree
        cases Option.some.inj hfree
        exact htouch.mono fun l hl => le_trans (Nat.le_add_right _ _) hl.1

/-- **Runs that leave the table alone keep its copies equal.** -/
theorem fat_mirrored (hg : FatGeometry fs N) {d₀ : FatDisk} (h₀ : Mirrored fs d₀)
    (hrun : MirrorRun fs N d₀ d) : Mirrored fs d := by
  induction hrun with
  | refl => exact h₀
  | step _ h hkeep ih =>
    rcases hkeep with hone | hkeep
    · intro t ht i _ x _
      rw [show t = 0 by omega, Nat.zero_mul, Nat.add_zero]
    · exact (FatCall.dataOnly hg h hkeep).mirrored ih

/-- Two copies of a table in which the clusters 2 and 3 are taken. -/
def mirroredDisk : FatDisk := ⟨fun l x => if (l = 0 ∨ l = 2) ∧ x < 16 then 0xFF else 0, [], []⟩

instance (fs : Fat32) (d : FatDisk) : Decidable (Mirrored fs d) := by
  unfold Mirrored
  infer_instance

theorem mirroredDisk_mirrored : Mirrored smallFat mirroredDisk := by
  decide +kernel

theorem fat_mirrored_small : Mirrored smallFat
    (smallFat.writeFile smallFile 0 4 (fun _ => 7) mirroredDisk).2.2 := by
  have hcs : TableChain 256 endMark (smallFat.getNextCluster mirroredDisk) 2 [2] :=
    .singleton (by decide) (by decide) (by decide +kernel) (by decide)
  have hkeep : (FatCall.write smallFile 0 4 fun _ => 7).KeepsTable smallFat 256 mirroredDisk :=
    ⟨by decide, [2], hcs, by decide⟩
  exact fat_mirrored smallFat_geometry mirroredDisk_mirrored
    (@MirrorRun.step _ _ _ _ _ 0 _ .refl rfl (.inr hkeep))

theorem fat_mirror_broken : Mirrored smallFat mirroredDisk ∧
    ¬ Mirrored smallFat (smallFat.create 2 3 [0x41] mirroredDisk).2 := by
  refine ⟨mirroredDisk_mirrored, fun h => ?_⟩
  have := h 1 (by decide) 0 (by decide) 16 (by decide)
  revert this
  decide +kernel

end KeonOS
