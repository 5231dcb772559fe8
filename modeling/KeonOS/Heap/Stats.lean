import KeonOS.Heap.Laws

/-!
# The statistics of the heap

`kheap_get_stats` takes the total from `kheap_init` and counts the rest on a walk of the block list; the
free bytes are what the total leaves. `GrowthRun` is a run of the heap with the bytes it got from
`VMM::sbrk`.

* **`heap_stats_iff`**: the statistics are those of the blocks exactly if the heap has not grown.
-/

namespace KeonOS

open Word

structure HeapStats where
  totalSize : ℕ
  usedSize : ℕ
  freeSize : ℕ
  blockCount : ℕ
  freeBlockCount : ℕ
deriving DecidableEq

def statsWalk (m : ℕ → HeapBlock) : ℕ → ℕ → HeapStats → Option HeapStats
  | 0, _, _ => none
  | fuel + 1, current, stats =>
    if current = 0 then some stats
    else
      let b := m current
      let stats := { stats with blockCount := add64 stats.blockCount 1 }
      statsWalk m fuel b.next <|
        if b.free = true then
          { stats with
            freeSize := add64 stats.freeSize b.size
            freeBlockCount := add64 stats.freeBlockCount 1 }
        else { stats with usedSize := add64 stats.usedSize b.size }

def kheapGetStats (fuel : ℕ) (h : Heap) : Option HeapStats :=
  (statsWalk h.blocks fuel h.heapStart ⟨h.heapTotalSize, 0, 0, 0, 0⟩).map fun stats =>
    let overhead := stats.blockCount * hdr % 2 ^ 64
    let used := add64 stats.usedSize overhead
    let used := if stats.totalSize < used then stats.totalSize else used
    { stats with usedSize := used, freeSize := sub64 stats.totalSize used }

def payloadOf (free : Bool) (bs : List Block) : ℕ :=
  ((bs.filter fun b => b.free = free).map Block.size).sum

structure StatsExact (stats : HeapStats) (bs : List Block) : Prop where
  total : stats.totalSize = managed bs
  used : stats.usedSize = 24 * bs.length + payloadOf false bs
  free : stats.freeSize = payloadOf true bs
  sum : stats.usedSize + stats.freeSize = stats.totalSize

/-! ## The walk -/

section Walk

variable {m : ℕ → HeapBlock} {bs : List Block}

theorem managed_cons (b : Block) (bs : List Block) : managed (b :: bs) = 24 + b.size + managed bs := by
  simp [managed]

theorem payloadOf_cons (free : Bool) (b : Block) (bs : List Block) :
    payloadOf free (b :: bs) = (if b.free = free then b.size else 0) + payloadOf free bs := by
  by_cases h : b.free = free <;> simp [payloadOf, h]

theorem managed_eq (bs : List Block) :
    managed bs = 24 * bs.length + payloadOf false bs + payloadOf true bs := by
  induction bs with
  | nil => rfl
  | cons b bs ih =>
    rw [managed_cons, payloadOf_cons, payloadOf_cons, ih, List.length_cons]
    cases b.free <;> simp <;> omega

theorem Ordered.managed_le {hi : ℕ} : ∀ {bs : List Block} {lo : ℕ}, Ordered bs →
    (∀ b ∈ bs, lo ≤ b.addr ∧ b.stop ≤ hi) → lo ≤ hi → lo + managed bs ≤ hi
  | [], _, _, _, hle => hle
  | b :: bs, lo, ho, hin, _ => by
    obtain ⟨hb, hbs⟩ := List.pairwise_cons.mp ho
    obtain ⟨hlo, hstop⟩ := hin b List.mem_cons_self
    have := Ordered.managed_le hbs (fun c hc => ⟨hb c hc, (hin c (List.mem_cons_of_mem _ hc)).2⟩) hstop
    rw [managed_cons]
    simp only [Block.stop, hdr] at this
    omega

theorem statsWalk_spec : ∀ {bs : List Block} {a : ℕ} (stats : HeapStats), Represents m a bs →
    stats.usedSize + stats.freeSize + 24 * stats.blockCount + managed bs < 2 ^ 64 → ∃ n,
      ∀ fuel, bs.length < fuel → statsWalk m fuel a stats = some
        ⟨stats.totalSize, stats.usedSize + payloadOf false bs, stats.freeSize + payloadOf true bs,
          stats.blockCount + bs.length, n⟩
  | [], a, stats, h, _ => by
    refine ⟨stats.freeBlockCount, ?_⟩
    rintro (_ | fuel) hf
    · exact absurd hf (Nat.not_lt_zero _)
    · have ha : a = 0 := h.chain
      rw [statsWalk, if_pos ha]
      rfl
  | b :: bs, a, stats, h, hlt => by
    obtain ⟨hsize, hfree⟩ := h.data b List.mem_cons_self
    have ha : a = b.addr := h.chain.1
    rw [managed_cons] at hlt
    obtain ⟨n, hn⟩ := statsWalk_spec (if b.free = true then
        ⟨stats.totalSize, stats.usedSize, stats.freeSize + b.size, stats.blockCount + 1,
          add64 stats.freeBlockCount 1⟩
      else ⟨stats.totalSize, stats.usedSize + b.size, stats.freeSize, stats.blockCount + 1,
        stats.freeBlockCount⟩) h.tail (by split_ifs <;> dsimp only <;> omega)
    refine ⟨n, ?_⟩
    rintro (_ | fuel) hf
    · exact absurd hf (Nat.not_lt_zero _)
    have hn := hn fuel (Nat.lt_of_succ_lt_succ hf)
    rw [statsWalk, if_neg (ha ▸ h.chain.2.1), ha]
    dsimp only
    rw [hfree, hsize, payloadOf_cons, payloadOf_cons, List.length_cons,
      add64_of_lt (a := stats.blockCount) (by omega), add64_of_lt (a := stats.freeSize) (by omega),
      add64_of_lt (a := stats.usedSize) (by omega), hn]
    cases hbf : b.free
    all_goals
      simp
      omega

end Walk

/-! ## Runs -/

section Runs

variable {σ : Type} {sbrk : ℕ → σ → ℕ × σ} {brk : σ → ℕ} {lo g : ℕ} {s s₀ : HeapRun σ}

/-- A run of the heap, with the bytes of the regions it got. -/
inductive GrowthRun (sbrk : ℕ → σ → ℕ × σ) (s₀ : HeapRun σ) : ℕ → HeapRun σ → Prop
  | start : GrowthRun sbrk s₀ 0 s₀
  | malloc {g n p found last : ℕ} {s : HeapRun σ} {h : Heap} {v : σ} : GrowthRun sbrk s₀ g s →
      NoOverflow n → Ends (firstFit s.heap n) (found, last) →
      Ends (fun fuel => kmalloc sbrk fuel s.heap s.vmm n) (p, h, v) →
      GrowthRun sbrk s₀ (g + if found = 0 ∧ p ≠ 0 then grownSize n else 0)
        ⟨h, v, if p = 0 then s.live else p :: s.live⟩
  | free {g p : ℕ} {s : HeapRun σ} {h : Heap} : GrowthRun sbrk s₀ g s → p ∈ s.live →
      Ends (fun fuel => kfree fuel s.heap p) h → GrowthRun sbrk s₀ g ⟨h, s.vmm, s.live.erase p⟩

theorem kmalloc_heapTotalSize {fuel n p : ℕ} {h h' : Heap} {v v' : σ}
    (he : kmalloc sbrk fuel h v n = some (p, h', v')) : h'.heapTotalSize = h.heapTotalSize := by
  rw [kmalloc] at he
  by_cases h0 : h.heapStart = 0
  · rw [if_pos h0] at he
    cases he
    rfl
  rw [if_neg h0] at he
  rcases hscan : kmallocScan h.blocks (roundSize n) fuel h.heapStart 0 with _ | ⟨current, last⟩
  all_goals simp only [hscan] at he
  · cases he
  split_ifs at he <;> cases he
  · unfold kmallocTake
    dsimp only
    split_ifs <;> rfl
  all_goals rfl

theorem kfree_heapTotalSize {fuel p : ℕ} {h h' : Heap} (he : kfree fuel h p = some h') :
    h'.heapTotalSize = h.heapTotalSize := by
  unfold kfree at he
  split_ifs at he
  · cases he
    rfl
  · obtain ⟨m, -, rfl⟩ := Option.map_eq_some_iff.mp he
    rfl

theorem GrowthRun.managed (hk : SbrkOk sbrk brk) (h₀ : HeapInit lo brk s₀) (hs : GrowthRun sbrk s₀ g s) :
    ∃ bs, RunBy lo brk s bs ∧ managed bs = s.heap.heapTotalSize + g := by
  induction hs with
  | start => exact RunBy.init (hk.brk_le _) h₀
  | malloc _ hn hfit hend ih =>
    obtain ⟨bs, h, hsum⟩ := ih
    obtain ⟨bs', h', hsum'⟩ := h.malloc hk hn hfit hend
    obtain ⟨_, hfuel⟩ := hend.exists_eq
    refine ⟨bs', h', ?_⟩
    rw [hsum', hsum, kmalloc_heapTotalSize hfuel, Nat.add_assoc]
  | free _ hp hend ih =>
    obtain ⟨bs, h, hsum⟩ := ih
    obtain ⟨bs', h', hsum'⟩ := h.free hp hend
    obtain ⟨_, hfuel⟩ := hend.exists_eq
    exact ⟨bs', h', by rw [hsum', hsum, kfree_heapTotalSize hfuel]⟩

/-- **The statistics are right exactly if the heap has not grown**, in every state of every run. -/
theorem heap_stats_iff (hk : SbrkOk sbrk brk) (h₀ : HeapInit lo brk s₀) (hs : GrowthRun sbrk s₀ g s) :
    ∃ bs stats, Represents s.heap.blocks s.heap.heapStart bs ∧
      Ends (fun fuel => kheapGetStats fuel s.heap) stats ∧ (StatsExact stats bs ↔ g = 0) := by
  obtain ⟨bs, h, hsum⟩ := hs.managed hk h₀
  have hparts := managed_eq bs
  have hlt : managed bs < 2 ^ 64 := by
    obtain ⟨b, hb⟩ := List.exists_mem_of_ne_nil _ h.heap.ne_nil
    obtain ⟨hlo, -, hhi⟩ := h.heap.within b hb
    have := h.heap.ordered.managed_le (fun c hc => ⟨(h.heap.within c hc).1, (h.heap.within c hc).2.2⟩)
      (hlo.trans (b.addr_lt_stop.le.trans hhi))
    have := h.heap.lo_pos
    have := h.heap.hi_le
    omega
  obtain ⟨n, hwalk⟩ := statsWalk_spec ⟨s.heap.heapTotalSize, 0, 0, 0, 0⟩ h.heap.rep (by simpa using hlt)
  have hend : Ends (fun fuel => kheapGetStats fuel s.heap) _ := Ends.map _ ⟨_, hwalk⟩
  refine ⟨bs, _, h.heap.rep, hend, ?_⟩
  have hover : (0 + bs.length) * hdr % 2 ^ 64 = 24 * bs.length := by
    rw [Nat.zero_add, Nat.mul_comm, Nat.mod_eq_of_lt (by simp only [hdr]; omega)]
  dsimp only
  rw [hover, add64_of_lt (by omega), Nat.zero_add]
  constructor
  · intro hex
    have := hex.total
    dsimp only at this
    omega
  · rintro rfl
    rw [if_neg (by omega), sub64_of_le (by omega)]
    exact ⟨by dsimp only; omega, by dsimp only; omega, by dsimp only; omega, by dsimp only; omega⟩

theorem heap_stats_iff_onePage : ∃ bs stats, Represents onePage.heap.blocks onePage.heap.heapStart bs ∧
      Ends (fun fuel => kheapGetStats fuel onePage.heap) stats ∧ (StatsExact stats bs ↔ 0 = 0) :=
  heap_stats_iff bumpSbrk_ok onePage_init .start

/-- After a `kmalloc(4096)` in a heap of one page, the 4072 free bytes of the page are not reported. -/
theorem heap_stats_clamped : ∃ s bs stats, GrowthRun bumpSbrk onePage 8192 s ∧
    Represents s.heap.blocks s.heap.heapStart bs ∧
    Ends (fun fuel => kheapGetStats fuel s.heap) stats ∧ managed bs = 12288 ∧
    stats.totalSize = 4096 ∧ payloadOf true bs = 4072 ∧ stats.freeSize = 0 := by
  have hends : ∀ {α : Type} {f : ℕ → Option α} {r}, (∀ k, f (k + 3) = some r) → Ends f r :=
    fun h => ⟨3, fun k hk => by
      obtain ⟨k, rfl⟩ := Nat.exists_eq_add_of_le' hk
      exact h k⟩
  have hfit : Ends (firstFit onePage.heap 4096) (0, 0x100000) := hends fun _ => rfl
  have hend : Ends (fun fuel => kmalloc bumpSbrk fuel onePage.heap onePage.vmm 4096) (0x101018,
      (onePage.heap.put 0x101000 ⟨8168, false, 0⟩).put 0x100000 ⟨4072, true, 0x101000⟩, 0x103000) := by
    refine hends fun k => ?_
    have hscan : kmallocScan onePage.heap.blocks (roundSize 4096) (k + 3) onePage.heap.heapStart 0 =
        some (0, 0x100000) := rfl
    have hsbrk : bumpSbrk (add64 (roundSize 4096) hdr) onePage.vmm = (0x101000, 0x103000) := by
      decide +kernel
    rw [kmalloc, if_neg (by decide)]
    simp only [hscan, hsbrk]
    rfl
  have hrun := GrowthRun.malloc .start (by decide) hfit hend
  refine ⟨_, [⟨0x100000, 4072, true⟩, ⟨0x101000, 8168, false⟩], ⟨4096, 4096, 0, 2, 1⟩, hrun, ⟨?_, ?_⟩,
    hends fun _ => rfl, rfl, rfl, rfl, rfl⟩
  · exact ⟨rfl, by decide, rfl, by decide, rfl⟩
  · simp [Heap.put]

end Runs

end KeonOS
