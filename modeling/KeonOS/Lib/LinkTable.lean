import KeonOS.Lib.Chain

/-!
# Tables of links

A table with an entry for each of the numbers below `N`: zero for a free number, an end mark (a value of
at least `fin`), or the number that follows. The numbers from 2 on are the nodes of chains; the first two
entries are reserved.

* **`LinkTable.alloc`**, **`LinkTable.join`**, **`LinkTable.release`**: a free number becomes a chain, a
  chain is appended to another one, a chain becomes free;
* **`TableExtend`**: free numbers have been appended to a chain, and nothing else has changed.
-/

/-- The number after `k`, zero at the end. -/
def linkOf (fin : ℕ) (t : ℕ → ℕ) (k : ℕ) : ℕ := if fin ≤ t k then 0 else t k

/-- `cs` are the numbers from `c` to the end of its chain, all of them in use. -/
structure TableChain (N fin : ℕ) (t : ℕ → ℕ) (c : ℕ) (cs : List ℕ) : Prop where
  chain : Chain 0 (linkOf fin t) c cs
  used : ∀ x ∈ cs, 2 ≤ x ∧ x < N ∧ t x ≠ 0

structure LinkTable (N fin : ℕ) (t : ℕ → ℕ) : Prop where
  reserved : t 0 ≠ 0 ∧ t 1 ≠ 0
  links : ∀ k, 2 ≤ k → k < N → t k ≠ 0 → fin ≤ t k ∨ 2 ≤ t k ∧ t k < N ∧ t (t k) ≠ 0
  single : ∀ j k, 2 ≤ j → j < N → 2 ≤ k → k < N → t j ≠ 0 → t j < fin → t j = t k → j = k
  ends : ∀ k, 2 ≤ k → k < N → t k ≠ 0 → ∃ cs, TableChain N fin t k cs

namespace TableChain

variable {N fin c e : ℕ} {t t' : ℕ → ℕ} {cs ds xs ys : List ℕ} {x y : ℕ}

theorem unique (h : TableChain N fin t c cs) (h' : TableChain N fin t c ds) : cs = ds :=
  h.chain.unique h'.chain

theorem nodup (h : TableChain N fin t c cs) : cs.Nodup := h.chain.nodup

theorem head_mem (h : TableChain N fin t c cs) (hc : c ≠ 0) : c ∈ cs := h.chain.mem_of_ne_null hc

theorem length_le (h : TableChain N fin t c cs) : cs.length ≤ N := by
  have hsub : cs.toFinset ⊆ Finset.range N := fun x hx =>
    Finset.mem_range.mpr (h.used x (List.mem_toFinset.mp hx)).2.1
  have hcard := Finset.card_le_card hsub
  rwa [List.toFinset_card_of_nodup h.nodup, Finset.card_range] at hcard

theorem congr (h : TableChain N fin t c cs) (ht : ∀ x ∈ cs, t' x = t x) :
    TableChain N fin t' c cs := by
  refine ⟨h.chain.congr fun x hx => ?_, fun x hx => ?_⟩
  · rw [linkOf, ht x hx, linkOf]
  · rw [ht x hx]
    exact h.used x hx

theorem tail (h : TableChain N fin t c (xs ++ y :: ys)) : TableChain N fin t (linkOf fin t y) ys :=
  ⟨h.chain.next_of_append, fun x hx => h.used x (by simp [hx])⟩

theorem rest (h : TableChain N fin t c (x :: xs)) : TableChain N fin t (linkOf fin t x) xs :=
  ⟨h.chain.2.2, fun y hy => h.used y (List.mem_cons_of_mem _ hy)⟩

theorem next (h : TableChain N fin t c (xs ++ x :: y :: ys)) : t x = y := by
  have hlink : linkOf fin t x = y := h.chain.next_of_append.1
  have hy := h.chain.ne_null y (by simp)
  unfold linkOf at hlink
  split_ifs at hlink
  · exact absurd hlink.symm hy
  · exact hlink

theorem last (h : TableChain N fin t c (xs ++ [x])) : fin ≤ t x := by
  have hlink : linkOf fin t x = 0 := h.chain.next_of_append
  unfold linkOf at hlink
  split_ifs at hlink with hfin
  · exact hfin
  · exact absurd hlink (h.used x (by simp)).2.2

theorem ne_last (h : TableChain N fin t c (xs ++ [x])) (hy : y ∈ xs) : y ≠ x := by
  have hnodup := List.nodup_append.mp h.nodup
  exact hnodup.2.2 y hy x (List.mem_singleton_self x)

theorem append (h : TableChain N fin t c (xs ++ [x])) (hy : TableChain N fin t' y ys) (hy0 : y ≠ 0)
    (hyfin : y < fin) (hx : t' x = y) (hxs : ∀ z ∈ xs, t' z = t z) :
    TableChain N fin t' c (xs ++ x :: ys) := by
  have hlink : linkOf fin t' x = y := by
    rw [linkOf, hx, if_neg (by omega)]
  refine ⟨h.chain.replace_after (fun z hz => ?_) (by rw [hlink]; exact hy.chain), fun z hz => ?_⟩
  · rw [linkOf, hxs z hz, linkOf]
  rcases List.mem_append.mp hz with hz | hz
  · rw [hxs z hz]
    exact h.used z (by simp [hz])
  · rcases List.mem_cons.mp hz with rfl | hz
    · have := h.used z (by simp)
      exact ⟨this.1, this.2.1, by rw [hx]; exact hy0⟩
    · exact hy.used z hz

theorem singleton (hx : 2 ≤ x) (hxN : x < N) (hxt : fin ≤ t x) (hfin : 0 < fin) :
    TableChain N fin t x [x] := by
  refine ⟨⟨rfl, by omega, if_pos hxt⟩, fun z hz => ?_⟩
  obtain rfl := List.mem_singleton.mp hz
  exact ⟨hx, hxN, by omega⟩

end TableChain

def ChainHead (N : ℕ) (t : ℕ → ℕ) (c : ℕ) : Prop := ∀ j, 2 ≤ j → j < N → t j ≠ c

def freeCount (N : ℕ) (t : ℕ → ℕ) : ℕ := ((Finset.range N).filter fun k => t k = 0).card

namespace TableChain

variable {N fin c : ℕ} {t : ℕ → ℕ} {cs : List ℕ} {x y : ℕ}

theorem exists_pred : ∀ {cs : List ℕ} {c : ℕ}, TableChain N fin t c cs → y ∈ cs → y ≠ c →
    ∃ p ∈ cs, t p = y
  | [], _, _, hy, _ => absurd hy List.not_mem_nil
  | x :: cs, c, h, hy, hyc => by
    obtain rfl : c = x := h.chain.1
    have hrest : y ∈ cs := (List.mem_cons.mp hy).resolve_left hyc
    have htail : TableChain N fin t (linkOf fin t c) cs := h.rest
    by_cases hnext : y = linkOf fin t c
    · refine ⟨c, List.mem_cons_self .., ?_⟩
      have hy0 := htail.chain.ne_null y hrest
      unfold linkOf at hnext
      split_ifs at hnext
      · exact absurd hnext hy0
      · exact hnext.symm
    · obtain ⟨p, hp, hpy⟩ := exists_pred htail hrest hnext
      exact ⟨p, List.mem_cons_of_mem _ hp, hpy⟩

theorem head_notMem (h : TableChain N fin t c cs) (hy : ChainHead N t y) (hyc : y ≠ c) : y ∉ cs := by
  intro hmem
  obtain ⟨p, hp, hpy⟩ := h.exists_pred hmem hyc
  exact hy p (h.used p hp).1 (h.used p hp).2.1 hpy

theorem next_at : ∀ {cs : List ℕ} {c i : ℕ}, TableChain N fin t c cs → cs[i]? = some x →
    cs[i + 1]? = some y → t x = y
  | a :: b :: cs, c, 0, h, hx, hy => by
    obtain rfl : a = x := by simpa using hx
    obtain rfl : b = y := by simpa using hy
    have h' : TableChain N fin t c ([] ++ a :: b :: cs) := h
    exact h'.next
  | [a], c, 0, h, hx, hy => by simp at hy
  | a :: cs, c, i + 1, h, hx, hy => next_at h.rest (by simpa using hx) (by simpa using hy)
  | [], c, i, h, hx, hy => by simp at hx

theorem last_at (h : TableChain N fin t c cs) {i : ℕ} (hx : cs[i]? = some x)
    (hi : cs.length ≤ i + 1) : fin ≤ t x ∧ ∃ xs, cs = xs ++ [x] := by
  obtain ⟨hlt, hget⟩ := List.getElem?_eq_some_iff.mp hx
  have hne : cs ≠ [] := List.ne_nil_of_length_pos (by omega)
  have hlast : cs.getLast hne = x := by
    rw [List.getLast_eq_getElem, ← hget]
    congr 1
    omega
  have hcs : cs = cs.dropLast ++ [x] := by
    rw [← hlast, List.dropLast_append_getLast hne]
  exact ⟨(hcs ▸ h : TableChain N fin t c (cs.dropLast ++ [x])).last, _, hcs⟩

theorem used_at (h : TableChain N fin t c cs) {i : ℕ} (hx : cs[i]? = some x) : 2 ≤ x ∧ x < N ∧ t x ≠ 0 :=
  h.used x (List.mem_of_getElem? hx)

theorem next_in (h : TableChain N fin t c cs) {i : ℕ} (hx : cs[i]? = some x) (hlast : i + 1 < cs.length) :
    cs[i + 1]? = some (t x) ∧ t x < N := by
  have hnext := List.getElem?_eq_getElem hlast
  rw [h.next_at hx hnext]
  exact ⟨hnext, (h.used_at hnext).2.1⟩

/-- After `i` links a walk along the chain is at `x`, which is in the chain or behind its end. -/
def At (fin : ℕ) (cs : List ℕ) (i x : ℕ) : Prop := cs[i]? = some x ∨ i = cs.length ∧ fin ≤ x

theorem At.le {i : ℕ} (h : At fin cs i x) : i ≤ cs.length :=
  h.elim (fun h => (List.getElem?_eq_some_iff.mp h).1.le) fun h => h.1.le

theorem at_succ (h : TableChain N fin t c cs) {i : ℕ} (hx : cs[i]? = some x) : At fin cs (i + 1) (t x) := by
  by_cases hlast : i + 1 < cs.length
  · exact .inl (h.next_in hx hlast).1
  · have := (List.getElem?_eq_some_iff.mp hx).1
    exact .inr ⟨by omega, (h.last_at hx (by omega)).1⟩

theorem ne_start (h : TableChain N fin t c cs) (hN : N ≤ fin) (hx : x ∈ cs) : t x ≠ c := by
  intro hxc
  obtain ⟨xs, ys, rfl⟩ := List.append_of_mem hx
  have hc0 : c ≠ 0 := by
    rw [← hxc]
    exact (h.used x hx).2.2
  have hcN : c < N := (h.used c (h.head_mem hc0)).2.1
  have hlink : linkOf fin t x = c := by
    rw [linkOf, hxc, if_neg (by omega)]
  have hshort := h.tail.unique (hlink ▸ h)
  have := congrArg List.length hshort
  simp at this
  omega

end TableChain

namespace LinkTable

variable {N fin c k v x y : ℕ} {t t' : ℕ → ℕ} {cs cs' xs ys : List ℕ}

theorem congr (h : LinkTable N fin t) (hN : 2 ≤ N) (ht : ∀ k < N, t' k = t k) : LinkTable N fin t' where
  reserved := by
    rw [ht 0 (by omega), ht 1 (by omega)]
    exact h.reserved
  links k h2 hk := by
    rw [ht k hk]
    intro hused
    refine (h.links k h2 hk hused).imp_right fun ⟨h2', hN', hnext⟩ => ⟨h2', hN', ?_⟩
    rwa [ht _ hN']
  single j k hj hjN hk hkN := by
    rw [ht j hjN, ht k hkN]
    exact h.single j k hj hjN hk hkN
  ends k h2 hk := by
    rw [ht k hk]
    intro hused
    obtain ⟨cs, hcs⟩ := h.ends k h2 hk hused
    exact ⟨cs, hcs.congr fun x hx => ht x (hcs.used x hx).2.1⟩

theorem disjoint (h : LinkTable N fin t) (hN : N ≤ fin) (hcs : TableChain N fin t c cs)
    (hc : ChainHead N t c) : ∀ {cs' : List ℕ} {c' : ℕ}, TableChain N fin t c' cs' → c' ∉ cs →
      ∀ x ∈ cs', x ∉ cs
  | [], _, _, _, x, hx => absurd hx List.not_mem_nil
  | y :: ys, c', hcs', hc', x, hx => by
    obtain rfl : c' = y := hcs'.chain.1
    rcases List.mem_cons.mp hx with rfl | hx
    · exact hc'
    have htail : TableChain N fin t (linkOf fin t c') ys := hcs'.rest
    refine disjoint h hN hcs hc htail (fun hmem => ?_) x hx
    -- the next number is on the chain of the head, so that the one before it is, too
    obtain ⟨hc2, hcN, hc0⟩ := hcs'.used c' (List.mem_cons_self ..)
    have hne := hcs.chain.ne_null _ hmem
    have hlink : linkOf fin t c' = t c' := by
      unfold linkOf at hne ⊢
      split_ifs at hne ⊢
      · exact absurd rfl hne
      · rfl
    rw [hlink] at hmem
    obtain ⟨p, hp, hpt⟩ := hcs.exists_pred hmem (hc c' hc2 hcN)
    obtain ⟨hp2, hpN, -⟩ := hcs.used p hp
    have hfin : t c' < fin := lt_of_lt_of_le (hcs.used _ hmem).2.1 hN
    exact hc' (h.single c' p hc2 hcN hp2 hpN hc0 hfin hpt.symm ▸ hp)

theorem head_of_free (h : LinkTable N fin t) (hN : N ≤ fin) (hk2 : 2 ≤ k) (hk : k < N)
    (hfree : t k = 0) : ChainHead N t k := by
  intro j hj2 hjN hjk
  rcases h.links j hj2 hjN (by omega) with hend | ⟨-, -, hused⟩
  · omega
  · exact hused (hjk ▸ hfree)

theorem alloc (h : LinkTable N fin t) (hfin : 0 < fin) (hk2 : 2 ≤ k) (hfree : t k = 0)
    (hv : fin ≤ v) : LinkTable N fin (Function.update t k v) where
  reserved := by
    rw [Function.update_of_ne (by omega), Function.update_of_ne (by omega)]
    exact h.reserved
  links j hj2 hjN hj := by
    by_cases hjk : j = k
    · rw [hjk, Function.update_self]
      exact .inl hv
    · rw [Function.update_of_ne hjk] at hj ⊢
      refine (h.links j hj2 hjN hj).imp_right fun ⟨h2, hlt, hused⟩ => ⟨h2, hlt, ?_⟩
      have hne : t j ≠ k := fun heq => hused (heq ▸ hfree)
      rwa [Function.update_of_ne hne]
  single i j hi2 hiN hj2 hjN := by
    by_cases hik : i = k
    · rw [hik, Function.update_self]
      omega
    by_cases hjk : j = k
    · rw [hjk, Function.update_self, Function.update_of_ne hik]
      omega
    · rw [Function.update_of_ne hik, Function.update_of_ne hjk]
      exact h.single i j hi2 hiN hj2 hjN
  ends j hj2 hjN hj := by
    by_cases hjk : j = k
    · exact ⟨[j], TableChain.singleton hj2 hjN (by rw [hjk, Function.update_self]; exact hv) hfin⟩
    · rw [Function.update_of_ne hjk] at hj
      obtain ⟨cs, hcs⟩ := h.ends j hj2 hjN hj
      refine ⟨cs, hcs.congr fun x hx => Function.update_of_ne (fun hxk => ?_) _ _⟩
      exact (hcs.used x hx).2.2 (hxk ▸ hfree)

theorem alloc_new (h : LinkTable N fin t) (hN : N ≤ fin) (hk2 : 2 ≤ k) (hk : k < N) (hfree : t k = 0)
    (hv : fin ≤ v) : TableChain N fin (Function.update t k v) k [k] ∧
      ChainHead N (Function.update t k v) k := by
  refine ⟨.singleton hk2 hk (by rwa [Function.update_self]) (by omega), fun j hj2 hj => ?_⟩
  by_cases hjk : j = k
  · rw [hjk, Function.update_self]
    omega
  · rw [Function.update_of_ne hjk]
    exact h.head_of_free hN hk2 hk hfree j hj2 hj

theorem of_ends (hfin : 0 < fin) (hres : t 0 ≠ 0 ∧ t 1 ≠ 0)
    (h : ∀ k, 2 ≤ k → k < N → t k = 0 ∨ fin ≤ t k) : LinkTable N fin t where
  reserved := hres
  links k hk2 hk h0 := .inl ((h k hk2 hk).resolve_left h0)
  single j _ hj2 hj _ _ h0 hlt := by
    have := (h j hj2 hj).resolve_left h0
    omega
  ends k hk2 hk h0 := ⟨[k], .singleton hk2 hk ((h k hk2 hk).resolve_left h0) hfin⟩

theorem join (h : LinkTable N fin t) (hN : N ≤ fin) (hx2 : 2 ≤ x) (hxN : x < N) (hend : fin ≤ t x)
    (hys : TableChain N fin t y ys) (hy0 : y ≠ 0) (hy : ChainHead N t y) (hxy : x ∉ ys) :
    LinkTable N fin (Function.update t x y) := by
  obtain ⟨hy2, hyN, hyt⟩ := hys.used y (hys.head_mem hy0)
  have hyx : y ≠ x := fun heq => hxy (heq ▸ hys.head_mem hy0)
  refine ⟨?_, fun j hj2 hjN hj => ?_, fun i j hi2 hiN hj2 hjN hi0 hifin hij => ?_,
    fun j hj2 hjN hj => ?_⟩
  · rw [Function.update_of_ne (by omega), Function.update_of_ne (by omega)]
    exact h.reserved
  · by_cases hjx : j = x
    · rw [hjx, Function.update_self, Function.update_of_ne hyx]
      exact .inr ⟨hy2, hyN, hyt⟩
    rw [Function.update_of_ne hjx] at hj ⊢
    refine (h.links j hj2 hjN hj).imp_right fun ⟨h2, hlt, hused⟩ => ⟨h2, hlt, ?_⟩
    by_cases htx : t j = x
    · rwa [htx, Function.update_self]
    · rwa [Function.update_of_ne htx]
  · by_cases hix : i = x <;> by_cases hjx : j = x
    · rw [hix, hjx]
    · rw [hix, Function.update_self, Function.update_of_ne hjx] at hij
      exact absurd hij.symm (hy j hj2 hjN)
    · rw [hjx, Function.update_self, Function.update_of_ne hix] at hij
      exact absurd hij (hy i hi2 hiN)
    · rw [Function.update_of_ne hix] at hi0 hifin hij
      rw [Function.update_of_ne hjx] at hij
      exact h.single i j hi2 hiN hj2 hjN hi0 hifin hij
  · have hjt : t j ≠ 0 := by
      by_cases hjx : j = x
      · rw [hjx]
        omega
      · rwa [Function.update_of_ne hjx] at hj
    obtain ⟨cs, hcs⟩ := h.ends j hj2 hjN hjt
    by_cases hxcs : x ∈ cs
    · -- the chain that ends at `x` goes on with `ys`
      obtain ⟨us, vs, rfl⟩ := List.append_of_mem hxcs
      have hvs : vs = [] := by
        have htail := hcs.tail
        rw [linkOf, if_pos hend] at htail
        exact htail.chain.unique rfl
      subst hvs
      refine ⟨us ++ x :: ys, hcs.append (hys.congr fun z hz => ?_) hy0 (by omega)
        (Function.update_self ..) fun z hz => Function.update_of_ne (hcs.ne_last hz) _ _⟩
      exact Function.update_of_ne (ne_of_mem_of_not_mem hz hxy) _ _
    · exact ⟨cs, hcs.congr fun z hz =>
        Function.update_of_ne (ne_of_mem_of_not_mem hz hxcs) _ _⟩

theorem release (h : LinkTable N fin t) (hN : N ≤ fin) (hcs : TableChain N fin t c cs)
    (hc : ChainHead N t c) : LinkTable N fin fun k => if k ∈ cs then 0 else t k := by
  have hlow : ∀ k < 2, k ∉ cs := fun k hk hmem => by
    have := (hcs.used k hmem).1
    omega
  have hnot : ∀ {j}, (if j ∈ cs then 0 else t j) ≠ 0 → j ∉ cs := fun hj hmem => hj (if_pos hmem)
  refine ⟨?_, fun j hj2 hjN hj => ?_, fun i j hi2 hiN hj2 hjN hi0 hifin hij => ?_,
    fun j hj2 hjN hj => ?_⟩
  · simp only [hlow 0 (by omega), hlow 1 (by omega), if_false]
    exact h.reserved
  · have hjcs := hnot hj
    simp only [if_neg hjcs] at hj ⊢
    refine (h.links j hj2 hjN hj).imp_right fun ⟨h2, hlt, hused⟩ => ⟨h2, hlt, ?_⟩
    rw [if_neg fun hmem => ?_]
    · exact hused
    · obtain ⟨p, hp, hpt⟩ := hcs.exists_pred hmem (hc j hj2 hjN)
      obtain ⟨hp2, hpN, -⟩ := hcs.used p hp
      exact hjcs (h.single j p hj2 hjN hp2 hpN hj (by omega) hpt.symm ▸ hp)
  · have hics := hnot hi0
    have hjcs : j ∉ cs := hnot (by rw [← hij]; exact hi0)
    simp only [if_neg hics] at hi0 hifin hij
    simp only [if_neg hjcs] at hij
    exact h.single i j hi2 hiN hj2 hjN hi0 hifin hij
  · have hjcs := hnot hj
    simp only [if_neg hjcs] at hj
    obtain ⟨ds, hds⟩ := h.ends j hj2 hjN hj
    exact ⟨ds, hds.congr fun x hx => if_neg (h.disjoint hN hcs hc hds hjcs x hx)⟩

end LinkTable

/-! ## Extensions -/

/-- The chain `cs` of `c` has been extended with the free numbers `ks`. -/
structure TableExtend (N fin : ℕ) (t t' : ℕ → ℕ) (c : ℕ) (cs ks : List ℕ) : Prop where
  table : LinkTable N fin t'
  chain : TableChain N fin t' c (cs ++ ks)
  fresh : ∀ k ∈ ks, t k = 0
  frame : ∀ x < N, x ∉ cs → x ∉ ks → t' x = t x
  free : freeCount N t' + ks.length = freeCount N t

theorem freeCount_congr {N : ℕ} {t t' : ℕ → ℕ} (h : ∀ k < N, t' k = 0 ↔ t k = 0) :
    freeCount N t' = freeCount N t := by
  unfold freeCount
  congr 1
  refine Finset.filter_congr fun k hk => h k (Finset.mem_range.mp hk)

theorem freeCount_alloc {N k v : ℕ} {t : ℕ → ℕ} (hk : k < N) (hfree : t k = 0) (hv : v ≠ 0) :
    freeCount N (Function.update t k v) + 1 = freeCount N t := by
  have hmem : k ∈ (Finset.range N).filter fun k => t k = 0 := by simp [hk, hfree]
  have heq : ((Finset.range N).filter fun j => Function.update t k v j = 0) =
      ((Finset.range N).filter fun k => t k = 0).erase k := by
    ext j
    by_cases hjk : j = k
    · simp [hjk, hv]
    · simp [hjk]
  rw [freeCount, heq, Finset.card_erase_add_one hmem, freeCount]

theorem exists_free {N : ℕ} {t : ℕ → ℕ} (h : 0 < freeCount N t) : ∃ k < N, t k = 0 := by
  obtain ⟨k, hk⟩ := Finset.card_pos.mp h
  obtain ⟨hk, hfree⟩ := Finset.mem_filter.mp hk
  exact ⟨k, Finset.mem_range.mp hk, hfree⟩

def freeList (N : ℕ) (t : ℕ → ℕ) : List ℕ := (List.range N).filter fun k => t k = 0

section FreeList

variable {N k : ℕ} {t t' : ℕ → ℕ} {ks : List ℕ}

theorem mem_freeList : k ∈ freeList N t ↔ k < N ∧ t k = 0 := by simp [freeList]

theorem nodup_freeList : (freeList N t).Nodup := List.nodup_range.filter _

theorem le_of_freeList (h : freeList N t = k :: ks) {j : ℕ} (hj : j < N) (hfree : t j = 0) : k ≤ j := by
  have hsorted : (freeList N t).Pairwise (· < ·) := List.pairwise_lt_range.filter _
  have hmem : j ∈ freeList N t := mem_freeList.mpr ⟨hj, hfree⟩
  rw [h] at hsorted hmem
  rcases List.mem_cons.mp hmem with rfl | hmem
  · exact le_rfl
  · exact (List.rel_of_pairwise_cons hsorted hmem).le

theorem freeList_taken (h : freeList N t = k :: ks) (ht : ∀ x < N, t' x = 0 ↔ t x = 0 ∧ x ≠ k) :
    freeList N t' = ks := by
  have hfilter : freeList N t' = (freeList N t).filter fun x => x ≠ k := by
    rw [freeList, freeList, List.filter_filter]
    refine List.filter_congr fun x hx => ?_
    rw [← Bool.decide_and, decide_eq_decide, ht x (List.mem_range.mp hx), and_comm]
  have hnodup : (freeList N t).Nodup := nodup_freeList
  rw [h, List.nodup_cons] at hnodup
  rw [hfilter, h, List.filter_cons_of_neg (by simp), List.filter_eq_self]
  intro x hx
  exact decide_eq_true fun heq => hnodup.1 (heq ▸ hx)

end FreeList

namespace TableExtend

variable {N fin c c' k v x : ℕ} {t t' t'' : ℕ → ℕ} {cs cs' ks ks' xs : List ℕ}

theorem refl (h : LinkTable N fin t) (hcs : TableChain N fin t c cs) : TableExtend N fin t t c cs [] :=
  ⟨h, by rwa [List.append_nil], by simp, by simp, by simp⟩

theorem congr (h : TableExtend N fin t t' c cs ks) (hN : 2 ≤ N) (ht : ∀ k < N, t'' k = t' k) :
    TableExtend N fin t t'' c cs ks where
  table := h.table.congr hN ht
  chain := h.chain.congr fun x hx => ht x (h.chain.used x hx).2.1
  fresh := h.fresh
  frame x hx hcs hks := (ht x hx).trans (h.frame x hx hcs hks)
  free := by
    rw [freeCount_congr fun k hk => by rw [ht k hk]]
    exact h.free

theorem trans (h : TableExtend N fin t t' c cs ks) (h' : TableExtend N fin t' t'' c (cs ++ ks) ks') :
    TableExtend N fin t t'' c cs (ks ++ ks') where
  table := h'.table
  chain := by
    rw [← List.append_assoc]
    exact h'.chain
  fresh k hk := by
    rcases List.mem_append.mp hk with hk | hk
    · exact h.fresh k hk
    · have hkN : k < N := (h'.chain.used k (by simp [hk])).2.1
      have hold : k ∉ cs ++ ks := fun hmem => (h.chain.used k hmem).2.2 (h'.fresh k hk)
      rw [List.mem_append, not_or] at hold
      rw [← h.frame k hkN hold.1 hold.2, h'.fresh k hk]
  frame x hx hcs hks := by
    rw [List.mem_append, not_or] at hks
    rw [h'.frame x hx (by simp [hcs, hks.1]) hks.2, h.frame x hx hcs hks.1]
  free := by
    have h1 := h.free
    have h2 := h'.free
    rw [List.length_append]
    omega

theorem freeList (h : TableExtend N fin t t' c cs [k]) (hcs : TableChain N fin t c cs)
    (hk : freeList N t = k :: ks) : freeList N t' = ks := by
  refine freeList_taken hk fun x hx => ?_
  by_cases hmem : x ∈ cs ++ [k]
  · refine iff_of_false (h.chain.used x hmem).2.2 fun ⟨h0, hne⟩ => ?_
    rcases List.mem_append.mp hmem with hmem | hmem
    · exact (hcs.used x hmem).2.2 h0
    · exact hne (List.mem_singleton.mp hmem)
  · rw [List.mem_append, not_or] at hmem
    rw [h.frame x hx hmem.1 hmem.2]
    exact (and_iff_left fun heq => hmem.2 (List.mem_singleton.mpr heq)).symm

theorem snoc (h : LinkTable N fin t) (hN : N ≤ fin) (hcs : TableChain N fin t c (xs ++ [x]))
    (hk2 : 2 ≤ k) (hk : k < N) (hfree : t k = 0) (hv : fin ≤ v) :
    TableExtend N fin t (Function.update (Function.update t k v) x k) c (xs ++ [x]) [k] := by
  obtain ⟨hx2, hxN, hx0⟩ := hcs.used x (by simp)
  have hxk : x ≠ k := fun heq => hx0 (heq ▸ hfree)
  have halloc := h.alloc (by omega) hk2 hfree hv
  obtain ⟨hsingle, hhead⟩ := h.alloc_new hN hk2 hk hfree hv
  have hkcs : k ∉ xs ++ [x] := fun hmem => (hcs.used k hmem).2.2 hfree
  have hcs' : TableChain N fin (Function.update t k v) c (xs ++ [x]) :=
    hcs.congr fun z hz => Function.update_of_ne (ne_of_mem_of_not_mem hz hkcs) _ _
  refine ⟨halloc.join hN hx2 hxN hcs'.last hsingle (by omega) hhead (by simpa using hxk), ?_, ?_, ?_, ?_⟩
  · rw [List.append_assoc]
    refine hcs'.append (hsingle.congr fun z hz => ?_) (by omega) (by omega) (Function.update_self ..)
      fun z hz => Function.update_of_ne (hcs.ne_last hz) _ _
    obtain rfl := List.mem_singleton.mp hz
    exact Function.update_of_ne (Ne.symm hxk) _ _
  · simpa using hfree
  · intro z _ hz hzk
    simp only [List.mem_append, List.mem_singleton, not_or] at hz hzk
    rw [Function.update_of_ne hz.2, Function.update_of_ne hzk]
  · rw [List.length_singleton, ← freeCount_alloc hk hfree (v := v) (by omega)]
    congr 1
    refine freeCount_congr fun j hj => ?_
    by_cases hjx : j = x
    · rw [hjx, Function.update_self, Function.update_of_ne hxk]
      omega
    · rw [Function.update_of_ne hjx]

theorem other (h : TableExtend N fin t t' c cs ks) (ht : LinkTable N fin t) (hN : N ≤ fin)
    (hcs : TableChain N fin t c cs) (hc : ChainHead N t c) (hcs' : TableChain N fin t c' cs')
    (hc' : c' ∉ cs) : TableChain N fin t' c' cs' := by
  refine hcs'.congr fun x hx => ?_
  obtain ⟨-, hxN, hx0⟩ := hcs'.used x hx
  exact h.frame x hxN (ht.disjoint hN hcs hc hcs' hc' x hx) fun hk => hx0 (h.fresh x hk)

theorem head (h : TableExtend N fin t t' c cs ks) (hN : N ≤ fin) (hcs : TableChain N fin t c cs)
    (hc' : ChainHead N t c') (hcN : c' < N) (hused : t c' ≠ 0) : ChainHead N t' c' := by
  intro j hj2 hjN hj
  have hmem : j ∈ cs ++ ks := by
    by_contra hout
    rw [List.mem_append, not_or] at hout
    rw [h.frame j hjN hout.1 hout.2] at hj
    exact hc' j hj2 hjN hj
  have hne : c' ≠ c := fun heq => h.chain.ne_start hN hmem (heq ▸ hj)
  by_cases hin : c' ∈ cs
  · obtain ⟨p, hp, hpt⟩ := hcs.exists_pred hin hne
    exact hc' p (hcs.used p hp).1 (hcs.used p hp).2.1 hpt
  -- the number after `j` is on the new chain
  have hlink : linkOf fin t' j ∈ cs ++ ks ∨ linkOf fin t' j = 0 := by
    obtain ⟨us, vs, heq⟩ := List.append_of_mem hmem
    have htail := (heq ▸ h.chain : TableChain N fin t' c (us ++ j :: vs)).tail
    by_cases h0 : linkOf fin t' j = 0
    · exact .inr h0
    · rw [heq]
      exact .inl (by simp [htail.head_mem h0])
  rcases h.table.links j hj2 hjN (h.chain.used j hmem).2.2 with hend | ⟨h2, hlt, -⟩
  · omega
  rw [linkOf, if_neg (by omega), hj] at hlink
  rcases hlink with hlink | hlink
  · rcases List.mem_append.mp hlink with hlink | hlink
    · exact hin hlink
    · exact hused (h.fresh c' hlink)
  · omega

end TableExtend

/-! ## What stays -/

/-- The table stays well formed, the chains that do not start in `cs` stay, and the heads stay heads. -/
structure TableKept (N fin : ℕ) (t t' : ℕ → ℕ) (cs : List ℕ) : Prop where
  table : LinkTable N fin t'
  others : ∀ c gs, TableChain N fin t c gs → c ∉ cs → TableChain N fin t' c gs
  heads : ∀ c < N, t c ≠ 0 → ChainHead N t c → t' c ≠ 0 ∧ ChainHead N t' c

namespace TableKept

variable {N fin c k v : ℕ} {t t' t'' : ℕ → ℕ} {cs ks : List ℕ}

theorem trans (h : TableKept N fin t t' cs) (h' : TableKept N fin t' t'' cs) :
    TableKept N fin t t'' cs where
  table := h'.table
  others c gs hgs hc := h'.others c gs (h.others c gs hgs hc) hc
  heads c hc hused hhead := by
    obtain ⟨hused, hhead⟩ := h.heads c hc hused hhead
    exact h'.heads c hc hused hhead

theorem congr (h : TableKept N fin t t' cs) (hN : 2 ≤ N) (ht : ∀ k < N, t'' k = t' k) :
    TableKept N fin t t'' cs where
  table := h.table.congr hN ht
  others c gs hgs hc := by
    have hgs' := h.others c gs hgs hc
    exact hgs'.congr fun x hx => ht x (hgs'.used x hx).2.1
  heads c hc hused hhead := by
    obtain ⟨hused, hhead⟩ := h.heads c hc hused hhead
    refine ⟨by rwa [ht c hc], fun j hj2 hj => ?_⟩
    rw [ht j hj]
    exact hhead j hj2 hj

theorem alloc (h : LinkTable N fin t) (hN : N ≤ fin) (hk2 : 2 ≤ k) (hk : k < N) (hfree : t k = 0)
    (hv : fin ≤ v) : TableKept N fin t (Function.update t k v) cs where
  table := h.alloc (by omega) hk2 hfree hv
  others c gs hgs _ := by
    have hkgs : k ∉ gs := fun hmem => (hgs.used k hmem).2.2 hfree
    exact hgs.congr fun x hx => Function.update_of_ne (ne_of_mem_of_not_mem hx hkgs) _ _
  heads c hc hused hhead := by
    have hck : c ≠ k := fun heq => hused (heq ▸ hfree)
    refine ⟨by rwa [Function.update_of_ne hck], fun j hj2 hj => ?_⟩
    by_cases hjk : j = k
    · rw [hjk, Function.update_self]
      omega
    · rw [Function.update_of_ne hjk]
      exact hhead j hj2 hj

theorem extend (h : TableExtend N fin t t' c cs ks) (ht : LinkTable N fin t) (hN : N ≤ fin)
    (hcs : TableChain N fin t c cs) (hc : ChainHead N t c) : TableKept N fin t t' cs where
  table := h.table
  others _ _ hgs hnot := h.other ht hN hcs hc hgs hnot
  heads x hx hused hhead := by
    refine ⟨?_, h.head hN hcs hhead hx hused⟩
    by_cases hmem : x ∈ cs
    · exact (h.chain.used x (List.mem_append_left _ hmem)).2.2
    · rwa [h.frame x hx hmem fun hk => hused (h.fresh x hk)]

end TableKept
