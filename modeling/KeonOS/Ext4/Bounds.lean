import KeonOS.Ext4.Listing

/-!
# Directory entries inside the block

What the loops over a directory read of the block in their buffer, and what `readdir` writes into the 128
bytes of `vdirent.name`, on every image: names have up to 255 bytes there, and the length of an entry can
be anything.

* **`Ext4.directory_accesses_inside_iff`**: when all of them stay inside.
-/

namespace KeonOS

open List Option

/-! ## The accesses -/

/-- `n` bytes from `p` on, of the block in the buffer or of `vdirent.name`. -/
inductive DirAccess
  | block (p n : ℕ)
  | name (p n : ℕ)
deriving DecidableEq

def DirAccess.Inside (bs : ℕ) : DirAccess → Prop
  | .block p n => n = 0 ∨ p + n ≤ bs
  | .name p n => n = 0 ∨ p + n ≤ 128

/-- The number of bytes of the entry that `strncmp` reads: up to the first difference. -/
def compared (m : Mem) : List UInt8 → ℕ → ℕ
  | [], _ => 0
  | c :: cs, p => if c = m p ∧ c ≠ 0 then compared m cs (p + 1) + 1 else 1

/-- The test for a name: `inode`, `name_len` and the name, as far as they are needed. -/
def matchAccesses (m : Mem) (name : List UInt8) (p : ℕ) : List DirAccess := .block p 4 ::
    if deInode m p = 0 then []
    else .block (p + 6) 1 ::
      if name.length = deNameLen m p then [.block (p + 8) (compared m name (p + 8))] else []

def scanBlockAccesses (m : Mem) (bs : ℕ) (name : List UInt8) : ℕ → ℕ → List DirAccess
  | 0, _ => []
  | fuel + 1, p =>
    if bs ≤ p then []
    else matchAccesses m name p ++
      if entryMatches m p name then []
      else .block (p + 4) 2 ::
        if deRecLen m p = 0 then [] else scanBlockAccesses m bs name fuel (p + deRecLen m p)

/-- Removing the entry at `p`: its length is added to the one before, or it is marked as unused. -/
def removeAccesses (p : ℕ) : Option ℕ → List DirAccess
  | some prev => [.block (prev + 4) 2, .block (p + 4) 2]
  | none => [.block p 4]

def scanEntryAccesses (m : Mem) (bs : ℕ) (name : List UInt8) : ℕ → ℕ → Option ℕ → List DirAccess
  | 0, _, _ => []
  | fuel + 1, p, prev =>
    if bs ≤ p then []
    else matchAccesses m name p ++
      if entryMatches m p name then removeAccesses p prev
      else .block (p + 4) 2 ::
        if deRecLen m p = 0 then [] else scanEntryAccesses m bs name fuel (p + deRecLen m p) (some p)

def scanSpaceAccesses (m : Mem) (bs required : ℕ) : ℕ → ℕ → List DirAccess
  | 0, _ => []
  | fuel + 1, p =>
    if bs ≤ p then []
    else .block (p + 6) 1 :: .block (p + 4) 2 ::
      if deRecLen m p = 0 then []
      else if entryLen (deNameLen m p) + required ≤ deRecLen m p then []
      else scanSpaceAccesses m bs required fuel (p + deRecLen m p)

/-- The loop of `readdir` over a block. The entry is copied to `vdirent`, and its name terminated. -/
def scanIndexAccesses (m : Mem) (bs size index : ℕ) : ℕ → ℕ → ℕ → ℕ → List DirAccess
  | 0, _, _, _ => []
  | fuel + 1, p, offset, current =>
    if bs ≤ p ∨ size ≤ offset then []
    else .block p 4 ::
      if deInode m p ≠ 0 ∧ current = index then
        [.block (p + 6) 1, .block (p + 8) (deNameLen m p), .name 0 (deNameLen m p),
          .name (deNameLen m p) 1, .block (p + 7) 1]
      else .block (p + 4) 2 ::
        let current := if deInode m p ≠ 0 then (current + 1) % 2 ^ 32 else current
        if deRecLen m p = 0 then []
        else
          scanIndexAccesses m bs size index fuel (p + deRecLen m p) ((offset + deRecLen m p) % 2 ^ 32)
            current

/-! ## The entries of a block -/

def entryAfter (m : Mem) (bs : ℕ) (stop : ℕ → Prop) [DecidablePred stop] (p : ℕ) : Option ℕ :=
  if stop p ∨ deRecLen m p = 0 ∨ bs ≤ p + deRecLen m p then none else some (p + deRecLen m p)

structure MatchFits (m : Mem) (bs : ℕ) (name : List UInt8) (p : ℕ) : Prop where
  length : p + 6 ≤ bs
  nameLen : deInode m p ≠ 0 → p + 7 ≤ bs
  name : deInode m p ≠ 0 → name.length = deNameLen m p → name ≠ [] → p + 8 + compared m name (p + 8) ≤ bs

/-- A state of `readdir` in a block: the position, the offset and the number of entries so far. -/
structure IndexState where
  pos : ℕ
  offset : ℕ
  current : ℕ

def indexAfter (m : Mem) (bs size index : ℕ) (x : IndexState) : Option IndexState :=
  if deInode m x.pos ≠ 0 ∧ x.current = index ∨ deRecLen m x.pos = 0 ∨ bs ≤ x.pos + deRecLen m x.pos ∨
      size ≤ (x.offset + deRecLen m x.pos) % 2 ^ 32 then none
  else some ⟨x.pos + deRecLen m x.pos, (x.offset + deRecLen m x.pos) % 2 ^ 32,
    if deInode m x.pos ≠ 0 then (x.current + 1) % 2 ^ 32 else x.current⟩

/-- What `readdir` needs of an entry is in the block, and the name of the one that it returns fits. -/
def IndexFits (m : Mem) (bs index : ℕ) (x : IndexState) : Prop :=
  if deInode m x.pos ≠ 0 ∧ x.current = index then
    x.pos + 8 + deNameLen m x.pos ≤ bs ∧ deNameLen m x.pos < 128
  else x.pos + 6 ≤ bs

section Block

variable {m : Mem} {bs p n : ℕ} {name : List UInt8}

theorem DirAccess.inside_block (hn : 0 < n) : (DirAccess.block p n).Inside bs ↔ p + n ≤ bs :=
  or_iff_right hn.ne'

theorem compared_eq_zero : compared m name p = 0 ↔ name = [] := by
  cases name with
  | nil => exact ⟨fun _ => rfl, fun _ => rfl⟩
  | cons c cs =>
    rw [compared]
    split_ifs <;> simp

theorem matchAccesses_inside : (∀ r ∈ matchAccesses m name p, r.Inside bs) ↔
    p + 4 ≤ bs ∧ (deInode m p ≠ 0 → p + 7 ≤ bs) ∧
      (deInode m p ≠ 0 → name.length = deNameLen m p → name ≠ [] →
        p + 8 + compared m name (p + 8) ≤ bs) := by
  rw [matchAccesses, forall_mem_cons, DirAccess.inside_block (by norm_num)]
  refine and_congr_right fun _ => ?_
  by_cases hused : deInode m p = 0
  · simp [hused]
  rw [if_neg hused, forall_mem_cons, DirAccess.inside_block (by norm_num), imp_iff_right hused,
    imp_iff_right hused]
  refine and_congr_right fun _ => ?_
  by_cases hlen : name.length = deNameLen m p
  · rw [if_pos hlen, forall_mem_singleton, imp_iff_right hlen, imp_iff_not_or, not_not]
    exact or_congr_left compared_eq_zero
  · simp [hlen]

theorem entryAccesses_inside :
    (∀ r ∈ matchAccesses m name p ++ if entryMatches m p name then [] else [.block (p + 4) 2],
      r.Inside bs) ↔ MatchFits m bs name p := by
  rw [forall_mem_append, matchAccesses_inside]
  by_cases hmatch : entryMatches m p name = true
  · have hused : deInode m p ≠ 0 := (of_decide_eq_true hmatch).1
    rw [if_pos hmatch]
    refine ⟨fun ⟨⟨_, h2, h3⟩, _⟩ => ⟨?_, h2, h3⟩, fun h => ⟨⟨?_, h.nameLen, h.name⟩, by simp⟩⟩
    · omega
    · have := h.length
      omega
  · rw [if_neg hmatch, forall_mem_singleton, DirAccess.inside_block (by norm_num)]
    refine ⟨fun ⟨⟨_, h2, h3⟩, h4⟩ => ⟨by omega, h2, h3⟩, fun h => ⟨⟨?_, h.nameLen, h.name⟩, ?_⟩⟩
    all_goals
      have := h.length
      omega

theorem entryAfter_lt {stop : ℕ → Prop} [DecidablePred stop] {q : ℕ}
    (h : entryAfter m bs stop p = some q) : p < q ∧ q < bs := by
  unfold entryAfter at h
  split_ifs at h with hend
  have := Option.some.inj h
  omega

/-- **A loop over the entries of a block** accesses what is inside exactly if it does so at each entry
that it comes to. -/
theorem entries_inside_iff {stop : ℕ → Prop} [DecidablePred stop] (loop : ℕ → ℕ → List DirAccess)
    {list : ℕ → List DirAccess} (hzero : ∀ p, loop 0 p = []) (hend : ∀ k p, bs ≤ p → loop k p = [])
    (hiter : ∀ k p, p < bs → loop (k + 1) p =
      list p ++ if stop p ∨ deRecLen m p = 0 then [] else loop k (p + deRecLen m p)) (hbs : 0 < bs) :
    (∀ r ∈ loop bs 0, r.Inside bs) ↔
      ∀ i q, orbit (entryAfter m bs stop) 0 i = some q → ∀ r ∈ list q, r.Inside bs := by
  refine forall_mem_loop_iff loop (V := fun p => p < bs) hzero (fun k p hp => ?_)
    (fun p q _ h => (entryAfter_lt h).2) hbs (fun p => bs - 1 - p) (fun p q hp h => ?_) (by omega)
  · rw [hiter k p hp, entryAfter]
    by_cases hstop : stop p ∨ deRecLen m p = 0
    · rw [if_pos hstop, if_pos (or_assoc.mp (.inl hstop))]
      rfl
    rw [if_neg hstop]
    by_cases hout : bs ≤ p + deRecLen m p
    · rw [if_pos (.inr (.inr hout)), hend k _ hout]
      rfl
    · rw [if_neg (by tauto)]
      rfl
  · have := entryAfter_lt h
    omega

theorem scanBlockAccesses_inside (hbs : 0 < bs) :
    (∀ r ∈ scanBlockAccesses m bs name bs 0, r.Inside bs) ↔ ∀ i q,
      orbit (entryAfter m bs fun p => entryMatches m p name = true) 0 i = some q →
        MatchFits m bs name q := by
  simp only [← entryAccesses_inside]
  refine entries_inside_iff (scanBlockAccesses m bs name) (fun _ => rfl) (fun k p hp => ?_)
    (fun k p hp => ?_) hbs
  · cases k with
    | zero => rfl
    | succ k => rw [scanBlockAccesses, if_pos hp]
  rw [scanBlockAccesses, if_neg (not_le.mpr hp), append_assoc]
  by_cases hmatch : entryMatches m p name = true
  · rw [if_pos hmatch, if_pos hmatch, if_pos (.inl hmatch)]
    rfl
  rw [if_neg hmatch, if_neg hmatch]
  by_cases hlen : deRecLen m p = 0
  · rw [if_pos hlen, if_pos (.inr hlen)]
    rfl
  · rw [if_neg hlen, if_neg (by tauto)]
    rfl

theorem scanEntryAccesses_inside {k : ℕ} {prev : Option ℕ} (hprev : ∀ q, prev = some q → q + 6 ≤ bs) :
    (∀ r ∈ scanEntryAccesses m bs name k p prev, r.Inside bs) ↔
      ∀ r ∈ scanBlockAccesses m bs name k p, r.Inside bs := by
  induction k generalizing p prev with
  | zero => exact Iff.rfl
  | succ k ih =>
    rw [scanEntryAccesses, scanBlockAccesses]
    by_cases hend : bs ≤ p
    · rw [if_pos hend, if_pos hend]
    rw [if_neg hend, if_neg hend, forall_mem_append, forall_mem_append]
    refine and_congr_right fun hmatches => ?_
    by_cases hmatch : entryMatches m p name = true
    · have hlen := (matchAccesses_inside.mp hmatches).2.1 (of_decide_eq_true hmatch).1
      rw [if_pos hmatch, if_pos hmatch]
      refine iff_of_true ?_ (fun r hr => absurd hr not_mem_nil)
      cases prev with
      | none =>
        simp only [removeAccesses, forall_mem_singleton, DirAccess.Inside]
        omega
      | some q =>
        have hq := hprev q rfl
        simp only [removeAccesses, forall_mem_cons, DirAccess.Inside]
        exact ⟨.inr hq, .inr (by omega), by simp⟩
    · rw [if_neg hmatch, if_neg hmatch, forall_mem_cons, forall_mem_cons]
      refine and_congr_right fun hlen => ?_
      split_ifs
      · exact Iff.rfl
      · refine ih fun q hq => ?_
        cases hq
        exact (DirAccess.inside_block (show 0 < 2 by norm_num)).mp hlen

theorem scanSpaceAccesses_inside {required : ℕ} (hbs : 0 < bs) :
    (∀ r ∈ scanSpaceAccesses m bs required bs 0, r.Inside bs) ↔ ∀ i q,
      orbit (entryAfter m bs fun p => entryLen (deNameLen m p) + required ≤ deRecLen m p) 0 i = some q →
        q + 7 ≤ bs := by
  have hlist : ∀ q, (∀ r ∈ [DirAccess.block (q + 6) 1, .block (q + 4) 2], r.Inside bs) ↔ q + 7 ≤ bs := by
    simp [DirAccess.Inside]
    omega
  simp only [← hlist]
  refine entries_inside_iff (scanSpaceAccesses m bs required) (fun _ => rfl) (fun k p hp => ?_)
    (fun k p hp => ?_) hbs
  · cases k with
    | zero => rfl
    | succ k => rw [scanSpaceAccesses, if_pos hp]
  rw [scanSpaceAccesses, if_neg (not_le.mpr hp)]
  by_cases hlen : deRecLen m p = 0
  · rw [if_pos hlen, if_pos (.inr hlen)]
    rfl
  rw [if_neg hlen]
  by_cases hroom : entryLen (deNameLen m p) + required ≤ deRecLen m p
  · rw [if_pos hroom, if_pos (.inl hroom)]
    rfl
  · rw [if_neg hroom, if_neg (by tauto)]
    rfl

/-- What `readdir` accesses for one entry. -/
def indexAccesses (m : Mem) (index : ℕ) (x : IndexState) : List DirAccess := .block x.pos 4 ::
    if deInode m x.pos ≠ 0 ∧ x.current = index then
      [.block (x.pos + 6) 1, .block (x.pos + 8) (deNameLen m x.pos), .name 0 (deNameLen m x.pos),
        .name (deNameLen m x.pos) 1, .block (x.pos + 7) 1]
    else [.block (x.pos + 4) 2]

theorem indexAccesses_inside {index : ℕ} {x : IndexState} :
    (∀ r ∈ indexAccesses m index x, r.Inside bs) ↔ IndexFits m bs index x := by
  rw [indexAccesses, IndexFits]
  split_ifs
  all_goals
    simp only [forall_mem_cons, not_mem_nil, false_implies, implies_true, and_true, DirAccess.Inside]
    omega

theorem indexAfter_lt {size index : ℕ} {x y : IndexState}
    (h : indexAfter m bs size index x = some y) : x.pos < y.pos ∧ y.pos < bs ∧ y.offset < size := by
  unfold indexAfter at h
  by_cases hend : deInode m x.pos ≠ 0 ∧ x.current = index ∨ deRecLen m x.pos = 0 ∨
      bs ≤ x.pos + deRecLen m x.pos ∨ size ≤ (x.offset + deRecLen m x.pos) % 2 ^ 32
  · rw [if_pos hend] at h
    cases h
  · rw [if_neg hend] at h
    cases h
    rw [not_or, not_or, not_or, not_le, not_le] at hend
    exact ⟨Nat.lt_add_of_pos_right (Nat.pos_of_ne_zero hend.2.1), hend.2.2⟩

theorem scanIndexAccesses_inside {size index o c : ℕ} (hp : p < bs) (ho : o < size) :
    (∀ r ∈ scanIndexAccesses m bs size index bs p o c, r.Inside bs) ↔ ∀ i y,
      orbit (indexAfter m bs size index) ⟨p, o, c⟩ i = some y → IndexFits m bs index y := by
  simp only [← indexAccesses_inside]
  refine forall_mem_loop_iff (a := (⟨p, o, c⟩ : IndexState)) (k := bs)
    (fun k x => scanIndexAccesses m bs size index k x.pos x.offset x.current)
    (V := fun x => x.pos < bs ∧ x.offset < size) (fun _ => rfl) (fun k x hx => ?_)
    (fun x y _ h => (indexAfter_lt h).2) ⟨hp, ho⟩ (fun x => bs - 1 - x.pos) (fun x y hx h => ?_)
    (show bs - 1 - p < bs by omega)
  · rw [scanIndexAccesses, if_neg (by omega), indexAccesses, indexAfter]
    by_cases hfound : deInode m x.pos ≠ 0 ∧ x.current = index
    · rw [if_pos hfound, if_pos hfound, if_pos (.inl hfound)]
      rfl
    rw [if_neg hfound, if_neg hfound]
    by_cases hlen : deRecLen m x.pos = 0
    · rw [if_pos (Or.inr (.inl hlen)), if_pos hlen]
      rfl
    rw [if_neg hlen]
    by_cases hout : bs ≤ x.pos + deRecLen m x.pos ∨ size ≤ (x.offset + deRecLen m x.pos) % 2 ^ 32
    · rw [if_pos (Or.inr (.inr hout))]
      cases k with
      | zero => rfl
      | succ k =>
        rw [scanIndexAccesses, if_pos hout]
        rfl
    · rw [if_neg (not_or.mpr ⟨hfound, not_or.mpr ⟨hlen, hout⟩⟩)]
      rfl
  · have := indexAfter_lt h
    omega

end Block

/-! ## The blocks of the directory -/

namespace Ext4

variable (fs : Ext4) (s : Ext4Store) (dir : Ext4Node)

/-- What a loop finds at an offset: none when it ends there, a hole, or a block. -/
def dirBlock (o : ℕ) : Option (Option Mem) :=
  if dir.size ≤ o then none
  else ((fs.extentGetBlock dir.inode (o / fs.blockSize)).exec s).map fun r =>
    if r.1 = 0 then none else some ((s.disk r.1).slice 0 fs.blockSize)

/-- A loop over the blocks of a directory: where it is, and how it goes on after a hole and a block. -/
structure DirLoop (σ : Type) where
  offset : σ → ℕ
  hole : σ → σ
  accesses : Mem → σ → List DirAccess
  next : Mem → σ → Option σ

/-- `Ext4Directory::readdir` -/
def readdirLoopOf (index : ℕ) : DirLoop (ℕ × ℕ) where
  offset := Prod.fst
  hole x := ((x.1 + (fs.blockSize - x.1 % fs.blockSize)) % 2 ^ 32, x.2)
  accesses m x :=
    scanIndexAccesses m fs.blockSize dir.size index fs.blockSize (x.1 % fs.blockSize) x.1 x.2
  next m x :=
    (scanIndex m fs.blockSize dir.size index fs.blockSize (x.1 % fs.blockSize) x.1 x.2).getRight?

/-- `Ext4Directory::finddir` -/
def finddirLoopOf (name : List UInt8) : DirLoop ℕ where
  offset := id
  hole o := (o + fs.blockSize) % 2 ^ 32
  accesses m _ := scanBlockAccesses m fs.blockSize name fs.blockSize 0
  next m o := (scanBlock m fs.blockSize name fs.blockSize 0 o).getRight?

/-- `Ext4Directory::unlink` -/
def unlinkLoopOf (name : List UInt8) : DirLoop ℕ where
  offset := id
  hole o := (o + fs.blockSize) % 2 ^ 32
  accesses m _ := scanEntryAccesses m fs.blockSize name fs.blockSize 0 none
  next m o :=
    if (scanEntry m fs.blockSize name fs.blockSize 0 none).isSome then none
    else some ((o + fs.blockSize) % 2 ^ 32)

/-- `Ext4Directory::find_free_entry_space` -/
def spaceLoopOf (required : ℕ) : DirLoop ℕ where
  offset := id
  hole o := (o + fs.blockSize) % 2 ^ 32
  accesses m _ := scanSpaceAccesses m fs.blockSize required fs.blockSize 0
  next m o :=
    if (scanSpace m fs.blockSize required fs.blockSize 0).isSome then none
    else some ((o + fs.blockSize) % 2 ^ 32)

variable {fs s dir} in
theorem dirBlock_lt {o : ℕ} {b : Option Mem} (h : fs.dirBlock s dir o = some b) : o < dir.size := by
  rw [dirBlock] at h
  split_ifs at h with hend
  exact not_le.mp hend

namespace DirLoop

variable {σ : Type} (L : DirLoop σ)

/-- The accesses in the first `k` iterations. -/
def accessesUpTo : ℕ → σ → List DirAccess
  | 0, _ => []
  | k + 1, x =>
    match fs.dirBlock s dir (L.offset x) with
    | none => []
    | some none => accessesUpTo k (L.hole x)
    | some (some m) => L.accesses m x ++ (L.next m x).elim [] (accessesUpTo k)

/-- **The call stays inside the buffers**, however long it runs. -/
def StaysInside (x : σ) : Prop := ∀ k, ∀ r ∈ L.accessesUpTo fs s dir k x, r.Inside fs.blockSize

def step (x : σ) : Option σ :=
  match fs.dirBlock s dir (L.offset x) with
  | none => none
  | some none => some (L.hole x)
  | some (some m) => L.next m x

/-- From `x₀`, the loop comes to the block `m` in the state `x`. -/
def ComesTo (x₀ x : σ) (m : Mem) : Prop :=
  (∃ n, orbit (L.step fs s dir) x₀ n = some x) ∧ fs.dirBlock s dir (L.offset x) = some (some m)

variable {fs s dir L}

theorem staysInside_of_block {x : σ} {m : Mem} (h : fs.dirBlock s dir (L.offset x) = some (some m))
    (hacc : ∀ r ∈ L.accesses m x, r.Inside fs.blockSize) (hnext : L.next m x = none) :
    L.StaysInside fs s dir x := by
  rintro (_ | k)
  · exact fun r hr => absurd hr not_mem_nil
  · rw [accessesUpTo, h]
    refine forall_mem_append.mpr ⟨hacc, ?_⟩
    rw [hnext]
    exact fun r hr => absurd hr not_mem_nil

theorem staysInside_iff {x₀ : σ} : L.StaysInside fs s dir x₀ ↔ ∀ x m, L.ComesTo fs s dir x₀ x m →
    ∀ r ∈ L.accesses m x, r.Inside fs.blockSize := by
  have hmem : ∀ k r, r ∈ L.accessesUpTo fs s dir k x₀ ↔
      ∃ n < k, ∃ x, orbit (L.step fs s dir) x₀ n = some x ∧
        r ∈ (fs.dirBlock s dir (L.offset x)).join.elim [] (L.accesses · x) := by
    intro k r
    refine mem_loop_iff (L.accessesUpTo fs s dir) (V := fun _ => True) (fun _ => rfl) (fun k x _ => ?_)
      (fun _ _ _ _ => trivial) trivial k
    rw [accessesUpTo, step]
    rcases fs.dirBlock s dir (L.offset x) with _ | _ | m <;> rfl
  constructor
  · rintro h x m ⟨⟨n, hn⟩, hm⟩ r hr
    refine h (n + 1) r ((hmem _ r).mpr ⟨n, Nat.lt_succ_self n, x, hn, ?_⟩)
    rwa [hm]
  intro h k r hr
  obtain ⟨n, -, x, hx, hr⟩ := (hmem k r).mp hr
  cases hm : fs.dirBlock s dir (L.offset x) with
  | none =>
    rw [hm] at hr
    exact absurd hr not_mem_nil
  | some b =>
    cases b with
    | none =>
      rw [hm] at hr
      exact absurd hr not_mem_nil
    | some m =>
      rw [hm] at hr
      exact h x m ⟨⟨n, hx⟩, hm⟩ r hr

end DirLoop

/-! ## The loops of the model -/

section Iterates

variable {fs s dir}

theorem exec_lookup_bind {β : Type} (inode : Mem) (l : ℕ) (f : ℕ → Ext4M β) :
    (fs.extentGetBlock inode l >>= f).exec s =
      ((fs.extentGetBlock inode l).exec s).bind fun r => (f r.1).exec s := by
  rw [BlockM.exec_bind]
  cases hr : (fs.extentGetBlock inode l).exec s with
  | none => rfl
  | some r => rw [bind_some, bind_some, extentGetBlock_state hr]

theorem DirLoop.iterates {σ β : Type} {L : DirLoop σ} {x : σ} {loop : σ → Option (β × Ext4Store)}
    {stop : β} {body : ℕ → Ext4M β} (hhole : (body 0).exec s = loop (L.hole x))
    (hbody : ∀ b, b ≠ 0 →
      ∃ r, (body b).exec s = (L.next ((s.disk b).slice 0 fs.blockSize) x).elim r loop) :
    ∃ r, (if dir.size ≤ L.offset x then pure stop
      else fs.extentGetBlock dir.inode (L.offset x / fs.blockSize) >>= body : Ext4M β).exec s =
        (L.step fs s dir x).elim r loop := by
  rw [step, dirBlock]
  by_cases hend : dir.size ≤ L.offset x
  · rw [if_pos hend, if_pos hend]
    exact ⟨_, rfl⟩
  rw [if_neg hend, if_neg hend, exec_lookup_bind]
  cases (fs.extentGetBlock dir.inode (L.offset x / fs.blockSize)).exec s with
  | none => exact ⟨none, rfl⟩
  | some r =>
    rw [bind_some, map_some]
    by_cases h0 : r.1 = 0
    · rw [if_pos h0, h0, hhole]
      exact ⟨none, rfl⟩
    · rw [if_neg h0]
      exact hbody r.1 h0

theorem finddirLoop_iterates (name : List UInt8) (k o : ℕ) :
    ∃ r, (fs.finddirLoop dir name (k + 1) o).exec s = ((fs.finddirLoopOf name).step fs s dir o).elim r
      fun o' => (fs.finddirLoop dir name k o').exec s := by
  refine DirLoop.iterates (L := fs.finddirLoopOf name) (x := o) ?_ fun b h0 => ?_
  · rfl
  rw [if_neg h0, BlockM.exec_bind, exec_readBlock, bind_some, finddirLoopOf]
  dsimp only [id]
  cases scanBlock ((s.disk b).slice 0 fs.blockSize) fs.blockSize name fs.blockSize 0 o with
  | inl ino => exact ⟨_, rfl⟩
  | inr o' => exact ⟨none, rfl⟩

theorem unlinkLoop_iterates (name : List UInt8) (k o : ℕ) :
    ∃ r, (fs.unlinkLoop dir name (k + 1) o).exec s = ((fs.unlinkLoopOf name).step fs s dir o).elim r
      fun o' => (fs.unlinkLoop dir name k o').exec s := by
  refine DirLoop.iterates (L := fs.unlinkLoopOf name) (x := o) ?_ fun b h0 => ?_
  · rfl
  rw [if_neg h0, BlockM.exec_bind, exec_readBlock, bind_some, unlinkLoopOf]
  dsimp only [id]
  cases scanEntry ((s.disk b).slice 0 fs.blockSize) fs.blockSize name fs.blockSize 0 none with
  | some r => exact ⟨_, rfl⟩
  | none => exact ⟨none, rfl⟩

theorem findFreeEntrySpace_iterates (required k o : ℕ) :
    ∃ r, (fs.findFreeEntrySpace dir required (k + 1) o).exec s =
      ((fs.spaceLoopOf required).step fs s dir o).elim r
        fun o' => (fs.findFreeEntrySpace dir required k o').exec s := by
  refine DirLoop.iterates (L := fs.spaceLoopOf required) (x := o) ?_ fun b h0 => ?_
  · rfl
  rw [if_neg h0, BlockM.exec_bind, exec_readBlock, bind_some, spaceLoopOf]
  dsimp only [id]
  cases scanSpace ((s.disk b).slice 0 fs.blockSize) fs.blockSize required fs.blockSize 0 with
  | some r => exact ⟨_, rfl⟩
  | none => exact ⟨none, rfl⟩

theorem readdirLoop_iterates (index k : ℕ) (x : ℕ × ℕ) :
    ∃ r, (fs.readdirLoop dir index (k + 1) x.1 x.2).exec s =
      ((fs.readdirLoopOf dir index).step fs s dir x).elim r
        fun y => (fs.readdirLoop dir index k y.1 y.2).exec s := by
  refine DirLoop.iterates (L := fs.readdirLoopOf dir index) (x := x) ?_ fun b h0 => ?_
  · rfl
  rw [if_neg h0, BlockM.exec_bind, exec_readBlock, bind_some, readdirLoopOf]
  dsimp only [id]
  cases scanIndex ((s.disk b).slice 0 fs.blockSize) fs.blockSize dir.size index fs.blockSize
    (x.1 % fs.blockSize) x.1 x.2 with
  | inl p => exact ⟨_, rfl⟩
  | inr y => exact ⟨none, rfl⟩

end Iterates

/-! ## All contents of the disk -/

/-- **The loops stay inside their buffers** exactly if what they need of each entry is in the block and
the name that `readdir` returns has less than 128 bytes. -/
theorem directory_accesses_inside_iff (hbs : 0 < fs.blockSize) :
    (∀ index, (fs.readdirLoopOf dir index).StaysInside fs s dir (0, 0) ↔
      ∀ x m, (fs.readdirLoopOf dir index).ComesTo fs s dir (0, 0) x m → ∀ i y,
        orbit (indexAfter m fs.blockSize dir.size index) ⟨x.1 % fs.blockSize, x.1, x.2⟩ i = some y →
          IndexFits m fs.blockSize index y) ∧
    (∀ name, (fs.finddirLoopOf name).StaysInside fs s dir 0 ↔
      ∀ o m, (fs.finddirLoopOf name).ComesTo fs s dir 0 o m → ∀ i p,
        orbit (entryAfter m fs.blockSize fun p => entryMatches m p name = true) 0 i = some p →
          MatchFits m fs.blockSize name p) ∧
    (∀ name, (fs.unlinkLoopOf name).StaysInside fs s dir 0 ↔
      ∀ o m, (fs.unlinkLoopOf name).ComesTo fs s dir 0 o m → ∀ i p,
        orbit (entryAfter m fs.blockSize fun p => entryMatches m p name = true) 0 i = some p →
          MatchFits m fs.blockSize name p) ∧
    ∀ required, (fs.spaceLoopOf required).StaysInside fs s dir 0 ↔
      ∀ o m, (fs.spaceLoopOf required).ComesTo fs s dir 0 o m → ∀ i p,
        orbit (entryAfter m fs.blockSize fun p =>
          entryLen (deNameLen m p) + required ≤ deRecLen m p) 0 i = some p → p + 7 ≤ fs.blockSize := by
  refine ⟨fun index => ?_, fun name => ?_, fun name => ?_, fun required => ?_⟩
  all_goals
    rw [DirLoop.staysInside_iff]
    refine forall_congr' fun x => forall_congr' fun m => forall_congr' fun hx => ?_
  · exact scanIndexAccesses_inside (Nat.mod_lt _ hbs) (dirBlock_lt hx.2)
  · exact scanBlockAccesses_inside hbs
  · exact (scanEntryAccesses_inside fun _ h => by cases h).trans (scanBlockAccesses_inside hbs)
  · exact scanSpaceAccesses_inside hbs

theorem directory_accesses_inside_small :
    (small.readdirLoopOf smallRoot 2).StaysInside small ⟨smallDisk, []⟩ smallRoot (0, 0) ∧
      ∀ x m, (small.readdirLoopOf smallRoot 2).ComesTo small ⟨smallDisk, []⟩ smallRoot (0, 0) x m →
        ∀ i y, orbit (indexAfter m small.blockSize smallRoot.size 2)
          ⟨x.1 % small.blockSize, x.1, x.2⟩ i = some y → IndexFits m small.blockSize 2 y := by
  have hn := small_root
  let L := small.readdirLoopOf smallRoot 2
  have hmap : small.mapOf smallDisk smallRoot.inode 0 = 9 := by decide +kernel
  have hblock : small.dirBlock ⟨smallDisk, []⟩ smallRoot 0 =
      some (some ((smallDisk 9).slice 0 small.blockSize)) := by
    rw [dirBlock, if_neg (by decide +kernel), hn.inode.mapReads, Nat.zero_div, hmap]
    rfl
  have hacc : L.accesses ((smallDisk 9).slice 0 small.blockSize) (0, 0) =
      [.block 0 4, .block 4 2, .block 12 4, .block 16 2, .block 24 4, .block 30 1, .block 32 1,
        .name 0 1, .name 1 1, .block 31 1] := by
    decide +kernel
  have hinside : L.StaysInside small ⟨smallDisk, []⟩ smallRoot (0, 0) := by
    refine DirLoop.staysInside_of_block hblock ?_ (by decide +kernel)
    rw [hacc]
    simp [DirAccess.Inside, small]
  exact ⟨hinside, ((directory_accesses_inside_iff small ⟨smallDisk, []⟩ smallRoot
    small_wellFormed.blockSize_pos).1 2).mp hinside⟩

/-- A directory with the entries `.` and `..` and a file whose name has 200 characters. -/
def longNameDisk : ℕ → Mem := Function.update smallDisk 9
    (insertEntry (newDirBlock 1024 2 2) 12 12 ftRegFile (List.replicate 200 0x61))

/-- **`readdir` writes beyond the name** of 128 bytes, in a directory whose block is tiled by entries with
legal names. -/
theorem readdir_overflows : (∃ es, Tiles ((longNameDisk 9).slice 0 1024) 1024 0 es) ∧
    ((small.readdir smallRoot 2).exec ⟨longNameDisk, []⟩).map Prod.fst =
      some (some ⟨List.replicate 200 0x61, 12, false⟩) ∧
    ¬(small.readdirLoopOf smallRoot 2).StaysInside small ⟨longNameDisk, []⟩ smallRoot (0, 0) := by
  refine ⟨?_, by decide +kernel, fun h => ?_⟩
  · have hnew : Tiles (newDirBlock 1024 2 2) 1024 0 [⟨2, 12, [0x2E]⟩, ⟨2, 1012, [0x2E, 0x2E]⟩] :=
      tiles_newDirBlock (by norm_num) (by norm_num) (by norm_num) (by norm_num) (by norm_num)
    obtain ⟨hdot, hfit, hrest⟩ := hnew.head
    have hpre : Tiles (newDirBlock 1024 2 2) 12 0 [⟨2, 12, [0x2E]⟩] := .cons hdot hfit .nil
    exact ⟨_, (hpre.insertEntry hrest (by norm_num) (by norm_num)
      (by norm_num) (by rw [length_replicate]; decide)).slice⟩
  · have hmem : DirAccess.name 200 1 ∈
        (small.readdirLoopOf smallRoot 2).accessesUpTo small ⟨longNameDisk, []⟩ smallRoot 1 (0, 0) := by
      decide +kernel
    exact absurd (h 1 _ hmem) (by simp [DirAccess.Inside])

end Ext4

end KeonOS
