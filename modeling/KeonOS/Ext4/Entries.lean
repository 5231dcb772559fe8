import KeonOS.Ext4.Nodes

/-!
# Blocks of a directory

The entries of a directory tile its blocks. Each entry has the length of its name, rounded, or more;
what is left over may hold another entry later. The loops over a block see the entries in their order.

* `DirEntry`, **`Tiles`**: the entries of a block;
* **`Tiles.insertEntry`**, **`Tiles.removeEntry`**: the entries after one was added or removed.
-/

namespace KeonOS

open List

/-! ## Entries -/

structure DirEntry where
  inode : ℕ
  recLen : ℕ
  name : List UInt8
deriving DecidableEq, Repr

def readEntry (m : Mem) (p : ℕ) : DirEntry where
  inode := deInode m p
  recLen := deRecLen m p
  name := m.bytesAt (p + 8) (deNameLen m p)

namespace DirEntry

def isNamed (name : List UInt8) (e : DirEntry) : Bool := e.inode ≠ 0 ∧ e.name = name

/-- The length is a multiple of four and leaves room for the name. -/
structure Fits (e : DirEntry) : Prop where
  pos : 0 < e.recLen
  dvd : 4 ∣ e.recLen
  le : entryLen e.name.length ≤ e.recLen

end DirEntry

theorem le_entryLen (n : ℕ) : 8 + n ≤ entryLen n := by
  rw [entryLen]
  split_ifs <;> omega

theorem dvd_entryLen (n : ℕ) : 4 ∣ entryLen n := by
  rw [entryLen]
  split_ifs <;> omega

@[simp]
theorem length_readEntry_name (m : Mem) (p : ℕ) : (readEntry m p).name.length = deNameLen m p :=
  Mem.length_bytesAt

theorem entryMatches_eq (m : Mem) (p : ℕ) (name : List UInt8) :
    entryMatches m p name = (readEntry m p).isNamed name := by
  refine decide_eq_decide.mpr (and_congr_right fun _ => ⟨fun h => ?_, fun h => ?_⟩)
  · change m.bytesAt (p + 8) (deNameLen m p) = name
    rw [← h.1]
    exact h.2
  · have hlen : name.length = deNameLen m p := by rw [← h, length_readEntry_name]
    exact ⟨hlen, hlen ▸ h⟩

theorem readEntry_congr {m m' : Mem} {p n : ℕ} (hn : 8 + (readEntry m p).name.length ≤ n)
    (h : ∀ x, p ≤ x → x < p + n → m' x = m x) : readEntry m' p = readEntry m p := by
  rw [length_readEntry_name] at hn
  have hfield : ∀ a k, a + k ≤ 8 → m'.readLE (p + a) k = m.readLE (p + a) k :=
    fun a k hk => Mem.readLE_congr fun i hi => h _ (by omega) (by omega)
  have hname : deNameLen m' p = deNameLen m p := hfield 6 1 (by omega)
  have hinode : deInode m' p = deInode m p := hfield 0 4 (by omega)
  have hlen : deRecLen m' p = deRecLen m p := hfield 4 2 (by omega)
  rw [readEntry, hinode, hlen, hname, Mem.bytesAt_congr fun i hi => h _ (by omega) (by omega), readEntry]

/-! ## Tilings -/

/-- The entries tile the bytes from `p` to `stop`. -/
inductive Tiles (m : Mem) (stop : ℕ) : ℕ → List DirEntry → Prop
  | nil : Tiles m stop stop []
  | cons {p : ℕ} {e : DirEntry} {es : List DirEntry} : readEntry m p = e → e.Fits →
      Tiles m stop (p + e.recLen) es → Tiles m stop p (e :: es)

def liveEntries (es : List DirEntry) : List (List UInt8 × ℕ) :=
  (es.filter fun e => e.inode ≠ 0).map fun e => (e.name, e.inode)

theorem liveEntries_append (es es' : List DirEntry) :
    liveEntries (es ++ es') = liveEntries es ++ liveEntries es' := by
  simp [liveEntries]

theorem liveEntries_cons (e : DirEntry) (es : List DirEntry) :
    liveEntries (e :: es) = liveEntries [e] ++ liveEntries es := liveEntries_append [e] es

theorem liveEntries_singleton (e : DirEntry) :
    liveEntries [e] = if e.inode = 0 then [] else [(e.name, e.inode)] := by
  by_cases h : e.inode = 0 <;> simp [liveEntries, h]

theorem lookup_liveEntries_cons (e : DirEntry) (es : List DirEntry) (name : List UInt8) :
    (liveEntries (e :: es)).lookup name =
      if e.isNamed name then some e.inode else (liveEntries es).lookup name := by
  rw [liveEntries_cons, liveEntries_singleton]
  by_cases h0 : e.inode = 0
  · rw [if_pos h0, if_neg (by simp [DirEntry.isNamed, h0])]
    rfl
  · rw [if_neg h0, singleton_append, lookup_cons]
    by_cases hname : name = e.name
    · simp [DirEntry.isNamed, h0, hname]
    · rw [beq_false_of_ne hname, if_neg (by simp [DirEntry.isNamed, Ne.symm hname])]

namespace Tiles

variable {m m' : Mem} {stop p q : ℕ} {e : DirEntry} {es es' : List DirEntry} {name : List UInt8}

theorem le (h : Tiles m stop p es) : p ≤ stop := by
  induction h with
  | nil => exact le_rfl
  | cons _ _ _ ih => exact (Nat.le_add_right _ _).trans ih

theorem append (h : Tiles m q p es) (h' : Tiles m stop q es') : Tiles m stop p (es ++ es') := by
  induction h with
  | nil => exact h'
  | cons heq hfit _ ih => exact .cons heq hfit ih

theorem head (h : Tiles m stop p (e :: es)) :
    readEntry m p = e ∧ e.Fits ∧ Tiles m stop (p + e.recLen) es := by
  cases h with
  | cons heq hfit h => exact ⟨heq, hfit, h⟩

theorem congr (h : Tiles m stop p es) (hm : ∀ x, p ≤ x → x < stop → m' x = m x) :
    Tiles m' stop p es := by
  induction h with
  | nil => exact .nil
  | @cons p e es heq hfit h ih =>
    have hle := h.le
    refine .cons ?_ hfit (ih fun x h1 h2 => hm x (by omega) h2)
    rw [← heq]
    refine readEntry_congr (n := e.recLen) ?_ fun x h1 h2 => hm x h1 (by omega)
    rw [heq]
    exact (le_entryLen _).trans hfit.le

/-! ## The loops over a block -/

theorem scanBlock_eq (h : Tiles m stop p es) {fuel o : ℕ} (hfuel : stop ≤ p + fuel) (ho : o < 2 ^ 32) :
    scanBlock m stop name fuel p o =
      match (liveEntries es).lookup name with
      | some ino => .inl ino
      | none => .inr ((o + (stop - p)) % 2 ^ 32) := by
  induction h generalizing fuel o with
  | nil =>
    have hend : scanBlock m stop name fuel stop o = .inr o := by
      cases fuel with
      | zero => rfl
      | succ fuel => rw [scanBlock, if_pos le_rfl]
    rw [hend, Nat.sub_self, Nat.add_zero, Nat.mod_eq_of_lt ho]
    rfl
  | @cons p e es heq hfit h ih =>
    have hle := h.le
    have hpos := hfit.pos
    obtain ⟨fuel, rfl⟩ := Nat.exists_eq_succ_of_ne_zero (show fuel ≠ 0 by omega)
    have hlen : deRecLen m p = e.recLen := by rw [← heq]; rfl
    have hino : deInode m p = e.inode := by rw [← heq]; rfl
    rw [scanBlock, if_neg (by omega), entryMatches_eq, heq, lookup_liveEntries_cons, hlen, hino]
    by_cases hname : e.isNamed name = true
    · rw [if_pos hname, if_pos hname]
    · rw [if_neg hname, if_neg hname, if_neg hpos.ne', ih (by omega) (Nat.mod_lt _ (by norm_num)),
        Nat.mod_add_mod, show o + e.recLen + (stop - (p + e.recLen)) = o + (stop - p) by omega]

theorem scanSpace_eq (h : Tiles m stop p es) {fuel required : ℕ}
    (hq : scanSpace m stop required fuel p = some q) :
    ∃ pre e post, es = pre ++ e :: post ∧ Tiles m q p pre ∧ Tiles m stop q (e :: post) ∧
      entryLen e.name.length + required ≤ e.recLen := by
  induction h generalizing fuel with
  | nil =>
    cases fuel with
    | zero => cases hq
    | succ fuel =>
      rw [scanSpace, if_pos le_rfl] at hq
      cases hq
  | @cons p e es heq hfit h ih =>
    have hlen : deRecLen m p = e.recLen := by rw [← heq]; rfl
    have hname : deNameLen m p = e.name.length := by rw [← heq, length_readEntry_name]
    cases fuel with
    | zero => cases hq
    | succ fuel =>
      have hle := h.le
      have hpos := hfit.pos
      rw [scanSpace, if_neg (by omega), hlen, hname, if_neg hpos.ne'] at hq
      split_ifs at hq with hroom
      · cases hq
        exact ⟨[], e, es, rfl, .nil, .cons heq hfit h, hroom⟩
      · obtain ⟨pre, e', post, rfl, hpre, hpost, hroom'⟩ := ih hq
        exact ⟨e :: pre, e', post, rfl, .cons heq hfit hpre, hpost, hroom'⟩

/-- What the inner loop of `unlink` finds: the entry, those before it, and the last of these. -/
structure Hit (m : Mem) (stop p : ℕ) (name : List UInt8) (prev : Option ℕ) (es : List DirEntry) (q : ℕ)
    (prev' : Option ℕ) (pre : List DirEntry) (e : DirEntry) (post : List DirEntry) : Prop where
  eq : es = pre ++ e :: post
  before : Tiles m q p pre
  after : Tiles m stop q (e :: post)
  notNamed : ∀ x ∈ pre, x.isNamed name = false
  named : e.isNamed name = true
  prev : pre = [] ∧ q = p ∧ prev' = prev ∨
    ∃ r pre₀ x, prev' = some r ∧ pre = pre₀ ++ [x] ∧ Tiles m r p pre₀ ∧ Tiles m q r [x]

theorem scanEntry_eq (h : Tiles m stop p es) {fuel : ℕ} (hfuel : stop ≤ p + fuel) (name : List UInt8)
    (prev : Option ℕ) :
    match scanEntry m stop name fuel p prev with
    | none => ∀ e ∈ es, e.isNamed name = false
    | some (q, prev') => ∃ pre e post, Hit m stop p name prev es q prev' pre e post := by
  induction h generalizing fuel prev with
  | nil =>
    have hend : scanEntry m stop name fuel stop prev = none := by
      cases fuel with
      | zero => rfl
      | succ fuel => rw [scanEntry, if_pos le_rfl]
    rw [hend]
    exact fun e he => absurd he not_mem_nil
  | @cons p e es heq hfit h ih =>
    have hle := h.le
    have hpos := hfit.pos
    have hlen : deRecLen m p = e.recLen := by rw [← heq]; rfl
    obtain ⟨fuel, rfl⟩ := Nat.exists_eq_succ_of_ne_zero (show fuel ≠ 0 by omega)
    rw [scanEntry, if_neg (by omega), entryMatches_eq, heq, hlen]
    by_cases hname : e.isNamed name = true
    · rw [if_pos hname]
      exact ⟨[], e, es, rfl, .nil, .cons heq hfit h, fun x hx => absurd hx not_mem_nil, hname,
        .inl ⟨rfl, rfl, rfl⟩⟩
    have hnot := Bool.eq_false_iff.mpr hname
    rw [if_neg hname, if_neg hpos.ne']
    have hrest := ih (show stop ≤ p + e.recLen + fuel by omega) (some p)
    revert hrest
    cases scanEntry m stop name fuel (p + e.recLen) (some p) with
    | none =>
      intro hnone x hx
      rcases mem_cons.mp hx with rfl | hx
      · exact hnot
      · exact hnone x hx
    | some r =>
      obtain ⟨q, prev'⟩ := r
      rintro ⟨pre, x, post, hhit⟩
      refine ⟨e :: pre, x, post, by rw [hhit.eq]; rfl, .cons heq hfit hhit.before, hhit.after,
        fun y hy => ?_, hhit.named, .inr ?_⟩
      · rcases mem_cons.mp hy with rfl | hy
        · exact hnot
        · exact hhit.notNamed y hy
      · rcases hhit.prev with ⟨rfl, rfl, rfl⟩ | ⟨r, pre₀, y, rfl, rfl, hpre₀, hy⟩
        · exact ⟨p, [], e, rfl, rfl, .nil, .cons heq hfit .nil⟩
        · exact ⟨r, e :: pre₀, y, rfl, rfl, .cons heq hfit hpre₀, hy⟩

end Tiles

/-! ## Adding and removing an entry -/

section Put

variable {m : Mem} {p q inode recLen nameLen fileType : ℕ}

theorem putEntry_apply_of_notMem {x : ℕ} (h : x < q ∨ q + 8 ≤ x) :
    putEntry m q inode recLen nameLen fileType x = m x := by
  rw [putEntry, Mem.writeLE_apply_of_notMem (by omega), Mem.writeLE_apply_of_notMem (by omega),
    Mem.writeLE_apply_of_notMem (by omega), Mem.writeLE_apply_of_notMem (by omega)]

theorem putEntry_fields (m : Mem) (q inode recLen nameLen fileType : ℕ) :
    deInode (putEntry m q inode recLen nameLen fileType) q = inode % 2 ^ 32 ∧
      deRecLen (putEntry m q inode recLen nameLen fileType) q = recLen % 2 ^ 16 ∧
      deNameLen (putEntry m q inode recLen nameLen fileType) q = nameLen % 2 ^ 8 := by
  refine ⟨?_, ?_, ?_⟩
  · rw [deInode, putEntry, Mem.readLE_writeLE_of_disjoint (by omega),
      Mem.readLE_writeLE_of_disjoint (by omega), Mem.readLE_writeLE_of_disjoint (by omega),
      Mem.readLE_writeLE]
    norm_num
  · rw [deRecLen, putEntry, Mem.readLE_writeLE_of_disjoint (by omega),
      Mem.readLE_writeLE_of_disjoint (by omega), Mem.readLE_writeLE]
    norm_num
  · rw [deNameLen, putEntry, Mem.readLE_writeLE_of_disjoint (by omega), Mem.readLE_writeLE]
    norm_num

theorem readEntry_writeLen (m : Mem) (p : ℕ) {v : ℕ} (hv : v < 2 ^ 16) :
    readEntry (m.writeLE (p + 4) 2 v) p = { readEntry m p with recLen := v } := by
  have hname : deNameLen (m.writeLE (p + 4) 2 v) p = deNameLen m p :=
    Mem.readLE_writeLE_of_disjoint (by omega)
  have hlen : deRecLen (m.writeLE (p + 4) 2 v) p = v := by
    rw [deRecLen, Mem.readLE_writeLE, Nat.mod_eq_of_lt (by omega)]
  rw [readEntry, hname, hlen, deInode, Mem.readLE_writeLE_of_disjoint (by omega),
    Mem.bytesAt_congr fun i _ => Mem.writeLE_apply_of_notMem (by omega)]
  rfl

theorem readEntry_writeInode (m : Mem) (p : ℕ) {v : ℕ} (hv : v < 2 ^ 32) :
    readEntry (m.writeLE p 4 v) p = { readEntry m p with inode := v } := by
  have hname : deNameLen (m.writeLE p 4 v) p = deNameLen m p := Mem.readLE_writeLE_of_disjoint (by omega)
  have hino : deInode (m.writeLE p 4 v) p = v := by
    rw [deInode, Mem.readLE_writeLE, Nat.mod_eq_of_lt (by omega)]
  rw [readEntry, hname, hino, deRecLen, Mem.readLE_writeLE_of_disjoint (by omega),
    Mem.bytesAt_congr fun i _ => Mem.writeLE_apply_of_notMem (by omega)]
  rfl

theorem readEntry_putEntry {name : List UInt8} (hino : inode < 2 ^ 32) (hlen : recLen < 2 ^ 16)
    (hname : name.length < 2 ^ 8) :
    readEntry ((putEntry m q inode recLen name.length fileType).copy (q + 8) name.length
      (Mem.ofBytes name)) q = ⟨inode, recLen, name⟩ := by
  obtain ⟨h1, h2, h3⟩ := putEntry_fields m q inode recLen name.length fileType
  have hfield : ∀ a k, a + k ≤ 8 →
      ((putEntry m q inode recLen name.length fileType).copy (q + 8) name.length
        (Mem.ofBytes name)).readLE (q + a) k =
        (putEntry m q inode recLen name.length fileType).readLE (q + a) k :=
    fun a k hk => Mem.readLE_congr fun i hi => Mem.copy_apply_of_notMem (by omega)
  have hinode := (hfield 0 4 (by omega)).trans (h1.trans (Nat.mod_eq_of_lt hino))
  have hrec := (hfield 4 2 (by omega)).trans (h2.trans (Nat.mod_eq_of_lt hlen))
  have hnameLen := (hfield 6 1 (by omega)).trans (h3.trans (Nat.mod_eq_of_lt hname))
  rw [readEntry, deNameLen, hnameLen, Mem.bytesAt_copy, Mem.bytesAt_ofBytes, deRecLen, hrec]
  exact congrArg (DirEntry.mk · recLen name) hinode

end Put

namespace Tiles

variable {m m' : Mem} {stop p q : ℕ} {e : DirEntry} {pre post : List DirEntry} {name : List UInt8}

theorem insertEntry (hpre : Tiles m q p pre) (hpost : Tiles m stop q (e :: post)) (hstop : stop < 2 ^ 16)
    {ino fileType : ℕ} (hino : ino < 2 ^ 32) (hname : name.length < 2 ^ 8)
    (hroom : entryLen e.name.length + entryLen name.length ≤ e.recLen) :
    Tiles (insertEntry m q ino fileType name) stop p
      (pre ++ { e with recLen := entryLen e.name.length } ::
        ⟨ino, e.recLen - entryLen e.name.length, name⟩ :: post) := by
  obtain ⟨heq, hfit, htail⟩ := hpost.head
  have hle := htail.le
  have hlen : deRecLen m q = e.recLen := by rw [← heq]; rfl
  have hlen' : deNameLen m q = e.name.length := by rw [← heq, length_readEntry_name]
  have hused := le_entryLen e.name.length
  have hnew := le_entryLen name.length
  have hmod : name.length % 256 = name.length := Nat.mod_eq_of_lt hname
  -- what was written lies in the entry at `q`
  have hout : ∀ x, x < q + 4 ∨ q + 6 ≤ x ∧ x < q + entryLen e.name.length ∨ q + e.recLen ≤ x →
      KeonOS.insertEntry m q ino fileType name x = m x := by
    intro x hx
    rw [KeonOS.insertEntry, hlen', hlen, hmod, Mem.copy_apply_of_notMem (by omega),
      putEntry_apply_of_notMem (by omega), Mem.writeLE_apply_of_notMem (by omega)]
  have hself : readEntry (KeonOS.insertEntry m q ino fileType name) q =
      { e with recLen := entryLen e.name.length } := by
    rw [← heq, ← readEntry_writeLen m q (v := entryLen (readEntry m q).name.length) (by rw [heq]; omega)]
    refine readEntry_congr (n := entryLen e.name.length) ?_ fun x h1 h2 => ?_
    · rwa [readEntry_writeLen m q (by rw [heq]; omega), heq]
    · rw [KeonOS.insertEntry, hlen', hlen, hmod, Mem.copy_apply_of_notMem (by omega),
        putEntry_apply_of_notMem (by omega), heq]
  have hnewEntry : readEntry (KeonOS.insertEntry m q ino fileType name) (q + entryLen e.name.length) =
      ⟨ino, e.recLen - entryLen e.name.length, name⟩ := by
    rw [KeonOS.insertEntry, hlen', hlen, hmod]
    exact readEntry_putEntry hino (by omega) hname
  refine (hpre.congr fun x h1 h2 => hout x (by omega)).append (.cons hself ⟨?_, ?_, le_rfl⟩
    (.cons hnewEntry ⟨?_, ?_, ?_⟩ ?_))
  · exact lt_of_lt_of_le (by omega) hused
  · exact dvd_entryLen _
  · change 0 < e.recLen - entryLen e.name.length
    omega
  · exact Nat.dvd_sub hfit.dvd (dvd_entryLen _)
  · change entryLen name.length ≤ e.recLen - entryLen e.name.length
    omega
  · rw [show q + entryLen e.name.length + (e.recLen - entryLen e.name.length) = q + e.recLen by omega]
    exact htail.congr fun x h1 h2 => hout x (by omega)

theorem clear (h : Tiles m stop p (e :: post)) :
    Tiles (m.writeLE p 4 0) stop p ({ e with inode := 0 } :: post) := by
  obtain ⟨heq, hfit, htail⟩ := h.head
  have hlen := (le_entryLen e.name.length).trans hfit.le
  refine .cons ?_ ⟨hfit.pos, hfit.dvd, hfit.le⟩ (htail.congr fun x h1 _ => ?_)
  · rw [readEntry_writeInode m p (by norm_num), heq]
  · exact Mem.writeLE_apply_of_notMem (by omega)

theorem merge {r : ℕ} {x : DirEntry} (hpre : Tiles m r p pre) (hx : Tiles m q r [x])
    (h : Tiles m stop q (e :: post)) (hstop : stop < 2 ^ 16) :
    Tiles (m.writeLE (r + 4) 2 (x.recLen + e.recLen)) stop p
      (pre ++ { x with recLen := x.recLen + e.recLen } :: post) := by
  obtain ⟨hxeq, hxfit, hxtail⟩ := hx.head
  obtain ⟨heq, hfit, htail⟩ := h.head
  obtain rfl : q = r + x.recLen := by cases hxtail; rfl
  have hlen := (le_entryLen x.name.length).trans hxfit.le
  have hle := htail.le
  refine (hpre.congr fun y _ h2 => Mem.writeLE_apply_of_notMem (by omega)).append
    (.cons ?_ ⟨?_, ?_, ?_⟩ ?_)
  · rw [readEntry_writeLen m r (by omega), hxeq]
  · exact Nat.add_pos_left hxfit.pos _
  · exact Nat.dvd_add hxfit.dvd hfit.dvd
  · exact hxfit.le.trans (Nat.le_add_right _ _)
  · rw [← Nat.add_assoc]
    exact htail.congr fun y h1 _ => Mem.writeLE_apply_of_notMem (by omega)

theorem removeEntry {es : List DirEntry} {prev : Option ℕ}
    (h : Hit m stop p name none es q prev pre e post) (hstop : stop < 2 ^ 16) :
    ∃ es', Tiles (removeEntry m q prev) stop p es' ∧
      liveEntries es' = liveEntries pre ++ liveEntries post := by
  have hlen : deRecLen m q = e.recLen := by rw [← h.after.head.1]; rfl
  rcases h.prev with ⟨rfl, rfl, rfl⟩ | ⟨r, pre₀, x, rfl, rfl, hpre₀, hx⟩
  · refine ⟨_, h.after.clear, ?_⟩
    rfl
  have hlen' : deRecLen m r = x.recLen := by rw [← hx.head.1]; rfl
  refine ⟨pre₀ ++ { x with recLen := x.recLen + e.recLen } :: post, ?_, ?_⟩
  · rw [KeonOS.removeEntry, hlen, hlen']
    exact hpre₀.merge hx h.after hstop
  · rw [liveEntries_append, liveEntries_cons, liveEntries_append, append_assoc,
      liveEntries_singleton, liveEntries_singleton]

end Tiles

/-! ## New directories -/

theorem tiles_newDirBlock {bs ino parent : ℕ} (hbs : 24 ≤ bs) (hdvd : 4 ∣ bs) (hlt : bs < 2 ^ 16)
    (hino : ino < 2 ^ 32) (hparent : parent < 2 ^ 32) :
    Tiles (newDirBlock bs ino parent) bs 0 [⟨ino, 12, [0x2E]⟩, ⟨parent, bs - 12, [0x2E, 0x2E]⟩] := by
  obtain ⟨h1, h2, h3⟩ := putEntry_fields (fun _ => 0) 0 ino 12 1 ftDir
  obtain ⟨k1, k2, k3⟩ := putEntry_fields
    ((putEntry (fun _ => 0) 0 ino 12 1 ftDir).writeLE 8 1 0x2E) 12 parent (bs - 12) 2 ftDir
  -- the first entry lies before what is written after it
  have hfirst : ∀ x < 12, newDirBlock bs ino parent x =
      (putEntry (fun _ => 0) 0 ino 12 1 ftDir).writeLE 8 1 0x2E x := by
    intro x hx
    rw [newDirBlock, Mem.writeLE_apply_of_notMem (by omega), Mem.writeLE_apply_of_notMem (by omega),
      putEntry_apply_of_notMem (by omega)]
  have hf : ∀ a k, a + k ≤ 8 → (newDirBlock bs ino parent).readLE a k =
      (putEntry (fun _ => 0) 0 ino 12 1 ftDir).readLE a k := by
    intro a k hk
    rw [← Mem.readLE_writeLE_of_disjoint (m := putEntry (fun _ => 0) 0 ino 12 1 ftDir) (a := 8) (n := 1)
      (v := 0x2E) (by omega)]
    exact Mem.readLE_congr fun i hi => hfirst _ (by omega)
  have hg : ∀ a k, 12 ≤ a → a + k ≤ 20 → (newDirBlock bs ino parent).readLE a k =
      (putEntry ((putEntry (fun _ => 0) 0 ino 12 1 ftDir).writeLE 8 1 0x2E) 12 parent (bs - 12) 2
        ftDir).readLE a k := by
    intro a k _ hk
    rw [newDirBlock, Mem.readLE_writeLE_of_disjoint (by omega), Mem.readLE_writeLE_of_disjoint (by omega)]
  have hdot : entryLen 1 = 12 := by decide
  have hdots : entryLen 2 = 12 := by decide
  refine .cons ?_ ⟨by norm_num, by norm_num, hdot.le⟩ (.cons ?_ ⟨?_, ?_, ?_⟩ ?_)
  · have hlen : deNameLen (newDirBlock bs ino parent) 0 = 1 := (hf 6 1 (by norm_num)).trans h3
    rw [readEntry, hlen]
    refine DirEntry.mk.injEq .. |>.mpr ⟨?_, (hf 4 2 (by norm_num)).trans h2, ?_⟩
    · exact (hf 0 4 (by norm_num)).trans (h1.trans (Nat.mod_eq_of_lt hino))
    · simp [Mem.bytesAt, hfirst, Mem.writeLE]
  · have hlen : deNameLen (newDirBlock bs ino parent) 12 = 2 :=
      (hg 18 1 (by norm_num) (by norm_num)).trans k3
    rw [readEntry, show 0 + 12 = 12 from rfl, hlen]
    refine DirEntry.mk.injEq .. |>.mpr ⟨?_, ?_, ?_⟩
    · exact (hg 12 4 (by norm_num) (by norm_num)).trans (k1.trans (Nat.mod_eq_of_lt hparent))
    · exact (hg 16 2 (by norm_num) (by norm_num)).trans (k2.trans (Nat.mod_eq_of_lt (by omega)))
    · simp [Mem.bytesAt, newDirBlock, Mem.writeLE, range_succ]
  · change 0 < bs - 12
    omega
  · exact Nat.dvd_sub hdvd (by norm_num)
  · exact hdots.le.trans (show 12 ≤ bs - 12 by omega)
  · rw [show 0 + 12 + (bs - 12) = bs by omega]
    exact .nil

end KeonOS
