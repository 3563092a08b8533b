import Briefs.Xattr.Block

/-!
# BrieFS — packed attributes are loaded back

The round trip of the entries through the blocks of a chain: packing, spilling into
continuation blocks and reassembly. A value is read back up to the length that its 16-bit
field holds, so it is lost when it has 65536 bytes.

## Results

* `Group.Ok` — only the last value of a block is spilled, and then the block is full.
* `loadEntries_chainBlocks` — what is packed is loaded, in the same order.
-/

namespace Briefs.Xattr

open Briefs.Journal

--
-- Bytes
--

@[simp] theorem length_slice (b : Block) (off len : Nat) : (slice b off len).length = len := by
  simp [slice]

theorem take_slice (b : Block) (off : Nat) {k len : Nat} (h : k ≤ len) :
    (slice b off len).take k = slice b off k := by
  unfold slice
  rw [← List.map_take, List.take_range, Nat.min_eq_left h]

theorem slice_store (b : Block) (off : Nat) (bytes : List UInt8) :
    slice (b.store off bytes) off bytes.length = bytes := by
  refine List.ext_getElem (by simp) ?_
  intro k hk hk'
  have hByte : b.store off bytes (off + k) = bytes.getD k 0 := store_inside b hk'
  simp only [slice, List.getElem_map, List.getElem_range, hByte]
  simp [hk']

theorem slice_eq_of_agree {b b' : Block} {off len : Nat}
    (h : ∀ i, off ≤ i → i < off + len → b' i = b i) : slice b' off len = slice b off len := by
  unfold slice
  refine List.map_congr_left ?_
  intro k hk
  have hLt := List.mem_range.1 hk
  exact h (off + k) (by omega) (by omega)

theorem le_align4 (n : Nat) : n ≤ align4 n := by
  unfold align4
  omega

theorem align4_of_dvd {n : Nat} (h : n % 4 = 0) : align4 n = n := by
  unfold align4
  omega

theorem align4_mod (n : Nat) : align4 n % 4 = 0 := by
  unfold align4
  omega

--
-- Continuation blocks
--

theorem XBlock.payload_pos {x : XBlock} {first : Bool} {fragOff start avail : Nat}
    (h : x.payload first fragOff = some (start, avail)) : 0 < avail := by
  unfold XBlock.payload at h
  dsimp only at h
  split at h
  · cases h
  · split at h
    · cases h
    · obtain ⟨-, rfl⟩ := Prod.mk.inj (Option.some.inj h)
      omega

theorem gather_zero (fragOff : Nat) (first : Bool) (xs : List XBlock) :
    gather fragOff first xs 0 = .ok [] := by
  cases xs with
  | nil => rfl
  | cons x xs =>
    unfold gather
    rw [if_pos rfl]

/-- The fragments of a value are put together again. -/
theorem gather_frags (value : List UInt8) (fragOff : Nat) (rest : List XBlock) :
    ∀ (fuel off need : Nat), value.length ≤ off + fuel → need ≤ value.length - off →
      gather fragOff false ((frags value fuel off).map contBlock ++ rest) need =
        .ok ((value.drop off).take need) := by
  intro fuel
  induction fuel with
  | zero =>
    intro off need hFuel hNeed
    obtain rfl : need = 0 := by omega
    rw [gather_zero]
    rfl
  | succ fuel ih =>
    intro off need hFuel hNeed
    by_cases hZero : need = 0
    · rw [hZero, gather_zero]
      rfl
    have hMore : ¬ value.length ≤ off := by omega
    have hMax : maxPayload = 4012 := rfl
    unfold frags
    rw [if_neg hMore]
    generalize hFrag : (value.drop off).take maxPayload = frag
    have hLen : frag.length = min maxPayload (value.length - off) := by
      rw [← hFrag, List.length_take, List.length_drop]
    have hPay : (contBlock frag).payload false fragOff = some (hdrSize, frag.length) := by
      unfold XBlock.payload contBlock
      simp only [Bool.false_eq_true, if_false, if_true]
      rw [if_neg (by omega)]
      simp
    have hTake : ∀ k, k ≤ frag.length → frag.take k = (value.drop off).take k := by
      intro k hk
      rw [← hFrag, List.take_take, Nat.min_eq_left (by omega)]
    have hSlice : slice (contBlock frag).data hdrSize (min frag.length need) =
        (value.drop off).take (min frag.length need) := by
      rw [← take_slice _ _ (Nat.min_le_left frag.length need), ← hTake _ (Nat.min_le_left _ _)]
      show (slice (Block.store _ hdrSize frag) hdrSize frag.length).take _ = _
      rw [slice_store]
    rw [List.map_cons, List.cons_append]
    unfold gather
    rw [if_neg hZero, if_neg (by simp), hPay]
    dsimp only
    rw [ih (off + maxPayload) (need - min frag.length need) (by omega) (by omega), hSlice]
    dsimp only
    by_cases hFits : need ≤ frag.length
    · have hMin : min frag.length need = need := by omega
      rw [hMin, Nat.sub_self, List.take_zero, List.append_nil]
    · have hFull : frag.length = maxPayload := by omega
      have hMin : min frag.length need = maxPayload := by omega
      have hSum : maxPayload + (need - maxPayload) = need := by omega
      rw [hMin, ← List.drop_drop, ← List.take_add, hSum]

--
-- The entries of a block
--

/-- The room that the entries take after the records. -/
def room (entries : List (KV × Nat)) : Nat :=
  (entries.map fun e => align4 e.1.name.length + align4 e.2).sum

/-- The records describe the entries, whose bytes lie from `off` on. -/
def LaidOut (data : Block) : Nat → List (KV × Nat) → List Entry → Prop
  | _, [], [] => True
  | off, (kv, inl) :: rest, e :: es =>
    (e.nameLen = kv.name.length ∧ e.valueLen = le16 kv.value.length ∧ e.nameOffset = off ∧
      e.valueOffset = if inl = 0 then 0 else off + align4 kv.name.length) ∧
    slice data off kv.name.length = kv.name ∧
    slice data (off + align4 kv.name.length) inl = kv.value.take inl ∧
    LaidOut data (off + align4 kv.name.length + align4 inl) rest es
  | _, _, _ => False

theorem le16_of_lt {n : Nat} (h : n < 65536) : le16 n = n := Nat.mod_eq_of_lt h

theorem room_cons (kv : KV) (inl : Nat) (rest : List (KV × Nat)) :
    room ((kv, inl) :: rest) = align4 kv.name.length + align4 inl + room rest := by
  simp [room]

/-- What the loop over the entries writes. -/
theorem layEntries_laidOut : ∀ (entries : List (KV × Nat)) (off : Nat) (data : Block),
    off + room entries < 65536 → (∀ e ∈ entries, e.2 ≤ e.1.value.length) →
      LaidOut (layEntries entries off data).2.2 off entries (layEntries entries off data).1 ∧
      (layEntries entries off data).2.1 = off + room entries ∧
      ∀ i < off, (layEntries entries off data).2.2 i = data i := by
  intro entries
  induction entries with
  | nil =>
    intro off data _ _
    exact ⟨trivial, rfl, fun _ _ => rfl⟩
  | cons e rest ih =>
    obtain ⟨kv, inl⟩ := e
    intro off data hRoom hInl
    have hInl' : inl ≤ kv.value.length := hInl (kv, inl) List.mem_cons_self
    have hRest : ∀ e ∈ rest, e.2 ≤ e.1.value.length :=
      fun e he => hInl e (List.mem_cons_of_mem _ he)
    rw [room_cons] at hRoom
    have hName := le_align4 kv.name.length
    have hNameLen : le16 kv.name.length = kv.name.length := le16_of_lt (by omega)
    have hOff : le16 off = off := le16_of_lt (by omega)
    by_cases hZero : inl = 0
    · subst hZero
      have hAlign : align4 0 = 0 := rfl
      rw [hAlign] at hRoom
      obtain ⟨hLaid, hStop, hKept⟩ := ih (off + align4 kv.name.length) (data.store off kv.name)
        (by omega) hRest
      unfold layEntries
      simp only [if_true]
      refine ⟨⟨⟨hNameLen, rfl, hOff, (if_pos rfl).symm⟩, ?_, rfl, ?_⟩, ?_, ?_⟩
      · rw [slice_eq_of_agree fun i _ hHigh => hKept i (by omega), slice_store]
      · rw [hAlign, Nat.add_zero]
        exact hLaid
      · rw [hStop, room_cons, hAlign]
        omega
      · intro i hi
        rw [hKept i (by omega)]
        exact store_outside data (.inl hi)
    · have hValue := le_align4 inl
      have hValueOff : le16 (off + align4 kv.name.length) = off + align4 kv.name.length :=
        le16_of_lt (by omega)
      obtain ⟨hLaid, hStop, hKept⟩ := ih (off + align4 kv.name.length + align4 inl)
        ((data.store off kv.name).store (off + align4 kv.name.length) (kv.value.take inl))
        (by omega) hRest
      have hTake : (kv.value.take inl).length = inl := by rw [List.length_take]; omega
      unfold layEntries
      simp only [if_neg hZero]
      refine ⟨⟨⟨hNameLen, rfl, hOff, ?_⟩, ?_, ?_, hLaid⟩, ?_, ?_⟩
      · rw [if_neg hZero]
        exact hValueOff
      · have hAgree : ∀ i, off ≤ i → i < off + kv.name.length →
            (layEntries rest (off + align4 kv.name.length + align4 inl)
              ((data.store off kv.name).store (off + align4 kv.name.length)
                (kv.value.take inl))).2.2 i = data.store off kv.name i := by
          intro i _ hHigh
          rw [hKept i (by omega)]
          exact store_outside _ (.inl (by omega))
        rw [slice_eq_of_agree hAgree, slice_store]
      · rw [slice_eq_of_agree fun i _ hHigh => hKept i (by omega)]
        have hStored := slice_store (data.store off kv.name) (off + align4 kv.name.length)
          (kv.value.take inl)
        rwa [hTake] at hStored
      · rw [hStop, room_cons]
        omega
      · intro i hi
        rw [hKept i (by omega), store_outside _ (.inl (by omega))]
        exact store_outside data (.inl hi)

--
-- Groups
--

/-- The value is whole in the entry block. -/
def Whole (e : KV × Nat) : Prop := e.2 = e.1.value.length

/-- The last entry of a group whose value goes on in continuation blocks. -/
structure Spilled (g : Group) (front : List (KV × Nat)) (kv : KV) (inl : Nat) : Prop where
  entries : g.entries = front ++ [(kv, inl)]
  front   : ∀ e ∈ front, Whole e
  less    : inl < kv.value.length
  aligned : inl % 4 = 0
  conts   : g.conts = frags kv.value kv.value.length inl
  full    : g.payloadUsed = maxPayload

/-- A group that packing makes: only the last value is spilled, and then the block is full. -/
structure Group.Ok (g : Group) : Prop where
  used    : g.payloadUsed = g.entries.length * entrySize + room g.entries
  most    : g.payloadUsed ≤ maxPayload
  aligned : g.payloadUsed % 4 = 0
  spill   : (g.conts = [] ∧ ∀ e ∈ g.entries, Whole e) ∨ ∃ front kv inl, Spilled g front kv inl

theorem Group.empty_ok : Group.empty.Ok :=
  ⟨rfl, Nat.zero_le _, rfl, .inl ⟨rfl, nofun⟩⟩

theorem KV.need_le {kv : KV} (h : kv.name.length ≤ nameMax) : kv.need ≤ maxPayload := by
  have hMax : maxPayload = 4012 := rfl
  have hName : nameMax = 255 := rfl
  unfold KV.need align4 entrySize
  omega

theorem KV.need_pos (kv : KV) : 8 ≤ kv.need := by
  unfold KV.need entrySize
  omega

theorem KV.need_mod (kv : KV) : kv.need % 4 = 0 := by
  have hMod := align4_mod kv.name.length
  unfold KV.need entrySize
  omega

theorem frags_of_le {value : List UInt8} {off : Nat} (h : value.length ≤ off) (fuel : Nat) :
    frags value fuel off = [] := by
  cases fuel with
  | zero => rfl
  | succ fuel =>
    unfold frags
    rw [if_pos h]

/-- What goes into the entry block: the whole value, or as much as fills the block. -/
theorem Group.inlineLen_cases {g : Group} (h : g.Ok) {kv : KV}
    (hRoom : kv.need ≤ maxPayload - g.payloadUsed) :
    (g.inlineLen kv = kv.value.length ∧
        g.payloadUsed + (kv.need + align4 (g.inlineLen kv)) ≤ maxPayload) ∨
      (g.inlineLen kv < kv.value.length ∧ g.inlineLen kv % 4 = 0 ∧
        g.payloadUsed + (kv.need + align4 (g.inlineLen kv)) = maxPayload) := by
  have hMax : maxPayload % 4 = 0 := by decide
  have hMost := h.most
  have hMod := h.aligned
  have hNeed := kv.need_mod
  unfold Group.inlineLen
  dsimp only
  generalize hRem : maxPayload - g.payloadUsed - kv.need = remaining
  have hRemMod : remaining % 4 = 0 := by omega
  by_cases hNone : kv.value.length = 0 ∨ remaining < 4
  · rw [if_pos hNone]
    have hZero : align4 0 = 0 := rfl
    rw [hZero]
    by_cases hEmpty : kv.value.length = 0
    · left
      omega
    · right
      omega
  · rw [if_neg hNone]
    by_cases hFits : align4 kv.value.length ≤ remaining
    · rw [if_pos hFits]
      left
      omega
    · rw [if_neg hFits]
      right
      have hValue := le_align4 kv.value.length
      have hDiv : remaining / 4 * 4 = remaining := by omega
      have hLess : remaining < kv.value.length := by
        unfold align4 at hFits
        omega
      rw [hDiv, Nat.min_eq_right (by omega), align4_of_dvd hRemMod]
      omega

theorem Group.Ok.place {g : Group} (h : g.Ok) {kv : KV}
    (hRoom : kv.need ≤ maxPayload - g.payloadUsed) : Group.Ok (g.place kv) := by
  have hNeed := kv.need_pos
  -- A spilled group has no room left, so the values so far are whole.
  have hWhole : g.conts = [] ∧ ∀ e ∈ g.entries, Whole e := by
    rcases h.spill with hWhole | ⟨front, kv', inl, hSpilled⟩
    · exact hWhole
    · have hFull := hSpilled.full
      omega
  have hUsed : (g.place kv).payloadUsed =
      (g.place kv).entries.length * entrySize + room (g.place kv).entries := by
    show g.payloadUsed + (kv.need + align4 (g.inlineLen kv)) =
      (g.entries ++ [(kv, g.inlineLen kv)]).length * entrySize +
        room (g.entries ++ [(kv, g.inlineLen kv)])
    have hOld := h.used
    unfold KV.need
    simp only [room, List.length_append, List.length_singleton, List.map_append, List.sum_append,
      List.map_cons, List.map_nil, List.sum_cons, List.sum_nil] at hOld ⊢
    rw [Nat.add_mul]
    omega
  have hMod : (g.place kv).payloadUsed % 4 = 0 := by
    show (g.payloadUsed + (kv.need + align4 (g.inlineLen kv))) % 4 = 0
    have hOld := h.aligned
    have hKV := kv.need_mod
    have hInl := align4_mod (g.inlineLen kv)
    omega
  rcases g.inlineLen_cases h hRoom with ⟨hAll, hLe⟩ | ⟨hLess, hAligned, hFull⟩
  · refine ⟨hUsed, hLe, hMod, .inl ⟨?_, ?_⟩⟩
    · show g.conts ++ frags kv.value kv.value.length (g.inlineLen kv) = []
      rw [hWhole.1, hAll, frags_of_le (Nat.le_refl _)]
      rfl
    · intro e he
      rcases List.mem_append.1 he with hOld | hNew
      · exact hWhole.2 e hOld
      · rw [List.mem_singleton.1 hNew]
        exact hAll
  · refine ⟨hUsed, hFull.le, hMod, .inr ⟨g.entries, kv, g.inlineLen kv, ?_⟩⟩
    refine ⟨rfl, hWhole.2, hLess, hAligned, ?_, hFull⟩
    show g.conts ++ frags kv.value kv.value.length (g.inlineLen kv) = _
    rw [hWhole.1]
    rfl

/-- All groups of a chain are well formed, and together they hold the entries in order. -/
theorem pack_ok : ∀ (kvs : List KV) {g : Group}, g.Ok → (∀ kv ∈ kvs, kv.name.length ≤ nameMax) →
    (∀ g' ∈ pack g kvs, g'.Ok) ∧
      (pack g kvs).flatMap (fun g => g.entries.map Prod.fst) = g.entries.map Prod.fst ++ kvs := by
  intro kvs
  induction kvs with
  | nil =>
    intro g h _
    exact ⟨fun g' hg => by rw [List.mem_singleton.1 hg]; exact h, by simp [pack]⟩
  | cons kv kvs ih =>
    intro g h hNames
    have hName := KV.need_le (hNames kv List.mem_cons_self)
    have hRest : ∀ kv ∈ kvs, kv.name.length ≤ nameMax :=
      fun kv hkv => hNames kv (List.mem_cons_of_mem _ hkv)
    unfold pack
    by_cases hFull : g.isFull kv = true
    · rw [if_pos hFull]
      have hNew : (Group.empty.place kv).Ok := Group.empty_ok.place (by
        show kv.need ≤ maxPayload - 0
        omega)
      obtain ⟨hOk, hEntries⟩ := ih hNew hRest
      refine ⟨?_, ?_⟩
      · intro g' hg
        rcases List.mem_cons.1 hg with rfl | hOld
        · exact h
        · exact hOk g' hOld
      · rw [List.flatMap_cons, hEntries]
        rfl
    · rw [if_neg hFull]
      have hRoom : kv.need ≤ maxPayload - g.payloadUsed := by
        simp only [Group.isFull, Bool.or_eq_true, decide_eq_true_eq] at hFull
        omega
      obtain ⟨hOk, hEntries⟩ := ih (h.place hRoom) hRest
      refine ⟨hOk, ?_⟩
      rw [hEntries]
      show (g.entries ++ [(kv, g.inlineLen kv)]).map Prod.fst ++ kvs = _
      simp

--
-- Loading
--

/-- What is left of an entry: the value up to the length its record can hold. -/
def KV.stored (kv : KV) : KV := ⟨kv.name, kv.value.take (le16 kv.value.length)⟩

theorem le16_le (n : Nat) : le16 n ≤ n := Nat.mod_le _ _

section Gather

variable {x : XBlock} {xs : List XBlock} {value : List UInt8} {off inl need : Nat}

/-- The bytes of a value that the entry block has. -/
theorem XBlock.payload_first (hStop : off + inl ≤ x.usedSize) (hInl : inl ≠ 0) :
    x.payload true off = some (off, x.usedSize - off) := by
  unfold XBlock.payload
  simp only [if_true]
  rw [if_neg (by omega)]

theorem gather_whole (hInl : inl = value.length) (hSlice : slice x.data off inl = value.take inl)
    (hStop : off + inl ≤ x.usedSize) (hOff : 0 < off) (hNeed : need ≤ value.length) :
    gather (if inl = 0 then 0 else off) true (x :: xs) need = .ok (value.take need) := by
  by_cases hZero : need = 0
  · rw [hZero, gather_zero]
    rfl
  have hSome : inl ≠ 0 := by omega
  rw [if_neg hSome]
  unfold gather
  rw [if_neg hZero, if_neg (by omega), XBlock.payload_first hStop hSome]
  dsimp only
  have hMin : min (x.usedSize - off) need = need := by omega
  rw [hMin, Nat.sub_self, gather_zero]
  dsimp only
  have hBytes : slice x.data off need = value.take need := by
    rw [← take_slice x.data off (show need ≤ inl by omega), hSlice, List.take_take,
      Nat.min_eq_left (by omega)]
  rw [hBytes, List.append_nil]

theorem gather_spilled {rest : List XBlock} (hLess : inl < value.length)
    (hSlice : slice x.data off inl = value.take inl) (hStop : x.usedSize = off + inl)
    (hOff : 0 < off) (hNeed : need ≤ value.length) :
    gather (if inl = 0 then 0 else off) true
      (x :: ((frags value value.length inl).map contBlock ++ rest)) need =
        .ok (value.take need) := by
  by_cases hZero : need = 0
  · rw [hZero, gather_zero]
    rfl
  by_cases hNone : inl = 0
  · -- The whole value is in the continuation blocks.
    subst hNone
    unfold gather
    rw [if_neg hZero, if_pos ⟨rfl, if_pos rfl⟩]
    exact gather_frags value _ rest value.length 0 need (by omega) (by omega)
  · rw [if_neg hNone]
    unfold gather
    rw [if_neg hZero, if_neg (by omega), XBlock.payload_first hStop.ge hNone]
    dsimp only
    have hAvail : x.usedSize - off = inl := by omega
    rw [hAvail, gather_frags value _ rest value.length inl (need - min inl need) (by omega)
      (by omega)]
    dsimp only
    have hBytes : slice x.data off (min inl need) = value.take (min inl need) := by
      rw [← take_slice x.data off (Nat.min_le_left inl need), hSlice, List.take_take,
        Nat.min_eq_left (Nat.min_le_left _ _)]
    rw [hBytes]
    by_cases hFits : need ≤ inl
    · rw [Nat.min_eq_right hFits, Nat.sub_self, List.take_zero, List.append_nil]
    · have hSum : inl + (need - inl) = need := by omega
      rw [Nat.min_eq_left (by omega), ← List.take_add, hSum]

end Gather

/-- How the entries from one on end: all are whole, or the last one goes on in `conts`. -/
def Ends (conts : List XBlock) (entries : List (KV × Nat)) : Prop :=
  (∀ e ∈ entries, Whole e) ∨ ∃ front kv inl rest, entries = front ++ [(kv, inl)] ∧
    (∀ e ∈ front, Whole e) ∧ inl < kv.value.length ∧ inl % 4 = 0 ∧
    conts = (frags kv.value kv.value.length inl).map contBlock ++ rest

theorem Ends.tail {conts : List XBlock} {e : KV × Nat} {entries : List (KV × Nat)}
    (h : Ends conts (e :: entries)) : Ends conts entries := by
  rcases h with hWhole | ⟨front, kv, inl, rest, hEq, hFront, hLast⟩
  · exact .inl fun e he => hWhole e (List.mem_cons_of_mem _ he)
  · cases front with
    | nil =>
      obtain ⟨-, rfl⟩ := List.cons.inj hEq
      exact .inl nofun
    | cons f front =>
      obtain ⟨-, rfl⟩ := List.cons.inj hEq
      exact .inr ⟨front, kv, inl, rest, rfl, fun e he => hFront e (List.mem_cons_of_mem _ he), hLast⟩

/-- The value of the first entry is gathered. -/
theorem Ends.gather {x : XBlock} {conts : List XBlock} {kv : KV} {inl off need : Nat}
    {entries : List (KV × Nat)} (h : Ends conts ((kv, inl) :: entries))
    (hSlice : slice x.data off inl = kv.value.take inl)
    (hStop : off + align4 inl + room entries = x.usedSize) (hOff : 0 < off)
    (hNeed : need ≤ kv.value.length) :
    Xattr.gather (if inl = 0 then 0 else off) true (x :: conts) need = .ok (kv.value.take need) := by
  have hInl := le_align4 inl
  have hFirst : Whole (kv, inl) ∨ ∃ rest, inl < kv.value.length ∧ inl % 4 = 0 ∧ entries = [] ∧
      conts = (frags kv.value kv.value.length inl).map contBlock ++ rest := by
    rcases h with hWhole | ⟨front, kv', inl', rest, hEq, hFront, hLess, hMod, hConts⟩
    · exact .inl (hWhole _ List.mem_cons_self)
    · cases front with
      | nil =>
        obtain ⟨hHead, rfl⟩ := List.cons.inj hEq
        obtain ⟨rfl, rfl⟩ := Prod.mk.inj hHead
        exact .inr ⟨rest, hLess, hMod, rfl, hConts⟩
      | cons f front =>
        obtain ⟨rfl, -⟩ := List.cons.inj hEq
        exact .inl (hFront _ List.mem_cons_self)
  rcases hFirst with hWhole | ⟨rest, hLess, hMod, rfl, rfl⟩
  · exact gather_whole hWhole hSlice (by omega) hOff hNeed
  · refine gather_spilled hLess hSlice ?_ hOff hNeed
    rw [← hStop, align4_of_dvd hMod]
    rfl

theorem loadBlock_laidOut {x : XBlock} {conts : List XBlock} : ∀ {entries : List (KV × Nat)}
    {es : List Entry} {off : Nat}, LaidOut x.data off entries es → Ends conts entries →
    off + room entries = x.usedSize → 0 < off →
      loadBlock x (x :: conts) es = .ok (entries.map fun e => e.1.stored) := by
  intro entries
  induction entries with
  | nil =>
    intro es off hLaid _ _ _
    cases es with
    | nil => rfl
    | cons e es => exact hLaid.elim
  | cons entry rest ih =>
    obtain ⟨kv, inl⟩ := entry
    intro es off hLaid hEnds hStop hOff
    cases es with
    | nil => exact hLaid.elim
    | cons e es =>
      obtain ⟨⟨hNameLen, hValueLen, hNameOff, hValueOff⟩, hName, hValue, hRest⟩ := hLaid
      rw [room_cons] at hStop
      have hGather := hEnds.gather hValue (by omega) (by omega) (le16_le kv.value.length)
      have hEntry : loadEntry x (x :: conts) e = .ok kv.stored := by
        unfold loadEntry
        rw [hValueOff, hValueLen, hGather, hNameOff, hNameLen, hName]
        rfl
      unfold loadBlock
      rw [hEntry]
      dsimp only
      rw [ih hRest hEnds.tail (by omega) (by omega)]
      rfl

theorem Group.Ok.ends {g : Group} (h : g.Ok) (rest : List XBlock) :
    Ends (g.conts.map contBlock ++ rest) g.entries := by
  rcases h.spill with ⟨_, hWhole⟩ | ⟨front, kv, inl, hSpilled⟩
  · exact .inl hWhole
  · refine .inr ⟨front, kv, inl, rest, hSpilled.entries, hSpilled.front, hSpilled.less,
      hSpilled.aligned, ?_⟩
    rw [hSpilled.conts]

theorem Group.Ok.inline_le {g : Group} (h : g.Ok) : ∀ e ∈ g.entries, e.2 ≤ e.1.value.length := by
  intro e he
  rcases h.spill with ⟨_, hWhole⟩ | ⟨front, kv, inl, hSpilled⟩
  · exact (hWhole e he).le
  · rw [hSpilled.entries] at he
    rcases List.mem_append.1 he with hFront | hLast
    · exact (hSpilled.front e hFront).le
    · rw [List.mem_singleton.1 hLast]
      exact hSpilled.less.le

theorem loadBlock_group {g : Group} (h : g.Ok) (rest : List XBlock) :
    loadBlock g.entryBlock (g.blocks ++ rest) g.entryBlock.entries =
      .ok (g.entries.map fun e => e.1.stored) := by
  have hUsed := h.used
  have hMost := h.most
  have hMax : maxPayload = 4012 := rfl
  have hHdr : hdrSize = 32 := rfl
  have hEntry : entrySize = 8 := rfl
  obtain ⟨hLaid, hStop, _⟩ := layEntries_laidOut g.entries
    (hdrSize + g.entries.length * entrySize) (fun _ => 0) (by omega) h.inline_le
  exact loadBlock_laidOut hLaid (h.ends rest) hStop.symm (by omega)

theorem loadEntries_conts (frags : List (List UInt8)) (rest : List XBlock) :
    loadEntries (frags.map contBlock ++ rest) = loadEntries rest := by
  induction frags with
  | nil => rfl
  | cons frag frags ih =>
    rw [List.map_cons, List.cons_append, ← ih]
    conv_lhs => unfold loadEntries
    exact if_pos rfl

theorem loadEntries_groups : ∀ (gs : List Group), (∀ g ∈ gs, g.Ok) →
    loadEntries (gs.flatMap Group.blocks) =
      .ok ((gs.flatMap fun g => g.entries.map Prod.fst).map KV.stored) := by
  intro gs
  induction gs with
  | nil => exact fun _ => rfl
  | cons g gs ih =>
    intro hOk
    have hRest := ih fun g' hg => hOk g' (List.mem_cons_of_mem _ hg)
    have hLoad := loadBlock_group (hOk g List.mem_cons_self) (gs.flatMap Group.blocks)
    rw [List.flatMap_cons]
    show loadEntries (g.entryBlock :: (g.conts.map contBlock ++ gs.flatMap Group.blocks)) = _
    have hBlocks : g.blocks ++ gs.flatMap Group.blocks =
        g.entryBlock :: (g.conts.map contBlock ++ gs.flatMap Group.blocks) := rfl
    rw [hBlocks] at hLoad
    have hEntry : ¬ g.entryBlock.cont = true := nofun
    unfold loadEntries
    rw [if_neg hEntry, hLoad, loadEntries_conts, hRest]
    simp

/-- Loading a chain that was packed gives the entries as they are stored. -/
theorem loadEntries_chainBlocks {kvs : List KV} (h : ∀ kv ∈ kvs, kv.name.length ≤ nameMax) :
    loadEntries (chainBlocks kvs) = .ok (kvs.map KV.stored) := by
  unfold chainBlocks
  cases kvs with
  | nil => rfl
  | cons kv kvs =>
    obtain ⟨hOk, hEntries⟩ := pack_ok (kv :: kvs) Group.empty_ok h
    show loadEntries ((pack Group.empty (kv :: kvs)).flatMap Group.blocks) = _
    rw [loadEntries_groups _ hOk, hEntries]
    rfl

end Briefs.Xattr
