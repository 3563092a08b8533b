import Briefs.Btree.Spend
import Briefs.Btree.Written

/-!
# BrieFS — a conversion and the wings of its extent

`briefs_convert_unwritten_range` shrinks the unwritten extent over the first block to the part that
is written, and then puts the rest back: the wing before the range, and the one behind it. A wing
that finds no block for a node is lost.

How many blocks the wings take can be read off the index before the call. An entry of the leaf that
adjoins a wing takes it in. Otherwise it needs an entry, and every full node on its way is split; the
nodes that the first wing fills on the way are split for the second one.

## Results

* `convert_keeps_iff` — a conversion keeps every mapping unless there are fewer free blocks than its
  wings take.
-/

namespace Briefs.Btree

open Briefs.Journal

section Wings

variable {f : File} {start stop : Nat}

/-- The parts of an unwritten extent that a conversion of `[start, stop)` puts back. -/
def wings (start stop : Nat) (e : Extent) : Nat :=
  (if e.offset < start then 1 else 0) + if stop < e.stop then 1 else 0

/-- Every block that was mapped is mapped to the same physical block. -/
def KeepsMapping (l l' : List Extent) : Prop :=
  ∀ x ∈ cells l, ∃ y ∈ cells l', y.1 = x.1 ∧ y.2.1 = x.2.1

instance (l l' : List Extent) : Decidable (KeepsMapping l l') :=
  inferInstanceAs (Decidable (∀ x ∈ cells l, ∃ y ∈ cells l', y.1 = x.1 ∧ y.2.1 = x.2.1))

theorem KeepsMapping.refl (l : List Extent) : KeepsMapping l l := fun x hx => ⟨x, hx, rfl, rfl⟩

/-- The blocks that putting the wings of `e` back takes: those of the full nodes on the way to its
leaf, for a second wing also those of the nodes that the first one fills, or the leaf that a full
inline array spills into. A wing that an entry of the leaf adjoins needs no entry. -/
def wingCost (f : File) (start stop : Nat) (e : Extent) : Nat :=
  let left := decide (e.offset < start) && !(f.routed start).any fun x => adjoins x e
  let right := decide (stop < e.stop) && !(f.routed start).any fun x => adjoins e x
  if f.indexed then
    match wings start stop e with
    | 0 => 0
    | 1 => splitCost (fulls (f.way start))
    | _ => splitCost (fulls (f.way start)) + splitCost (tight left (f.way start))
  else if 8 < f.inline.length + left.toNat + right.toNat then 1 else 0

/-- The part of an extent before the range. -/
def Extent.before (e : Extent) (start : Nat) : Extent := { e with len := start - e.offset }

/-- The part of an extent after the range. -/
def Extent.after (e : Extent) (stop : Nat) : Extent :=
  { e with offset := stop, phys := e.phys + (stop - e.offset), len := e.stop - stop }

theorem convertExtent_snd {e : Extent} (hCov : e.covers start) :
    (convertExtent start stop e).2 = (if e.offset < start then [e.before start] else []) ++
      if stop < e.stop then [e.after stop] else [] := by
  obtain ⟨hLo, hHi⟩ := hCov
  unfold convertExtent
  dsimp only
  by_cases hWhole : start = e.offset ∧ min stop e.stop = e.stop
  · rw [if_pos hWhole, if_neg (by omega), if_neg (by omega)]
    rfl
  · rw [if_neg hWhole]
    by_cases hRight : stop < e.stop
    · rw [Nat.min_eq_left (Nat.le_of_lt hRight)]
      rfl
    · have hNone : ¬ min stop e.stop < e.stop := by omega
      simp only [hNone, hRight, if_false]
      rfl

/-- Where the entries of an ordered leaf stand around one of them. -/
theorem ordered_around {A B : List Extent} {e : Extent} (h : Ordered (A ++ e :: B)) :
    (∀ x ∈ A, x.stop ≤ e.offset) ∧ ∀ x ∈ B, e.stop ≤ x.offset := by
  obtain ⟨-, hRight, hCross⟩ := List.pairwise_append.mp h
  exact ⟨fun x hx => hCross x hx e List.mem_cons_self, (List.pairwise_cons.mp hRight).1⟩

/-- What is left of the extent does not continue the wing before it. -/
theorem before_apart {A B : List Extent} {e m : Extent} (hOrd : Ordered (A ++ e :: B))
    (hLo : e.offset < start) (hHi : start < e.stop) (hFlags : m.flags ≠ e.flags) :
    ∀ x ∈ A ++ m :: B, adjoins (e.before start) x ≠ true := by
  obtain ⟨hBefore, hAfter⟩ := ordered_around hOrd
  intro x hx hAdj
  obtain ⟨hOff, -, hSame⟩ := adjoins_iff.mp hAdj
  have hAt : e.offset + (start - e.offset) = x.offset := hOff
  rcases List.mem_append.mp hx with hx | hx
  · have hStop := hBefore x hx
    have hLe := x.offset_le_stop
    omega
  · rcases List.mem_cons.mp hx with rfl | hx
    · exact hFlags hSame.symm
    · have hStart := hAfter x hx
      omega

/-- A wing before the range is merged with an entry that the extent continues. -/
theorem before_joins {A B : List Extent} {e m : Extent} (hOrd : Ordered (A ++ e :: B))
    (hLo : e.offset < start) (hHi : start < e.stop) (hFlags : m.flags ≠ e.flags) :
    (∃ x ∈ A ++ m :: B, adjoins x (e.before start) = true ∨ adjoins (e.before start) x = true) ↔
      (A ++ e :: B).any (fun x => adjoins x e) = true := by
  rw [List.any_eq_true]
  constructor
  · rintro ⟨x, hx, hAdj | hAdj⟩
    · have hJoins : adjoins x e = true := hAdj
      rcases List.mem_append.mp hx with hx | hx
      · exact ⟨x, List.mem_append_left _ hx, hJoins⟩
      · rcases List.mem_cons.mp hx with rfl | hx
        · exact absurd (adjoins_iff.mp hAdj).2.2 hFlags
        · exact ⟨x, List.mem_append_right _ (List.mem_cons_of_mem _ hx), hJoins⟩
    · exact absurd hAdj (before_apart hOrd hLo hHi hFlags x hx)
  · rintro ⟨x, hx, hAdj⟩
    refine ⟨x, ?_, Or.inl hAdj⟩
    rcases List.mem_append.mp hx with hx | hx
    · exact List.mem_append_left _ hx
    · rcases List.mem_cons.mp hx with rfl | hx
      · have hOff := (adjoins_iff.mp hAdj).1
        have hLen : x.stop = x.offset + x.len := rfl
        omega
      · exact List.mem_append_right _ (List.mem_cons_of_mem _ hx)

/-- A wing after the range is merged with an entry that continues the extent. -/
theorem after_joins {A B out : List Extent} {e m : Extent} (hOrd : Ordered (A ++ e :: B))
    (hLo : e.offset < stop) (hHi : stop < e.stop) (hm : m.stop = stop) (hFlags : m.flags ≠ e.flags)
    (hOut : ∀ x ∈ out, x.stop < stop ∨ x = m ∨ x ∈ B) (hB : ∀ x ∈ B, x ∈ out) :
    (∃ x ∈ out, adjoins x (e.after stop) = true ∨ adjoins (e.after stop) x = true) ↔
      (A ++ e :: B).any (fun x => adjoins e x) = true := by
  obtain ⟨hBefore, hAfter⟩ := ordered_around hOrd
  have hEnd : e.stop = e.offset + e.len := rfl
  have hJoins : ∀ x, adjoins (e.after stop) x = true ↔ adjoins e x = true := by
    intro x
    rw [adjoins_iff, adjoins_iff]
    show stop + (e.stop - stop) = x.offset ∧
      e.phys + (stop - e.offset) + (e.stop - stop) = x.phys ∧ e.flags = x.flags ↔ _
    omega
  rw [List.any_eq_true]
  constructor
  · rintro ⟨x, hx, hAdj⟩
    have hLe := x.offset_le_stop
    rcases hAdj with hAdj | hAdj
    · obtain ⟨hOff, -, hSame⟩ := adjoins_iff.mp hAdj
      have hAt : x.stop = stop := hOff
      rcases hOut x hx with hStop | rfl | hIn
      · omega
      · exact absurd hSame hFlags
      · have hStart := hAfter x hIn
        omega
    · have hOff := (adjoins_iff.mp ((hJoins x).mp hAdj)).1
      rcases hOut x hx with hStop | rfl | hIn
      · omega
      · omega
      · exact ⟨x, by simp [hIn], (hJoins x).mp hAdj⟩
  · rintro ⟨x, hx, hAdj⟩
    have hOff := (adjoins_iff.mp hAdj).1
    have hLe := x.offset_le_stop
    rcases List.mem_append.mp hx with hx | hx
    · have hStop := hBefore x hx
      omega
    · rcases List.mem_cons.mp hx with rfl | hx
      · omega
      · exact ⟨x, hB x hx, Or.inr ((hJoins x).mpr hAdj)⟩

/-- The leaf after the wing before the range is back. -/
theorem before_stored {A B out : List Extent} {e m : Extent} {added : Bool}
    (hOrd : Ordered (A ++ e :: B)) (hOrd' : Ordered (A ++ m :: B)) (hLo : e.offset < start)
    (hHi : start < e.stop) (hStart : start < stop) (hFlags : m.flags ≠ e.flags)
    (h : insertExtent (A ++ m :: B) (e.before start) = .ok (added, out)) :
    (∀ x ∈ out, x.stop < stop ∨ x = m ∨ x ∈ B) ∧ ∀ x ∈ B, x ∈ out := by
  obtain ⟨hBefore, hAfter⟩ := ordered_around hOrd
  have hEnd : (e.before start).stop = start := by
    show e.offset + (start - e.offset) = start
    omega
  obtain ⟨l, r, hSplit, hl, hr, hScan, hCases⟩ := insertExtent_cases h
  obtain ⟨hLeft, hRight⟩ := slot_clear hOrd' (by show 0 < start - e.offset; omega) hScan
  rw [← hl] at hLeft
  rw [← hr] at hRight
  have hOff : (e.before start).offset = e.offset := rfl
  have hl' : ∀ x ∈ l, x.stop < stop := fun x hx => by
    have hStop := hLeft x hx
    omega
  have hr' : ∀ x ∈ r, x.stop < stop ∨ x = m ∨ x ∈ B := by
    intro x hx
    have hIn : x ∈ A ++ m :: B := hSplit ▸ List.mem_append_right _ hx
    rcases List.mem_append.mp hIn with hIn | hIn
    · have hStop := hBefore x hIn
      exact Or.inl (by omega)
    · exact Or.inr (List.mem_cons.mp hIn)
  have hB : ∀ x ∈ B, x ∈ r := by
    intro x hx
    have hIn : x ∈ l ++ r := hSplit ▸ List.mem_append_right _ (List.mem_cons_of_mem _ hx)
    rcases List.mem_append.mp hIn with hIn | hIn
    · have hStop := hLeft x hIn
      have hStart := hAfter x hx
      have hLe := x.offset_le_stop
      omega
    · exact hIn
  rcases hCases with ⟨l', left, rfl, hAdj, -, rfl⟩ | ⟨right, r', rfl, hAdj, -, rfl⟩ | ⟨-, rfl⟩
  · refine ⟨fun x hx => ?_, fun x hx => by simp [hB x hx]⟩
    rcases List.mem_append.mp hx with hx | hx
    · exact Or.inl (hl' x (List.mem_append_left _ hx))
    · rcases List.mem_cons.mp hx with rfl | hx
      · have hAt := (adjoins_iff.mp hAdj).1
        refine Or.inl ?_
        show left.offset + (left.len + (start - e.offset)) < stop
        omega
      · exact hr' x hx
  · exact absurd hAdj (before_apart hOrd hLo hHi hFlags right (hSplit ▸ by simp))
  · refine ⟨fun x hx => ?_, fun x hx => by simp [hB x hx]⟩
    rcases List.mem_append.mp hx with hx | hx
    · exact Or.inl (hl' x hx)
    · rcases List.mem_cons.mp hx with rfl | hx
      · exact Or.inl (by omega)
      · exact hr' x hx

section Cost

variable {P Q : List Extent} {e w : Extent} {f1 f2 : File} {code : Option Errno}

/-- The parts of an extent have one way. -/
theorem Shrunk.near {c : Content} {key key' : Nat} (hs : Shrunk start stop f c P e Q f1)
    (hNo : NoCross c) (hKey : e.covers key) (hKey' : e.covers key') : Near c.seps key key' := by
  intro k hk
  have hCross := hNo e hs.mem k hk
  unfold Extent.crosses at hCross
  obtain ⟨hLo, hHi⟩ := hKey
  obtain ⟨hLo', hHi'⟩ := hKey'
  omega

theorem routed_ok {c : Content} {key : Nat} (h : Holds f c) (hKey : key < fileTop) :
    Ordered (f.routed key) ∧ ∀ x ∈ f.routed key, 0 < x.len := by
  by_cases hIdx : f.indexed = true
  · obtain ⟨d, hSub⟩ := h.tree hIdx
    rw [routed_eq hSub hIdx hKey]
    exact ⟨hSub.routeLeaf_ordered (Nat.zero_le _) hKey,
      fun x hx => h.pos x (hSub.routeLeaf_subset _ (Nat.zero_le _) hKey hx)⟩
  · obtain ⟨-, hLeaf, -⟩ := h.flat (by simpa using hIdx)
    unfold File.routed
    rw [if_neg hIdx]
    exact ⟨hLeaf.ordered, hLeaf.pos⟩

/-- What an insertion into an inline array that is not refused finds there. -/
theorem insertLocked_inline {c : Content} (h : Holds f c) (hIdx : f.indexed = false)
    (hLen : 0 < w.len) (hEq : insertLocked levels f w = some (code, f2))
    (hClash : code ≠ some .eexist) : ∃ added out, insertExtent f.inline w = .ok (added, out) ∧
      (code = none → added = true ∧ 8 ≤ f.inline.length ∧ f2.indexed = true ∧
          (∀ key, splitCost (fulls (f2.way key)) = 0) ∨
        (added = true → f.inline.length < 8) ∧ f2.indexed = false ∧ f2.inline = out) := by
  rw [insertLocked_eq, if_neg (by simp [hIdx])] at hEq
  cases insertInline_passed (h.raise w.stop) hIdx hLen hEq with
  | clash hIns => exact absurd rfl hClash
  | @stored added out _ hIns hRoom hAlloc hFlat hOut =>
    exact ⟨added, out, hIns, fun _ => Or.inr ⟨hRoom, hFlat.trans hIdx, hOut⟩⟩
  | @spilled out _ _ hIns hFull hTakes hNext =>
    exact ⟨true, out, hIns, fun hCode => Or.inl ⟨rfl, hFull, hNext hCode⟩⟩

/-- The way of a part of the extent. -/
theorem Shrunk.way_part {c : Content} {key : Nat} (hs : Shrunk start stop f c P e Q f1)
    (h : Holds f c) (hNo : NoCross c) (hIdx : f.indexed = true) (hKey : e.covers key) :
    f1.way key = f.way start ∧ f1.routed key = f1.routed start := by
  have hTop : ∀ k, e.covers k → k < fileTop := fun k hk =>
    Nat.lt_trans hk.2 (h.stops e hs.mem)
  have hIdx1 : f1.indexed = true := hs.indexed.trans hIdx
  obtain ⟨d, hSub⟩ := hs.holds.tree hIdx1
  obtain ⟨hWay, hLeaf⟩ := Near.route (d + 1) hSub (Nat.zero_le _) (hTop key hKey)
    (hs.near hNo hKey hs.covers)
  rw [← hs.way hIdx, way_eq hSub (hTop _ hKey), way_eq hSub (hTop _ hs.covers),
    routed_eq hSub hIdx1 (hTop _ hKey), routed_eq hSub hIdx1 (hTop _ hs.covers)]
  exact ⟨hWay, hLeaf⟩

/-- The length of the inline array does not change when the extent is shrunk. -/
theorem Shrunk.inline_length {c : Content} (hs : Shrunk start stop f c P e Q f1)
    (hIdx : f.indexed = false) :
    f1.inline = f1.routed start ∧ f1.inline.length = f.inline.length := by
  obtain ⟨A, B, hOld, hNew⟩ := hs.leaf
  have hOldInline : f.inline = f.routed start := by
    unfold File.routed
    rw [if_neg (by simp [hIdx])]
  have hNewInline : f1.inline = f1.routed start := by
    unfold File.routed
    rw [if_neg (by simp [hs.indexed, hIdx])]
  refine ⟨hNewInline, ?_⟩
  rw [hNewInline, hOldInline, hOld, hNew, List.length_append, List.length_append, List.length_cons,
    List.length_cons]

/-- The cost of the wing that is put back first. -/
theorem Shrunk.first_cost {c : Content} {joined : Bool} (hs : Shrunk start stop f c P e Q f1)
    (h : Holds f c) (hNo : NoCross c) (hTop : start < fileTop) (hKey : e.covers w.offset)
    (hLen : 0 < w.len) (hEq : insertLocked levels f1 w = some (code, f2))
    (hClash : code ≠ some .eexist)
    (hJoin : (∃ x ∈ f1.routed start, adjoins x w = true ∨ adjoins w x = true) ↔ joined = true) :
    insertCost f1 w = if f.indexed then splitCost (fulls (f.way start))
      else if 8 < f.inline.length + (!joined).toNat then 1 else 0 := by
  unfold insertCost
  by_cases hIdx : f.indexed = true
  · rw [if_pos (hs.indexed.trans hIdx), if_pos hIdx, (hs.way_part h hNo hIdx hKey).1]
  · have hFlat : f.indexed = false := by simpa using hIdx
    obtain ⟨hInline, hSame⟩ := hs.inline_length hFlat
    obtain ⟨hOrd, hPos⟩ := routed_ok hs.holds hTop
    obtain ⟨added, out, hIns, -⟩ :=
      insertLocked_inline hs.holds (hs.indexed.trans hFlat) hLen hEq hClash
    have hMerge := insertExtent_merges (hInline ▸ hOrd) (hInline ▸ hPos) hLen hIns
    rw [hInline, hJoin] at hMerge
    obtain ⟨-, -, hEight⟩ := h.flat hFlat
    rw [if_neg (by simp [hs.indexed, hFlat]), if_neg hIdx, hIns, hSame]
    cases added with
    | false =>
      rw [hMerge.mp rfl]
      exact (if_neg (by simp; omega)).symm
    | true =>
      have hApart : joined = false := by simpa using hMerge
      rw [hApart]
      dsimp only
      split
      · rw [if_pos (by simp; omega)]
      · rw [if_neg (by simp; omega)]



theorem Takes.short_iff {n : Nat} (ht : Takes n f code f2) :
    code = some .enospc ↔ Exhausts n f.alloc := by
  refine ⟨ht.short, fun hEx => ?_⟩
  by_contra hCode
  have hTaken := ht.taken hCode
  unfold Exhausts at hEx
  omega

theorem insertAll_one (f : File) (w : Extent) :
    insertAll levels [w] f = insertLocked levels f w := by
  unfold insertAll
  rcases insertLocked levels f w with _ | ⟨_ | err, g⟩
  · rfl
  · rfl
  · rfl

/-- An extent that is apart from the others is not refused. -/
theorem insertLocked_clear {c : Content} {rest : List Extent} (h : Holds f c) (hLen : 0 < w.len)
    (hStop : w.stop < fileTop) (hDist : Distinct (cells c.exts ++ cells (w :: rest)))
    (hEq : insertLocked levels f w = some (code, f2)) : code ≠ some .eexist := by
  intro hBad
  obtain ⟨code', f', c', hEq', hd⟩ := insertLocked_spec h hLen hStop ten_le_levels
  rw [hEq] at hEq'
  obtain ⟨rfl, -⟩ := Prod.mk.inj (Option.some.inj hEq')
  obtain ⟨x, hx, hOver⟩ := hd.clash hBad
  exact not_distinct_of_overlaps hx hOver List.mem_cons_self (h.pos x hx) hLen hDist

/-- The leaf around a shrunk extent. -/
structure Around (f f1 : File) (start stop : Nat) (e : Extent) (A B : List Extent) : Prop where
  before  : f.routed start = A ++ e :: B
  after   : f1.routed start = A ++ (convertExtent start stop e).1 :: B
  ordered : Ordered (A ++ e :: B)
  sorted  : Ordered (A ++ (convertExtent start stop e).1 :: B)
  flags   : (convertExtent start stop e).1.flags ≠ e.flags

theorem Shrunk.around {c : Content} (hs : Shrunk start stop f c P e Q f1) (h : Holds f c) :
    ∃ A B, Around f f1 start stop e A B := by
  have hTop : start < fileTop := Nat.lt_trans hs.covers.2 (h.stops e hs.mem)
  obtain ⟨A, B, hOld, hNew⟩ := hs.leaf
  refine ⟨A, B, hOld, hNew, hOld ▸ (routed_ok h hTop).1, hNew ▸ (routed_ok hs.holds hTop).1, ?_⟩
  intro hSame
  have hUn := hs.unwritten
  have hWritten := (convertExtent_parts stop hs.covers).2.2.1
  unfold Extent.unwritten at hUn hWritten
  rw [hSame, hUn] at hWritten
  cases hWritten

theorem not_eq_of_false_iff {added joins : Bool} (h : added = false ↔ joins = true) :
    (!joins) = added := by
  cases added with
  | false => simp [h.mp rfl]
  | true => simpa using h

/-- The second of two wings finds the nodes that the first one filled. -/
theorem Shrunk.both_cost {c c1 : Content} {f3 : File} (hs : Shrunk start stop f c P e Q f1)
    (h : Holds f c) (hNo : NoCross c) (hRange : start < stop) (hLeft : e.offset < start)
    (hRight : stop < e.stop)
    (hFirst : insertLocked levels f1 (e.before start) = some (none, f2)) (h2 : Holds f2 c1)
    (hSecond : insertLocked levels f2 (e.after stop) = some (code, f3))
    (hClash : code ≠ some .eexist) :
    insertCost f1 (e.before start) + insertCost f2 (e.after stop) = wingCost f start stop e := by
  have hTop : start < fileTop := Nat.lt_trans hs.covers.2 (h.stops e hs.mem)
  have hTop' : stop < fileTop := Nat.lt_trans hRight (h.stops e hs.mem)
  obtain ⟨A, B, ha⟩ := hs.around h
  obtain ⟨hLo, hHi⟩ := hs.covers
  obtain ⟨hStart, hLen, -, -⟩ := convertExtent_parts stop hs.covers
  have hBefore : e.covers (e.before start).offset :=
    ⟨Nat.le_refl _, by show e.offset < e.stop; omega⟩
  have hwLen : 0 < (e.before start).len := by
    show 0 < start - e.offset
    omega
  have hwLen' : 0 < (e.after stop).len := by
    show 0 < e.stop - stop
    omega
  have hwStop : (e.before start).stop < fileTop := by
    show e.offset + (start - e.offset) < fileTop
    omega
  have hJoin := before_joins ha.ordered hLeft hHi ha.flags
  rw [← ha.before, ← ha.after] at hJoin
  have hCost := hs.first_cost h hNo hTop hBefore hwLen hFirst (by simp) hJoin
  have hWings : Btree.wings start stop e = 2 := by
    unfold Btree.wings
    rw [if_pos hLeft, if_pos hRight]
  rw [hCost]
  unfold wingCost insertCost
  by_cases hIdx : f.indexed = true
  · -- a tree
    have hIdx1 : f1.indexed = true := hs.indexed.trans hIdx
    obtain ⟨hWay, hLeaf⟩ := hs.way_part h hNo hIdx hBefore
    obtain ⟨hIdx2, added, hWays, hAdds⟩ :=
      (insertLocked_passed hs.holds hIdx1 hwLen hwStop ten_le_levels hFirst).next rfl
    have hNext := hWays stop hTop' (hs.near hNo hBefore ⟨by omega, hRight⟩)
    have hAdded : tight added (f1.way (e.before start).offset) =
        tight (!(f.routed start).any fun x => adjoins x e) (f1.way (e.before start).offset) := by
      by_cases hShort : (f1.routed (e.before start).offset).length < leafFanout
      · obtain ⟨out, hIns⟩ := hAdds hShort
        obtain ⟨hOrd, hPos⟩ := routed_ok hs.holds hTop
        rw [hLeaf] at hIns
        have hMerge := insertExtent_merges hOrd hPos hwLen hIns
        rw [hJoin] at hMerge
        rw [not_eq_of_false_iff hMerge]
      · unfold File.routed at hShort
        rw [if_pos hIdx1] at hShort
        exact tight_full _ _ _ _ (Nat.le_of_not_lt hShort)
    rw [hWay] at hNext hAdded
    rw [if_pos hIdx, if_pos hIdx2, if_pos hIdx, hWings, show (e.after stop).offset = stop from rfl,
      hNext, hAdded]
    simp [hLeft]
  · -- the inline array
    have hFlat : f.indexed = false := by simpa using hIdx
    obtain ⟨hInline, hSame⟩ := hs.inline_length hFlat
    obtain ⟨-, -, hEight⟩ := h.flat hFlat
    obtain ⟨added, out, hIns, hNext⟩ :=
      insertLocked_inline hs.holds (hs.indexed.trans hFlat) hwLen hFirst (by simp)
    obtain ⟨hOrd, hPos⟩ := routed_ok hs.holds hTop
    have hMore := length_of_insertExtent hIns
    rw [hInline] at hIns
    have hMerge := insertExtent_merges hOrd hPos hwLen hIns
    rw [hJoin] at hMerge
    rw [if_neg hIdx, if_neg hIdx, not_eq_of_false_iff hMerge]
    simp only [hLeft, hRight, decide_true, Bool.true_and]
    rcases hNext rfl with ⟨rfl, hFull, hIdx2, hZero⟩ | ⟨hRoom, hIdx2, hOut⟩
    · have hPlain : (true : Bool).toNat = 1 := rfl
      rw [if_pos hIdx2, hZero, if_pos (by omega), if_pos (by omega)]
    · obtain ⟨added', out', hIns', -⟩ := insertLocked_inline h2 hIdx2 hwLen' hSecond hClash
      have hRouted : f2.inline = f2.routed start := by
        unfold File.routed
        rw [if_neg (by simp [hIdx2])]
      obtain ⟨hOrd2, hPos2⟩ := routed_ok h2 hTop
      rw [← hRouted] at hOrd2 hPos2
      have hMerge' := insertExtent_merges hOrd2 hPos2 hwLen' hIns'
      have hEnd : (convertExtent start stop e).1.stop = stop := by
        show (convertExtent start stop e).1.offset + (convertExtent start stop e).1.len = stop
        omega
      rw [ha.after] at hIns
      obtain ⟨hSides, hKept⟩ :=
        before_stored ha.ordered ha.sorted hLeft hHi hRange ha.flags hIns
      rw [hOut, after_joins ha.ordered (by omega) hRight hEnd ha.flags hSides hKept, ← ha.before]
        at hMerge'
      have hCount : (if added = true then 1 else 0) = added.toNat := by
        cases added <;> rfl
      have hTree : ¬ f2.indexed = true := by simp [hIdx2]
      rw [if_neg hTree, hIns', not_eq_of_false_iff hMerge', hOut, hMore, hSame, hCount]
      have hNo' : ¬ 8 < f.inline.length + added.toNat := by
        cases added with
        | false =>
          show ¬ 8 < f.inline.length + 0
          omega
        | true =>
          have hLess := hRoom rfl
          show ¬ 8 < f.inline.length + 1
          omega
      rw [if_neg hNo']
      cases added' with
      | false => exact (if_neg hNo').symm
      | true =>
        rw [Nat.zero_add]
        exact ite_congr (propext Nat.lt_succ_iff.symm) (fun _ => rfl) fun _ => rfl

/-- Two wings take at least what the first one does. -/
theorem first_le_wingCost (hLeft : e.offset < start) (hRight : stop < e.stop) :
    (if f.indexed then splitCost (fulls (f.way start))
      else if 8 < f.inline.length + (!(f.routed start).any fun x => adjoins x e).toNat then 1
      else 0) ≤ wingCost f start stop e := by
  unfold wingCost Btree.wings
  by_cases hIdx : f.indexed = true
  · simp [hIdx, hLeft, hRight]
  · simp only [hLeft, hRight, decide_true, Bool.true_and]
    rw [if_neg hIdx, if_neg hIdx]
    by_cases hFull : 8 < f.inline.length + (!(f.routed start).any fun x => adjoins x e).toNat
    · rw [if_pos hFull, if_pos (by omega)]
    · rw [if_neg hFull]
      exact Nat.zero_le _

/-- Two wings: the second one is put back only after the first. -/
theorem Shrunk.both_short_iff {c : Content} {f3 : File} (hs : Shrunk start stop f c P e Q f1)
    (h : Holds f c) (hNo : NoCross c) (hRange : start < stop) (hLeft : e.offset < start)
    (hRight : stop < e.stop)
    (hRun : insertAll levels [e.before start, e.after stop] f1 = some (code, f3)) :
    code = some .enospc ↔ Exhausts (wingCost f start stop e) f1.alloc := by
  have hTop : start < fileTop := Nat.lt_trans hs.covers.2 (h.stops e hs.mem)
  have hDist := (h.ordered hNo).distinct.ofPlaces (hs.places hRange)
  have hFits := hs.fits h hRange
  obtain ⟨A, B, ha⟩ := hs.around h
  rw [convertExtent_snd hs.covers, if_pos hLeft, if_pos hRight] at hFits hDist
  obtain ⟨hwLen, hwStop⟩ := hFits (e.before start) (by simp)
  obtain ⟨hwLen', hwStop'⟩ := hFits (e.after stop) (by simp)
  obtain ⟨first, f2, c2, hFirst, hd⟩ := insertLocked_spec hs.holds hwLen hwStop ten_le_levels
  have hClear := insertLocked_clear hs.holds hwLen hwStop hDist hFirst
  have hTakes := insertLocked_takes hs.holds hwLen hwStop ten_le_levels hFirst
  unfold insertAll at hRun
  rw [hFirst] at hRun
  rcases hd.codes with rfl | rfl | rfl
  · have hSecond : insertLocked levels f2 (e.after stop) = some (code, f3) := by
      rw [← insertAll_one]
      exact hRun
    have hClear' := insertLocked_clear hd.holds hwLen' hwStop' (hDist.perm hd.rest) hSecond
    have hTakes' := insertLocked_takes hd.holds hwLen' hwStop' ten_le_levels hSecond
    rw [← hs.both_cost h hNo hRange hLeft hRight hFirst hd.holds hSecond hClear',
      hTakes'.short_iff]
    have hTaken := hTakes.taken (by simp)
    unfold Exhausts
    omega
  · exact absurd rfl hClear
  · obtain ⟨rfl, -⟩ := Prod.mk.inj (Option.some.inj hRun)
    have hBefore : e.covers (e.before start).offset :=
      ⟨Nat.le_refl _, Nat.lt_of_le_of_lt hs.covers.1 hs.covers.2⟩
    have hJoin := before_joins ha.ordered hLeft hs.covers.2 ha.flags
    rw [← ha.before, ← ha.after] at hJoin
    have hCost := hs.first_cost h hNo hTop hBefore hwLen hFirst hClear hJoin
    refine ⟨fun _ => (hTakes.short rfl).mono ?_, fun _ => rfl⟩
    rw [hCost]
    exact first_le_wingCost hLeft hRight

/-- Putting the wings back fails when the device has fewer blocks than they take. -/
theorem Shrunk.short_iff {c : Content} {f3 : File} (hs : Shrunk start stop f c P e Q f1)
    (h : Holds f c) (hNo : NoCross c) (hRange : start < stop)
    (hRun : insertAll levels (convertExtent start stop e).2 f1 = some (code, f3)) :
    code = some .enospc ↔ Exhausts (wingCost f start stop e) f.alloc := by
  have hTop : start < fileTop := Nat.lt_trans hs.covers.2 (h.stops e hs.mem)
  have hDist := (h.ordered hNo).distinct.ofPlaces (hs.places hRange)
  have hFits := hs.fits h hRange
  obtain ⟨A, B, ha⟩ := hs.around h
  obtain ⟨hLo, hHi⟩ := hs.covers
  obtain ⟨hStart, hLen, -, -⟩ := convertExtent_parts stop hs.covers
  rw [convertExtent_snd hs.covers] at hRun hFits hDist
  rw [← hs.alloc]
  have hBefore : e.covers (e.before start).offset :=
    ⟨Nat.le_refl _, by show e.offset < e.stop; omega⟩
  by_cases hLeft : e.offset < start
  · have hJoin := before_joins ha.ordered hLeft hHi ha.flags
    rw [← ha.before, ← ha.after] at hJoin
    rw [if_pos hLeft] at hRun hFits hDist
    by_cases hRight : stop < e.stop
    · rw [if_pos hRight] at hRun
      exact hs.both_short_iff h hNo hRange hLeft hRight hRun
    · rw [if_neg hRight, List.append_nil] at hRun hFits hDist
      rw [insertAll_one] at hRun
      obtain ⟨hwLen, hwStop⟩ := hFits _ List.mem_cons_self
      have hClear := insertLocked_clear hs.holds hwLen hwStop hDist hRun
      have hCost := hs.first_cost h hNo hTop hBefore
        hwLen hRun hClear hJoin
      rw [(insertLocked_takes hs.holds hwLen hwStop ten_le_levels hRun).short_iff, hCost]
      unfold wingCost Btree.wings
      simp [hLeft, hRight]
  · rw [if_neg hLeft, List.nil_append] at hRun hFits hDist
    by_cases hRight : stop < e.stop
    · have hEnd : (convertExtent start stop e).1.stop = stop := by
        show (convertExtent start stop e).1.offset + (convertExtent start stop e).1.len = stop
        omega
      have hSides : ∀ x ∈ A ++ (convertExtent start stop e).1 :: B,
          x.stop < stop ∨ x = (convertExtent start stop e).1 ∨ x ∈ B := by
        intro x hx
        rcases List.mem_append.mp hx with hx | hx
        · have hStop := (ordered_around ha.ordered).1 x hx
          exact Or.inl (by omega)
        · exact Or.inr (List.mem_cons.mp hx)
      have hAfter : ∀ x ∈ B, x ∈ A ++ (convertExtent start stop e).1 :: B := fun x hx => by
        simp [hx]
      have hJoin := after_joins ha.ordered (by omega) hRight hEnd ha.flags hSides hAfter
      rw [← ha.before, ← ha.after] at hJoin
      rw [if_pos hRight] at hRun hFits hDist
      rw [insertAll_one] at hRun
      obtain ⟨hwLen, hwStop⟩ := hFits _ List.mem_cons_self
      have hClear := insertLocked_clear hs.holds hwLen hwStop hDist hRun
      have hCost := hs.first_cost h hNo hTop (show e.covers stop from ⟨by omega, hRight⟩) hwLen hRun
        hClear hJoin
      rw [(insertLocked_takes hs.holds hwLen hwStop ten_le_levels hRun).short_iff, hCost]
      unfold wingCost Btree.wings
      simp [hLeft, hRight]
    · rw [if_neg hRight] at hRun
      obtain ⟨rfl, -⟩ := Prod.mk.inj (Option.some.inj hRun)
      have hNone : wingCost f start stop e = 0 := by
        unfold wingCost Btree.wings
        by_cases hIdx : f.indexed = true
        · simp [hIdx, hLeft, hRight]
        · obtain ⟨-, -, hEight⟩ := h.flat (by simpa using hIdx)
          simp [hIdx, hLeft, hRight]
          omega
      rw [hNone]
      exact ⟨fun hCode => by simp at hCode, fun hEx => absurd hEx (Nat.not_lt_zero _)⟩

end Cost

/-- One extent on a full device: its wings fit into the inode. -/
example : wingCost (newFile.after (.rebuild [⟨0, 1001, 3, 1⟩])).full 1 2 ⟨0, 1001, 3, 1⟩ = 0 := by
  decide +kernel

end Wings

end Briefs.Btree
