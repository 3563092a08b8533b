import Briefs.Xattr.Chain
import Briefs.Alloc.Blocks

/-!
# BrieFS — the extended attributes of an inode as a map

What the xattr calls are for: a map from names to values. A chain of blocks represents a
map if loading it gives one entry for each binding, and the calls answer as the map does.

A value of `XATTR_SIZE_MAX` bytes is accepted, but its length is 0 in a field of 16 bits:
the attribute reads back empty.

## Results

* `Denotes.change` — a change of the entries is a change of the map.
* `Represents.step` — one call answers for the map and represents the changed map.
* `xattrs_are_map` — every sequence of calls does, if no value has `XATTR_SIZE_MAX` bytes.
-/

namespace Briefs.Xattr

open Briefs.Journal

--
-- The map
--

/-- The attributes of an inode. -/
abbrev AttrMap := List UInt8 → Option (List UInt8)

/-- The error of a change, if it is refused. -/
def denied (m : AttrMap) (name : List UInt8) (value : Option (List UInt8)) (flag : Flag) :
    Option Errno :=
  match m name, value with
  | none, none => some .enodata
  | some _, none => none
  | some _, some _ => if flag = .create then some .eexist else none
  | none, some _ => if flag = .replace then some .enodata else none

/-- A call on one inode; a change without a value is a removal. -/
inductive Op where
  | set (name : List UInt8) (value : Option (List UInt8)) (flag : Flag)
  | get (name : List UInt8) (size : Option Nat)
  | list
deriving DecidableEq, Repr

/-- What a call returns. -/
inductive Reply where
  | done  (err : Option Errno)
  | value (r : Except Errno (Nat × List UInt8))
  | names (r : Except Errno (List (List UInt8)))
deriving DecidableEq

/-- The reply is the one that the map calls for. -/
def Right (m : AttrMap) : Op → Reply → Prop
  | .set name value flag, .done err => err = denied m name value flag
  | .get name size, .value r => r = getReply size (m name)
  | .list, .names r => ∃ names, r = .ok names ∧ names.Nodup ∧ ∀ n, n ∈ names ↔ (m n).isSome
  | _, _ => False

/-- The map after the call. -/
def Op.effect (m : AttrMap) : Op → AttrMap
  | .set name value flag =>
    if denied m name value flag = none then Function.update m name value else m
  | _ => m

/-- The replies are right one after the other. -/
def Answers : AttrMap → List Op → List Reply → Prop
  | _, [], [] => True
  | m, op :: ops, r :: rs => Right m op r ∧ Answers (op.effect m) ops rs
  | _, _, _ => False

/-- The call on the inode. -/
def Op.run (s : Store) : Op → Reply × Store
  | .set name value flag =>
    let r := s.set name value flag
    (.done r.1, r.2)
  | .get name size => (.value (s.get name size), s)
  | .list => (.names s.list, s)

/-- The calls one after the other. -/
def runOps (s : Store) : List Op → List Reply × Store
  | [] => ([], s)
  | op :: ops =>
    let r := op.run s
    let rest := runOps r.2 ops
    (r.1 :: rest.1, rest.2)

/-- Names have 1 to `XATTR_NAME_MAX` bytes and values at most `XATTR_SIZE_MAX`. -/
def Op.Valid : Op → Prop
  | .set name value _ =>
    1 ≤ name.length ∧ name.length ≤ nameMax ∧ (value.getD []).length ≤ sizeMax
  | .get name _ => 1 ≤ name.length ∧ name.length ≤ nameMax
  | .list => True

/-- The call does not store a value of `XATTR_SIZE_MAX` bytes. -/
def Op.BelowMax : Op → Prop
  | .set _ value _ => (value.getD []).length ≠ sizeMax
  | _ => True

--
-- Entries and the map
--

/-- The entries are the bindings of the map. -/
structure Denotes (kvs : List KV) (m : AttrMap) : Prop where
  nodup : (kvs.map KV.name).Nodup
  mem   : ∀ name value, ⟨name, value⟩ ∈ kvs ↔ m name = some value

section Denotes

variable {kvs : List KV} {m : AttrMap}

theorem denotes_nil : Denotes [] fun _ => none where
  nodup := List.nodup_nil
  mem   := by simp

theorem Denotes.perm {kvs' : List KV} (h : Denotes kvs m) (hPerm : kvs'.Perm kvs) :
    Denotes kvs' m where
  nodup := (hPerm.map KV.name).nodup_iff.2 h.nodup
  mem   := fun name value => hPerm.mem_iff.trans (h.mem name value)

theorem Denotes.absent (h : Denotes kvs m) {name : List UInt8}
    (hNot : name ∉ kvs.map KV.name) : m name = none := by
  cases hm : m name with
  | none => rfl
  | some value => exact absurd (List.mem_map_of_mem ((h.mem name value).2 hm)) hNot

theorem Denotes.cons (h : Denotes kvs m) {name : List UInt8} (hNone : m name = none)
    (value : List UInt8) : Denotes (⟨name, value⟩ :: kvs) (Function.update m name (some value)) := by
  have hNot : ∀ v, ⟨name, v⟩ ∉ kvs := by
    intro v hMem
    rw [(h.mem name v).1 hMem] at hNone
    cases hNone
  constructor
  case nodup =>
    refine List.nodup_cons.2 ⟨fun hMem => ?_, h.nodup⟩
    obtain ⟨⟨n, v⟩, hIn, hName⟩ := List.mem_map.1 hMem
    obtain rfl : n = name := hName
    exact hNot v hIn
  case mem =>
    intro n v
    by_cases hName : n = name
    · subst hName
      rw [Function.update_self, List.mem_cons]
      have hOut := hNot v
      simp only [KV.mk.injEq, true_and, hOut, or_false, Option.some.injEq]
      exact eq_comm
    · rw [Function.update_of_ne hName, ← h.mem n v, List.mem_cons]
      simp [hName]

theorem Denotes.tail {name value : List UInt8} (h : Denotes (⟨name, value⟩ :: kvs) m) :
    Denotes kvs (Function.update m name none) := by
  have hNodup := h.nodup
  rw [List.map_cons, List.nodup_cons] at hNodup
  constructor
  case nodup => exact hNodup.2
  case mem =>
    intro n v
    by_cases hName : n = name
    · subst hName
      rw [Function.update_self]
      exact ⟨fun hMem => absurd (List.mem_map_of_mem hMem) hNodup.1, nofun⟩
    · rw [Function.update_of_ne hName, ← h.mem n v, List.mem_cons]
      simp [hName]

/-- A search finds what the map has. -/
theorem Found.eq {name : List UInt8} {value : Option (List UInt8)} (hFound : Found kvs name value)
    (h : Denotes kvs m) : value = m name := by
  unfold Found at hFound
  cases value with
  | none =>
    rw [Option.map_none, List.find?_eq_none] at hFound
    symm
    apply h.absent
    intro hMem
    obtain ⟨kv, hIn, hName⟩ := List.mem_map.1 hMem
    exact hFound kv hIn (by simp [hName])
  | some v => exact ((h.mem name v).1 (List.mem_of_find?_eq_some hFound)).symm

/-- Dropping an entry leaves the others in some order. -/
theorem dropEntry_perm (front back : List KV) (kv : KV) :
    (dropEntry (front ++ kv :: back) front.length).Perm (front ++ back) := by
  unfold dropEntry
  rcases List.eq_nil_or_concat back with rfl | ⟨init, last, rfl⟩
  · simp
  · have hLast : (front ++ kv :: (init ++ [last])).getLast? = some last := by
      rw [← List.cons_append, ← List.append_assoc, List.getLast?_concat]
    rw [List.concat_eq_append, hLast]
    have hSet : (front ++ kv :: (init ++ [last])).set front.length last =
        (front ++ last :: init) ++ [last] := by
      rw [List.set_append_right _ _ (Nat.le_refl _), Nat.sub_self]
      simp
    dsimp only
    rw [hSet, List.dropLast_concat]
    have hSwap : ([last] ++ init).Perm (init ++ [last]) := List.perm_append_comm
    exact hSwap.append_left front

/-- The entry of a name, if there is one. -/
theorem findIdx_split (kvs : List KV) (name : List UInt8) :
    ((kvs.findIdx? fun kv => kv.name == name) = none ∧ name ∉ kvs.map KV.name) ∨
      ∃ front value back, kvs = front ++ ⟨name, value⟩ :: back ∧
        (kvs.findIdx? fun kv => kv.name == name) = some front.length := by
  induction kvs with
  | nil => exact .inl ⟨rfl, List.not_mem_nil⟩
  | cons kv rest ih =>
    rw [List.findIdx?_cons]
    by_cases hName : kv.name = name
    · obtain ⟨n, v⟩ := kv
      obtain rfl : n = name := hName
      exact .inr ⟨[], v, rest, rfl, by simp⟩
    · have hNot : (kv.name == name) = false := by simpa using hName
      rw [hNot]
      rcases ih with ⟨hNone, hOut⟩ | ⟨front, value, back, hEq, hSome⟩
      · left
        rw [hNone, List.map_cons, List.mem_cons]
        exact ⟨rfl, fun hMem => hMem.elim (fun hEq => hName hEq.symm) hOut⟩
      · right
        refine ⟨kv :: front, value, back, by rw [hEq]; rfl, ?_⟩
        rw [hSome]
        rfl

/-- A change of the entries is a change of the map, or it is refused as the map says. -/
theorem Denotes.change (h : Denotes kvs m) (name : List UInt8) (value : Option (List UInt8))
    (flag : Flag) :
    (∃ e, change kvs name value flag = .error e ∧ denied m name value flag = some e) ∨
      ∃ kvs', change kvs name value flag = .ok kvs' ∧ denied m name value flag = none ∧
        Denotes kvs' (Function.update m name value) := by
  unfold Xattr.change denied
  rcases findIdx_split kvs name with ⟨hNone, hOut⟩ | ⟨front, old, back, rfl, hSome⟩
  · have hAbsent := h.absent hOut
    rw [hNone, hAbsent]
    cases value with
    | none => exact .inl ⟨.enodata, rfl, rfl⟩
    | some v =>
      dsimp only
      by_cases hFlag : flag = .replace
      · rw [if_pos hFlag, if_pos hFlag]
        exact .inl ⟨.enodata, rfl, rfl⟩
      · rw [if_neg hFlag, if_neg hFlag]
        have hPerm : (kvs ++ [KV.mk name v]).Perm (⟨name, v⟩ :: kvs) := List.perm_append_singleton _ _
        exact .inr ⟨_, rfl, rfl, (h.cons hAbsent v).perm hPerm⟩
  · have hPresent : m name = some old := (h.mem name old).1 (by simp)
    have hRest : Denotes (front ++ back) (Function.update m name none) :=
      (h.perm List.perm_middle.symm).tail
    rw [hSome, hPresent]
    cases value with
    | none => exact .inr ⟨_, rfl, rfl, hRest.perm (dropEntry_perm front back _)⟩
    | some v =>
      dsimp only
      by_cases hFlag : flag = .create
      · rw [if_pos hFlag, if_pos hFlag]
        exact .inl ⟨.eexist, rfl, rfl⟩
      · rw [if_neg hFlag, if_neg hFlag]
        have hSet : (front ++ ⟨name, old⟩ :: back).set front.length ⟨name, v⟩ =
            front ++ ⟨name, v⟩ :: back := by
          rw [List.set_append_right _ _ (Nat.le_refl _), Nat.sub_self]
          rfl
        have hNew := hRest.cons (Function.update_self name none m) v
        rw [Function.update_idem] at hNew
        rw [hSet]
        exact .inr ⟨_, rfl, rfl, hNew.perm List.perm_middle⟩

end Denotes

--
-- The inode and the map
--

/-- All names of the map fit in a record, and all values. -/
def Bounded (m : AttrMap) : Prop :=
  ∀ name value, m name = some value → name.length ≤ nameMax ∧ value.length < sizeMax

/-- The chain of the inode has the entries of the map. -/
def Represents (s : Store) (m : AttrMap) : Prop :=
  Bounded m ∧
    ∃ l kvs, Stored s l ∧ loadEntries (l.map Prod.snd) = .ok kvs ∧ Denotes kvs m

theorem represents_empty {s : Store} (hHead : s.head = 0) : Represents s fun _ => none :=
  ⟨nofun, [], [], ⟨hHead, Nat.zero_le _, nofun, nofun⟩, rfl, denotes_nil⟩

theorem Bounded.update {m : AttrMap} (h : Bounded m) {name : List UInt8}
    (hName : name.length ≤ nameMax) {value : Option (List UInt8)}
    (hValue : (value.getD []).length < sizeMax) : Bounded (Function.update m name value) := by
  intro n v hEq
  by_cases hSame : n = name
  · subst hSame
    rw [Function.update_self] at hEq
    subst hEq
    exact ⟨hName, hValue⟩
  · rw [Function.update_of_ne hSame] at hEq
    exact h n v hEq

/-- The entries of a bounded map come back from the blocks as they went in. -/
theorem Denotes.load {kvs : List KV} {m : AttrMap} (h : Denotes kvs m) (hBounded : Bounded m) :
    loadEntries (chainBlocks kvs) = .ok kvs := by
  have hEach : ∀ kv ∈ kvs, kv.name.length ≤ nameMax ∧ kv.value.length < sizeMax :=
    fun kv hMem => hBounded kv.name kv.value ((h.mem kv.name kv.value).1 hMem)
  have hSame : kvs.map KV.stored = kvs := by
    rw [List.map_congr_left (g := id), List.map_id]
    intro kv hMem
    show KV.stored kv = kv
    unfold KV.stored
    rw [le16_of_lt (hEach kv hMem).2, List.take_length]
  rw [loadEntries_chainBlocks fun kv hMem => (hEach kv hMem).1, hSame]

/-- `briefs_xattr_set` changes the map, or refuses, or runs out of space. -/
theorem Represents.set {s : Store} {m : AttrMap} (h : Represents s m) {name : List UInt8}
    (hName : name.length ≤ nameMax) {value : Option (List UInt8)}
    (hValue : (value.getD []).length < sizeMax) (flag : Flag) :
    (s.set name value flag).1 = some .enospc ∨
      ((s.set name value flag).1 = denied m name value flag ∧
        Represents (s.set name value flag).2 ((Op.set name value flag).effect m)) := by
  obtain ⟨hBounded, l, kvs, hStored, hLoad, hDen⟩ := h
  unfold Store.set Op.effect
  rw [if_neg (by omega), if_neg (by omega), hStored.load, hLoad]
  dsimp only
  rcases hDen.change name value flag with ⟨e, hError, hDenied⟩ | ⟨kvs', hOk, hDenied, hDen'⟩
  · rw [hError, hDenied]
    exact .inr ⟨rfl, hBounded, l, kvs, hStored, hLoad, hDen⟩
  · rw [hOk, hDenied, if_pos rfl]
    have hBounded' : Bounded (Function.update m name value) := hBounded.update hName hValue
    cases kvs' with
    | nil => exact .inr ⟨rfl, hBounded', [], [], stored_nil s _, rfl, hDen'⟩
    | cons kv rest =>
      rcases hStored.rewrite (kv :: rest) with hFull | ⟨hDone, l', hStored', hBlocks⟩
      · exact .inl hFull
      · have hLoad' : loadEntries (l'.map Prod.snd) = .ok (kv :: rest) := by
          rw [hBlocks]
          exact hDen'.load hBounded'
        exact .inr ⟨hDone, hBounded', l', kv :: rest, hStored', hLoad', hDen'⟩

/-- A call answers for the map and leaves an inode that represents the map after it. -/
theorem Represents.step {s : Store} {m : AttrMap} (h : Represents s m) {op : Op}
    (hValid : op.Valid) (hBelow : op.BelowMax)
    (hSpace : (op.run s).1 ≠ .done (some .enospc)) :
    Right m op (op.run s).1 ∧ Represents (op.run s).2 (op.effect m) := by
  obtain ⟨hBounded, l, kvs, hStored, hLoad, hDen⟩ := h
  have hSame : Represents s m := ⟨hBounded, l, kvs, hStored, hLoad, hDen⟩
  cases op with
  | get name size =>
    obtain ⟨value, hFound, hGet⟩ := hStored.get hLoad hValid.2 size
    refine ⟨?_, hSame⟩
    show s.get name size = getReply size (m name)
    rw [hGet, hFound.eq hDen]
  | list =>
    refine ⟨⟨kvs.map KV.name, hStored.list hLoad, hDen.nodup, ?_⟩, hSame⟩
    intro n
    rw [Option.isSome_iff_exists]
    constructor
    · intro hMem
      obtain ⟨⟨n', v⟩, hIn, rfl⟩ := List.mem_map.1 hMem
      exact ⟨v, (hDen.mem n' v).1 hIn⟩
    · rintro ⟨v, hv⟩
      exact List.mem_map_of_mem ((hDen.mem n v).2 hv)
  | set name value flag =>
    have hLess : (value.getD []).length < sizeMax := Nat.lt_of_le_of_ne hValid.2.2 hBelow
    rcases hSame.set hValid.2.1 hLess flag with hFull | hDone
    · exact absurd (congrArg Reply.done hFull) hSpace
    · exact hDone

theorem Represents.run : ∀ {ops : List Op} {s : Store} {m : AttrMap}, Represents s m →
    (∀ op ∈ ops, op.Valid) → (∀ op ∈ ops, op.BelowMax) →
    .done (some .enospc) ∉ (runOps s ops).1 → Answers m ops (runOps s ops).1 := by
  intro ops
  induction ops with
  | nil => exact fun _ _ _ _ => trivial
  | cons op ops ih =>
    intro s m h hValid hBelow hSpace
    rw [List.forall_mem_cons] at hValid hBelow
    have hHere : (op.run s).1 ≠ .done (some .enospc) :=
      fun hEq => hSpace (hEq ▸ List.mem_cons_self)
    have hLater : .done (some .enospc) ∉ (runOps (op.run s).2 ops).1 :=
      fun hMem => hSpace (List.mem_cons_of_mem _ hMem)
    obtain ⟨hRight, hNext⟩ := h.step hValid.1 hBelow.1 hHere
    exact ⟨hRight, ih hNext hValid.2 hBelow.2 hLater⟩

/-- The attributes of an inode are a finite map: starting without attributes, every sequence
of calls that does not run out of space and stores no value of `XATTR_SIZE_MAX` bytes is
answered as the map answers. -/
theorem xattrs_are_map {s : Store} (hNew : s.head = 0) {ops : List Op}
    (hValid : ∀ op ∈ ops, op.Valid) (hBelow : ∀ op ∈ ops, op.BelowMax)
    (hSpace : .done (some .enospc) ∉ (runOps s ops).1) :
    Answers (fun _ => none) ops (runOps s ops).1 :=
  (represents_empty hNew).run hValid hBelow hSpace

/-- An inode without attributes on an empty device. -/
def freshInode : Store where
  blocks    := fun _ => none
  alloc     := Alloc.samplePool.recomputeSummaries
  dataStart := 10
  head      := 0

/-- A value that goes on in a second block. -/
def longValue : List UInt8 := List.replicate 4100 7

theorem length_longValue : longValue.length = 4100 := List.length_replicate

/-- A name is set, created again and read; a second one is set, the first removed, and the second
set to a long value. -/
def sampleOps : List Op :=
  [.set [117, 46, 97] (some [1, 2, 3]) .any, .set [117, 46, 97] (some [4]) .create,
    .get [117, 46, 97] (some 10), .set [117, 46, 98] (some [5]) .create, .list,
    .set [117, 46, 97] none .replace, .get [117, 46, 97] none,
    .set [117, 46, 98] (some longValue) .replace, .get [117, 46, 98] none]

theorem sampleOps_answered :
    (runOps freshInode sampleOps).1 =
        [.done none, .done (some .eexist), .value (.ok (3, [1, 2, 3])), .done none,
          .names (.ok [[117, 46, 97], [117, 46, 98]]), .done none, .value (.error .enodata),
          .done none, .value (.ok (4100, []))] ∧
      Answers (fun _ => none) sampleOps (runOps freshInode sampleOps).1 := by
  have hRun : (runOps freshInode sampleOps).1 =
      [.done none, .done (some .eexist), .value (.ok (3, [1, 2, 3])), .done none,
        .names (.ok [[117, 46, 97], [117, 46, 98]]), .done none, .value (.error .enodata),
        .done none, .value (.ok (4100, []))] := by
    decide +kernel
  refine ⟨hRun, xattrs_are_map rfl ?_ ?_ ?_⟩
  · simp [sampleOps, Op.Valid, nameMax, sizeMax, length_longValue]
  · simp [sampleOps, Op.BelowMax, sizeMax, length_longValue]
  · rw [hRun]
    decide

--
-- The largest value
--

/-- A value of `XATTR_SIZE_MAX` bytes is stored and reads back with length 0. -/
theorem set_sizeMax_reads_empty {s : Store} (hNew : s.head = 0) {name value : List UInt8}
    (hName : name.length ≤ nameMax) (hLen : value.length = sizeMax)
    (hDone : (s.set name (some value) .any).1 = none) (size : Option Nat) :
    (s.set name (some value) .any).2.get name size = getReply size (some []) := by
  have hStored : Stored s [] := ⟨hNew, Nat.zero_le _, nofun, nofun⟩
  have hLoad : s.load = .ok [] := hStored.load
  have hSet : s.set name (some value) .any = s.rewrite [⟨name, value⟩] := by
    unfold Store.set
    rw [if_neg (by omega), if_neg (by show ¬ sizeMax < value.length; omega), hLoad]
    rfl
  rw [hSet] at hDone ⊢
  rcases hStored.rewrite [⟨name, value⟩] with hFull | ⟨_, l, hStored', hBlocks⟩
  · rw [hFull] at hDone
    cases hDone
  · have hShort : (KV.mk name value).stored = ⟨name, []⟩ := by
      unfold KV.stored
      dsimp only
      rw [hLen, show le16 sizeMax = 0 from rfl, List.take_zero]
    have hLoad' : loadEntries (l.map Prod.snd) = .ok [⟨name, []⟩] := by
      rw [hBlocks, loadEntries_chainBlocks (by simpa using hName), List.map_singleton, hShort]
    obtain ⟨found, hFound, hGet⟩ := hStored'.get hLoad' hName size
    have hDen : Denotes [⟨name, []⟩] (Function.update (fun _ => none) name (some [])) :=
      denotes_nil.cons rfl []
    rw [hGet, hFound.eq hDen, Function.update_self]

theorem length_frags_lt (value : List UInt8) : ∀ (fuel off : Nat),
    (frags value fuel off).length * maxPayload < value.length - off + maxPayload := by
  intro fuel
  induction fuel with
  | zero =>
    intro off
    show 0 * maxPayload < _
    rw [Nat.zero_mul]
    exact Nat.lt_of_lt_of_le (by decide) (Nat.le_add_left _ _)
  | succ fuel ih =>
    intro off
    have hMore := ih (off + maxPayload)
    have hPos : 0 < maxPayload := by decide
    unfold frags
    split
    · rw [List.length_nil, Nat.zero_mul]
      omega
    · rename_i hIn
      rw [List.length_cons, Nat.succ_mul]
      -- The last block may be partly filled.
      rcases Nat.lt_or_ge value.length (off + maxPayload) with hLast | hFull
      · rw [Nat.sub_eq_zero_of_le (by omega), Nat.zero_add] at hMore
        have hNone : (frags value fuel (off + maxPayload)).length = 0 := by
          by_contra hSome
          have hOne := Nat.mul_le_mul_right maxPayload (Nat.pos_of_ne_zero hSome)
          omega
        rw [hNone, Nat.zero_mul]
        omega
      · omega

/-- The chain of one attribute with the largest value has 17 blocks at most. -/
theorem length_chainBlocks_largest {value : List UInt8} (hLen : value.length = sizeMax) :
    (chainBlocks [⟨[117], value⟩]).length < 18 := by
  have hGroup : buildChain [⟨[117], value⟩] = [Group.empty.place ⟨[117], value⟩] := by
    have hFits : Group.empty.isFull ⟨[117], value⟩ = false := by
      unfold Group.isFull
      have hRoom : ¬ maxPayload - Group.empty.payloadUsed < 12 := by decide
      have hFew : ¬ maxEntries ≤ Group.empty.entries.length := by decide
      have hNeed : KV.need ⟨[117], value⟩ = 12 := by
        show entrySize + align4 1 = 12
        decide
      rw [hNeed]
      simp [hRoom, hFew]
    show (if Group.empty.isFull ⟨[117], value⟩ then _ else _) = _
    rw [hFits]
    rfl
  have hInl : Group.empty.inlineLen ⟨[117], value⟩ = maxPayload - 12 := by
    unfold Group.inlineLen KV.need
    dsimp only
    rw [hLen]
    decide
  have hFrags := length_frags_lt value value.length (Group.empty.inlineLen ⟨[117], value⟩)
  have hPayload : maxPayload = 4012 := rfl
  have hConts : (frags value value.length (Group.empty.inlineLen ⟨[117], value⟩)).length < 17 := by
    rw [hInl, hPayload, show value.length - (4012 - 12) = 61536 by rw [hLen]; rfl] at hFrags
    rw [hInl, hPayload]
    omega
  have hBlocks : (chainBlocks [⟨[117], value⟩]).length =
      (frags value value.length (Group.empty.inlineLen ⟨[117], value⟩)).length + 1 := by
    unfold chainBlocks
    rw [hGroup, List.flatMap_singleton]
    show ((Group.empty.place ⟨[117], value⟩).entryBlock :: List.map contBlock
      ([] ++ frags value value.length (Group.empty.inlineLen ⟨[117], value⟩))).length = _
    rw [List.length_cons, List.length_map, List.nil_append]
  omega

/-- The largest value that is allowed is set and then asked for its length. -/
def largestOps : List Op :=
  [.set [117] (some (List.replicate sizeMax 0)) .any, .get [117] none]

theorem freshInode_set_largest {value : List UInt8} (hLen : value.length = sizeMax) :
    (freshInode.set [117] (some value) .any).1 = none := by
  have hFew := length_chainBlocks_largest hLen
  have hRoom : ∀ n < 18, (allocChain freshInode.alloc n).1.length = n := by decide +kernel
  have hSet : freshInode.set [117] (some value) .any = freshInode.rewrite [⟨[117], value⟩] := by
    unfold Store.set
    rw [if_neg (by decide), if_neg (by show ¬ sizeMax < value.length; omega)]
    rfl
  have hLong : ¬ maxChain < (chainBlocks [⟨[117], value⟩]).length := by
    have hMax : maxChain = 1024 := rfl
    omega
  have hEnough := hRoom _ hFew
  rw [hSet]
  unfold Store.rewrite
  dsimp only
  rw [if_neg hLong, if_neg (by omega)]

theorem largest_value_reads_empty :
    (∀ op ∈ largestOps, op.Valid) ∧
      .done (some .enospc) ∉ (runOps freshInode largestOps).1 ∧
      ¬ Answers (fun _ => none) largestOps (runOps freshInode largestOps).1 := by
  obtain ⟨value, hLen, hOps⟩ : ∃ value : List UInt8, value.length = sizeMax ∧
    largestOps = [.set [117] (some value) .any, .get [117] none] := ⟨_, List.length_replicate, rfl⟩
  rw [hOps]
  have hDone := freshInode_set_largest hLen
  have hGet := set_sizeMax_reads_empty rfl (by decide) hLen hDone none
  have hRun : (runOps freshInode [.set [117] (some value) .any, .get [117] none]).1 =
      [.done none, .value (.ok (0, []))] := by
    unfold runOps runOps runOps Op.run
    dsimp only
    rw [hDone, hGet]
    rfl
  rw [hRun]
  refine ⟨?_, by decide, fun hAll => ?_⟩
  · simp [Op.Valid, hLen, nameMax]
  · have hWrong : Right (Function.update (fun _ => none) [117] (some value)) (.get [117] none)
        (.value (.ok (0, []))) := hAll.2.1
    have hZero : (Except.ok (0, []) : Except Errno (Nat × List UInt8)) =
        .ok (value.length, []) := by
      have hEq : _ = getReply none (Function.update (fun _ => none) [117] (some value) [117]) :=
        hWrong
      rw [Function.update_self] at hEq
      exact hEq
    have hBad : 0 = value.length := congrArg Prod.fst (Except.ok.inj hZero)
    rw [hLen] at hBad
    exact absurd hBad (by decide)

end Briefs.Xattr
