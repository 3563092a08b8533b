import Briefs.Lib.Bytes
import Mathlib.Data.List.Nodup
import Mathlib.Data.List.Perm.Basic
import Mathlib.Tactic

/-!
# BrieFS — concurrent appends

`briefs_write_iter` (`file.c`) finds the end of the file for an `O_APPEND` write before it takes
the inode lock. Under the lock a small write to a file that is empty or inline is copied to that
position; otherwise the file is promoted, the lock is dropped, and `briefs_iomap_buffered_write`
or `briefs_dio_write` takes it again and finds the end once more.

A call runs in sections that other calls cannot interrupt: the part before the lock, and each
part under it. An inline copy is placed by a size that was read in an earlier section. And a file
that was empty when it was promoted may be inline again when the lock is taken the second time:
the mapping for a write past the end of an inline file is a hole, and the bytes go to pages that
an inline file is not read from.

## Results

* `appends_in_some_order` — if every inline copy still finds the end where it was read, and no
  second section meets an inline file, then the buffers follow the old content in some order.
* `appends_overwrite` — two appends to an empty file, the second over the first.
-/

namespace Briefs.File

open Briefs.Bytes

--
-- The code
--

/-- What the calls share: `InodeFlagInlineData`, `i_size`, `inline_data`, and the bytes that the
extents and the page cache hold. -/
structure Shared where
  inlineData : Bool
  size       : Nat
  area       : Nat → BitVec 8
  pages      : Nat → BitVec 8

/-- What `briefs_read_iter` reads. -/
def Shared.content (n : Shared) : List (BitVec 8) :=
  upTo (if n.inlineData then n.area else n.pages) n.size

/-- An `O_APPEND` write: the bytes, `IOCB_DIRECT` and `IOCB_NOWAIT`. -/
structure Call where
  buf    : List (BitVec 8)
  direct : Bool
  nowait : Bool

/-- How far a call has come; a negative return value is `none`. -/
inductive Pc where
  | start
  | located (pos : Nat)
  | outside
  | fallback
  | done (ret : Option Nat)
deriving DecidableEq, Repr

/-- What the calls into the kernel give a section. -/
structure Outcome where
  /-- `file_remove_privs`, `generic_write_checks` or `file_update_time` fails -/
  refused  : Bool
  /-- `inode_trylock` fails -/
  busy     : Bool
  /-- `copy_from_iter` copies less than all bytes -/
  fault    : Bool
  /-- `briefs_promote_inline_data` fails -/
  noBlock  : Bool
  /-- `iomap_dio_rw` returns `-ENOTBLK` -/
  notBlk   : Bool
  /-- the bytes that the iomap core writes, if they are fewer -/
  written  : Nat
  /-- `generic_write_sync` fails -/
  unsynced : Bool

/-- `briefs_promote_inline_data`, and the pages are dropped. -/
def Shared.promote (n : Shared) : Shared :=
  if n.inlineData = false then n
  else if n.size = 0 then { n with inlineData := false }
  else
    { n with
      inlineData := false
      pages := fun o => if o < n.size then n.area o else 0#8 }

/-- The inline section of `briefs_write_iter`, for a call that read `pos`. -/
def inlineSection (c : Call) (o : Outcome) (n : Shared) (pos : Nat) : Shared × Pc :=
  if o.refused then (n, .done none)
  else if n.inlineData = true ∨ n.size = 0 then
    if pos + c.buf.length ≤ 256 then
      if o.fault then (n, .done none)
      else
        ({ n with
            inlineData := true
            size := max n.size (pos + c.buf.length)
            area := put n.area pos c.buf },
          .done (if o.unsynced then none else some c.buf.length))
    else if o.noBlock then (n, .done none)
    else (n.promote, .outside)
  else (n, .outside)

/-- A write at the end of the file through the iomap core. -/
def writeAtEnd (c : Call) (o : Outcome) (n : Shared) : Shared × Pc :=
  let bytes := c.buf.take o.written
  ({ n with size := n.size + bytes.length, pages := put n.pages n.size bytes },
    .done (if o.unsynced then none else some bytes.length))

/-- `briefs_iomap_buffered_write`. -/
def bufferedWrite (c : Call) (o : Outcome) (n : Shared) : Shared × Pc :=
  if c.nowait || o.refused then (n, .done none) else writeAtEnd c o n

/-- `briefs_dio_write`; a direct write to a hole fails. -/
def dioWrite (c : Call) (o : Outcome) (n : Shared) : Shared × Pc :=
  if (c.nowait && o.busy) || o.refused || n.inlineData then (n, .done none)
  else if o.notBlk then (n, if c.nowait then .done none else .fallback)
  else writeAtEnd c o n

/-- The next section of a call. -/
def nextSection (c : Call) (o : Outcome) (n : Shared) : Pc → Shared × Pc
  | .start =>
    if c.buf = [] then (n, .done (some 0))
    else if c.nowait then
      if c.direct = false ∨ n.inlineData = true ∨ n.size = 0 then (n, .done none)
      else (n, .outside)
    else (n, .located n.size)
  | .located pos => inlineSection c o n pos
  | .outside => if c.direct then dioWrite c o n else bufferedWrite c o n
  | .fallback => bufferedWrite c o n
  | .done ret => (n, .done ret)

/-- The inode and how far each call has come. -/
structure Appends where
  inode : Shared
  pcs   : List Pc

section Calls

variable (calls : List Call)

/-- Call `i` runs its next section. -/
def Appends.step (s : Appends) (i : Nat) (o : Outcome) : Appends :=
  match calls[i]?, s.pcs[i]? with
  | some c, some pc =>
    ⟨(nextSection c o s.inode pc).1, s.pcs.set i (nextSection c o s.inode pc).2⟩
  | _, _ => s

/-- The sections in the order in which they get the lock. -/
def Appends.run : List (Nat × Outcome) → Appends → Appends
  | [], s => s
  | x :: rest, s => run rest (s.step calls x.1 x.2)

/-- No call has begun. -/
def Appends.begin (n : Shared) : Appends := ⟨n, calls.map fun _ => .start⟩

/-- Every call returned its full count. -/
def Appends.Full (s : Appends) : Prop :=
  ∀ (i : Nat) (c : Call), calls[i]? = some c → s.pcs[i]? = some (Pc.done (some c.buf.length))

/-- An inline copy goes to the end of the file, and the iomap core does not meet an inline
file. -/
def Fresh (c : Call) (n : Shared) : Pc → Prop
  | .located pos => n.inlineData = true ∨ n.size = 0 → pos + c.buf.length ≤ 256 → pos = n.size
  | .outside => n.inlineData = false
  | .fallback => n.inlineData = false
  | _ => True

/-- Every section of the run is fresh when it begins. -/
def Appends.FreshRun : List (Nat × Outcome) → Appends → Prop
  | [], _ => True
  | x :: rest, s =>
    (∀ c pc, calls[x.1]? = some c → s.pcs[x.1]? = some pc → Fresh c s.inode pc) ∧
      FreshRun rest (s.step calls x.1 x.2)

end Calls

--
-- One section
--

section Section

variable {c : Call} {o : Outcome} {n n' : Shared} {pc pc' : Pc}

theorem content_promote (n : Shared) : n.promote.content = n.content := by
  unfold Shared.promote
  by_cases hFlat : n.inlineData = false
  · rw [if_pos hFlat]
  · rw [if_neg hFlat]
    have hInline : n.inlineData = true := by simpa using hFlat
    by_cases hZero : n.size = 0
    · rw [if_pos hZero]
      unfold Shared.content
      rw [hZero]
      rfl
    · rw [if_neg hZero]
      unfold Shared.content
      rw [hInline]
      refine upTo_congr fun p hp => ?_
      show (if p < n.size then n.area p else 0#8) = n.area p
      exact if_pos hp

/-- An inline copy at the end of the file. -/
theorem content_inlineCopy (buf : List (BitVec 8)) (h : n.inlineData = true ∨ n.size = 0) :
    Shared.content { n with
      inlineData := true
      size := max n.size (n.size + buf.length)
      area := put n.area n.size buf } = n.content ++ buf := by
  unfold Shared.content
  dsimp only
  rw [if_pos rfl, show max n.size (n.size + buf.length) = n.size + buf.length by omega,
    upTo_put_end]
  rcases h with hInline | hZero
  · rw [hInline, if_pos rfl]
  · rw [hZero]
    rfl

theorem content_writeAtEnd (hFlat : n.inlineData = false) :
    (writeAtEnd c o n).1.content = n.content ++ c.buf.take o.written := by
  unfold writeAtEnd Shared.content
  dsimp only
  rw [hFlat, if_neg Bool.false_ne_true, if_neg Bool.false_ne_true, upTo_put_end]

/-- What a section does: the call goes on and the content is the same, the buffer is appended and
the call returns its count, or it returns something else. -/
inductive Effect (c : Call) (n n' : Shared) (pc' : Pc) : Prop
  | goesOn (same : n'.content = n.content) (open_ : ∀ r, pc' ≠ .done r)
  | appends (more : n'.content = n.content ++ c.buf) (full : pc' = .done (some c.buf.length))
  | fails (r : Option Nat) (done : pc' = .done r) (short : r ≠ some c.buf.length)

theorem Effect.failed (n n' : Shared) : Effect c n n' (.done none) :=
  .fails none rfl nofun

theorem writeAtEnd_effect (hFlat : n.inlineData = false) :
    Effect c n (writeAtEnd c o n).1 (writeAtEnd c o n).2 := by
  have hContent := content_writeAtEnd (c := c) (o := o) hFlat
  have hPc : (writeAtEnd c o n).2 =
      .done (if o.unsynced then none else some (c.buf.take o.written).length) := rfl
  rw [hPc]
  by_cases hSync : o.unsynced = true
  · rw [if_pos hSync]
    exact Effect.failed _ _
  rw [if_neg hSync]
  by_cases hAll : (c.buf.take o.written).length = c.buf.length
  · have hTake : c.buf.take o.written = c.buf := by
      refine List.take_of_length_le ?_
      rw [List.length_take] at hAll
      omega
    rw [hTake] at hContent ⊢
    exact .appends hContent rfl
  · exact .fails _ rfl fun hEq => hAll (Option.some.inj hEq)

theorem bufferedWrite_effect (hFlat : n.inlineData = false) :
    Effect c n (bufferedWrite c o n).1 (bufferedWrite c o n).2 := by
  unfold bufferedWrite
  split
  · exact Effect.failed _ _
  · exact writeAtEnd_effect hFlat

theorem dioWrite_effect (hFlat : n.inlineData = false) :
    Effect c n (dioWrite c o n).1 (dioWrite c o n).2 := by
  unfold dioWrite
  split
  · exact Effect.failed _ _
  · split
    · split
      · exact Effect.failed _ _
      · exact .goesOn rfl nofun
    · exact writeAtEnd_effect hFlat

theorem inlineSection_effect {pos : Nat} (hFresh : Fresh c n (.located pos)) :
    Effect c n (inlineSection c o n pos).1 (inlineSection c o n pos).2 := by
  unfold inlineSection
  split
  · exact Effect.failed _ _
  by_cases hSmall : n.inlineData = true ∨ n.size = 0
  · rw [if_pos hSmall]
    by_cases hFits : pos + c.buf.length ≤ 256
    · rw [if_pos hFits]
      obtain rfl := hFresh hSmall hFits
      split
      · exact Effect.failed _ _
      · dsimp only
        split
        · exact Effect.failed _ _
        · exact .appends (content_inlineCopy c.buf hSmall) rfl
    · rw [if_neg hFits]
      split
      · exact Effect.failed _ _
      · exact .goesOn (content_promote n) nofun
  · rw [if_neg hSmall]
    exact .goesOn rfl nofun

/-- Every fresh section of a call that has not returned. -/
theorem nextSection_effect (hFresh : Fresh c n pc) (hOpen : ∀ r, pc ≠ .done r) :
    Effect c n (nextSection c o n pc).1 (nextSection c o n pc).2 := by
  cases pc with
  | start =>
    dsimp only [nextSection]
    by_cases hNil : c.buf = []
    · rw [if_pos hNil]
      refine .appends ?_ ?_
      · rw [hNil, List.append_nil]
      · rw [hNil]
        rfl
    · rw [if_neg hNil]
      split
      · split
        · exact Effect.failed _ _
        · exact .goesOn rfl nofun
      · exact .goesOn rfl nofun
  | located pos => exact inlineSection_effect hFresh
  | outside =>
    dsimp only [nextSection]
    split
    · exact dioWrite_effect hFresh
    · exact bufferedWrite_effect hFresh
  | fallback => exact bufferedWrite_effect hFresh
  | done r => exact absurd rfl (hOpen r)

end Section

--
-- All sections
--

section Run

variable {calls : List Call} {base : List (BitVec 8)} {s : Appends}

/-- Call `i` returned its full count. -/
def Appends.Returned (calls : List Call) (s : Appends) (i : Nat) : Prop :=
  ∃ c : Call, calls[i]? = some c ∧ s.pcs[i]? = some (Pc.done (some c.buf.length))

/-- Some call returned something else. -/
def Appends.Failed (calls : List Call) (s : Appends) : Prop :=
  ∃ (i : Nat) (c : Call) (r : Option Nat), calls[i]? = some c ∧ s.pcs[i]? = some (Pc.done r) ∧ r ≠ some c.buf.length

/-- The bytes of call `i`. -/
def bytesOf (calls : List Call) (i : Nat) : List (BitVec 8) :=
  match calls[i]? with
  | some c => c.buf
  | none => []

/-- The buffers of the calls that returned follow the old content in the order of `order`. -/
structure Appended (calls : List Call) (base : List (BitVec 8)) (s : Appends) (order : List Nat) :
    Prop where
  once    : order.Nodup
  members : ∀ i, i ∈ order ↔ s.Returned calls i
  content : s.inode.content = base ++ (order.map (bytesOf calls)).flatten

theorem step_other {i j : Nat} (o : Outcome) (hij : i ≠ j) :
    (s.step calls i o).pcs[j]? = s.pcs[j]? := by
  unfold Appends.step
  split
  · exact List.getElem?_set_ne hij
  · rfl

theorem step_of_done {i : Nat} {r : Option Nat} (o : Outcome) (h : s.pcs[i]? = some (Pc.done r)) :
    s.step calls i o = s := by
  unfold Appends.step
  rw [h]
  cases hc : calls[i]? with
  | none => rfl
  | some c =>
    show (⟨s.inode, s.pcs.set i (.done r)⟩ : Appends) = s
    have hSame : s.pcs.set i (.done r) = s.pcs := by
      apply List.ext_getElem?
      intro j
      by_cases hij : i = j
      · subst hij
        have hLt : i < s.pcs.length := (List.getElem?_eq_some_iff.mp h).1
        rw [List.getElem?_set_self hLt, h]
      · exact List.getElem?_set_ne hij
    rw [hSame]

theorem Appends.Failed.step (h : s.Failed calls) (i : Nat) (o : Outcome) :
    (s.step calls i o).Failed calls := by
  obtain ⟨j, c, r, hc, hr, hShort⟩ := h
  by_cases hij : i = j
  · subst hij
    rw [step_of_done o hr]
    exact ⟨i, c, r, hc, hr, hShort⟩
  · exact ⟨j, c, r, hc, by rw [step_other o hij]; exact hr, hShort⟩

/-- A call that has not returned is not in the order. -/
theorem not_returned (calls : List Call) {i : Nat} {pc : Pc} (hPc : s.pcs[i]? = some pc) (hOpen : ∀ r, pc ≠ .done r) :
    ¬ s.Returned calls i := by
  rintro ⟨c, -, hDone⟩
  rw [hPc] at hDone
  exact hOpen _ (Option.some.inj hDone)

/-- One section keeps the order, or adds its call at the end, or fails. -/
theorem Appended.step {order : List Nat} (h : Appended calls base s order) {i : Nat} (o : Outcome)
    (hFresh : ∀ c pc, calls[i]? = some c → s.pcs[i]? = some pc → Fresh c s.inode pc) :
    (s.step calls i o).Failed calls ∨ ∃ order', Appended calls base (s.step calls i o) order' := by
  have hStay : (∀ r, s.pcs[i]? ≠ some (Pc.done r)) → calls[i]? = none ∨ s.pcs[i]? = none →
      ∃ order', Appended calls base (s.step calls i o) order' := by
    intro _ hNone
    have hSame : s.step calls i o = s := by
      unfold Appends.step
      rcases hNone with hNone | hNone
      · rw [hNone]
      · rw [hNone]
        cases calls[i]? <;> rfl
    rw [hSame]
    exact ⟨order, h⟩
  cases hPc : s.pcs[i]? with
  | none => exact Or.inr (hStay (by rw [hPc]; nofun) (Or.inr hPc))
  | some pc =>
    by_cases hDone : ∃ r, pc = .done r
    · obtain ⟨r, rfl⟩ := hDone
      rw [step_of_done o hPc]
      exact Or.inr ⟨order, h⟩
    have hOpen : ∀ r, pc ≠ .done r := fun r hr => hDone ⟨r, hr⟩
    cases hCall : calls[i]? with
    | none =>
      refine Or.inr (hStay (fun r hr => hOpen r ?_) (Or.inl hCall))
      rw [hPc] at hr
      exact Option.some.inj hr
    | some c =>
      have hLt : i < s.pcs.length := (List.getElem?_eq_some_iff.mp hPc).1
      have hStep : s.step calls i o =
          ⟨(nextSection c o s.inode pc).1, s.pcs.set i (nextSection c o s.inode pc).2⟩ := by
        unfold Appends.step
        rw [hCall, hPc]
      have hOwn : (s.step calls i o).pcs[i]? = some (nextSection c o s.inode pc).2 := by
        rw [hStep]
        exact List.getElem?_set_self hLt
      have hRest : ∀ j, i ≠ j → ((s.step calls i o).Returned calls j ↔ s.Returned calls j) := by
        intro j hij
        unfold Appends.Returned
        rw [step_other o hij]
      have hWas := not_returned calls hPc hOpen
      rcases nextSection_effect (o := o) (hFresh c pc hCall hPc) hOpen with
        ⟨hSame, hStill⟩ | ⟨hMore, hFull⟩ | ⟨r, hRet, hShort⟩
      · refine Or.inr ⟨order, h.once, fun j => ?_, ?_⟩
        · by_cases hij : i = j
          · subst hij
            rw [h.members]
            exact iff_of_false hWas (not_returned calls hOwn hStill)
          · rw [h.members, hRest j hij]
        · rw [hStep]
          exact hSame.trans h.content
      · have hNew : (s.step calls i o).Returned calls i := ⟨c, hCall, hOwn.trans (by rw [hFull])⟩
        refine Or.inr ⟨order ++ [i], ?_, fun j => ?_, ?_⟩
        · rw [List.nodup_append]
          refine ⟨h.once, List.nodup_singleton i, fun x hx y hy hxy => ?_⟩
          rw [List.mem_singleton] at hy
          subst hxy hy
          exact hWas ((h.members _).mp hx)
        · rw [List.mem_append, List.mem_singleton, h.members]
          by_cases hij : i = j
          · subst hij
            exact iff_of_true (Or.inr rfl) hNew
          · rw [hRest j hij]
            exact ⟨fun hj => hj.resolve_right fun hEq => hij hEq.symm, Or.inl⟩
        · have hBytes : bytesOf calls i = c.buf := by
            unfold bytesOf
            rw [hCall]
          rw [hStep]
          show (nextSection c o s.inode pc).1.content = _
          rw [hMore, h.content, List.map_append, List.flatten_append, List.append_assoc]
          simp [hBytes]
      · exact Or.inl ⟨i, c, r, hCall, hOwn.trans (by rw [hRet]), hShort⟩

theorem Appends.Failed.run : ∀ (steps : List (Nat × Outcome)) {s : Appends}, s.Failed calls →
    (Appends.run calls steps s).Failed calls := by
  intro steps
  induction steps with
  | nil => exact fun h => h
  | cons x rest ih => exact fun h => ih (h.step x.1 x.2)

/-- A run of fresh sections. -/
theorem Appended.run : ∀ (steps : List (Nat × Outcome)) {s : Appends} {order : List Nat},
    Appended calls base s order → Appends.FreshRun calls steps s →
    (Appends.run calls steps s).Failed calls ∨
      ∃ order', Appended calls base (Appends.run calls steps s) order' := by
  intro steps
  induction steps with
  | nil => exact fun h _ => Or.inr ⟨_, h⟩
  | cons x rest ih =>
    intro s order h hFresh
    rcases h.step x.2 hFresh.1 with hFailed | ⟨order', hNext⟩
    · exact Or.inl (hFailed.run rest)
    · exact ih hNext hFresh.2

theorem map_bytesOf_range : (List.range calls.length).map (bytesOf calls) = calls.map Call.buf := by
  apply List.ext_getElem?
  intro i
  by_cases hi : i < calls.length
  · rw [List.getElem?_map, List.getElem?_map, List.getElem?_range hi, List.getElem?_eq_getElem hi]
    unfold bytesOf
    rw [Option.map_some, Option.map_some, List.getElem?_eq_getElem hi]
  · rw [List.getElem?_eq_none (by rw [List.length_map, List.length_range]; omega),
      List.getElem?_eq_none (by rw [List.length_map]; omega)]

end Run

/-- Any number of `O_APPEND` writes to one file, their sections in any order: if every inline copy
finds the end of the file where its call read it, no second section meets an inline file, and every
call returns its full count, then the buffers follow the old content in some order, each in one
piece, and the size is the sum of the lengths. -/
theorem appends_in_some_order (calls : List Call) (n : Shared) (steps : List (Nat × Outcome))
    (hFresh : Appends.FreshRun calls steps (Appends.begin calls n))
    (hFull : (Appends.run calls steps (Appends.begin calls n)).Full calls) :
    ∃ order : List (List (BitVec 8)), order.Perm (calls.map Call.buf) ∧
      (Appends.run calls steps (Appends.begin calls n)).inode.content =
        n.content ++ order.flatten ∧
      (Appends.run calls steps (Appends.begin calls n)).inode.size =
        n.size + ((calls.map Call.buf).map List.length).sum := by
  have hBegin : Appended calls n.content (Appends.begin calls n) [] := by
    refine ⟨List.nodup_nil, fun i => ⟨nofun, ?_⟩, (List.append_nil _).symm⟩
    rintro ⟨c, hc, hDone⟩
    have hStart : (Appends.begin calls n).pcs[i]? = some .start := by
      unfold Appends.begin
      rw [List.getElem?_map, hc, Option.map_some]
    rw [hStart] at hDone
    cases hDone
  generalize hEnd : Appends.run calls steps (Appends.begin calls n) = e at hFull ⊢
  have hRun := hBegin.run steps hFresh
  rw [hEnd] at hRun
  rcases hRun with ⟨i, c, r, hc, hr, hShort⟩ | ⟨order, hDone⟩
  · rw [hFull i c hc] at hr
    cases hr
    exact absurd rfl hShort
  have hAll : order.Perm (List.range calls.length) := by
    refine (List.perm_ext_iff_of_nodup hDone.once List.nodup_range).mpr fun i => ?_
    rw [hDone.members, List.mem_range]
    constructor
    · rintro ⟨c, hc, -⟩
      exact (List.getElem?_eq_some_iff.mp hc).1
    · intro hi
      have hc : calls[i]? = some calls[i] := List.getElem?_eq_getElem hi
      exact ⟨_, hc, hFull i _ hc⟩
  have hPerm : (order.map (bytesOf calls)).Perm (calls.map Call.buf) :=
    map_bytesOf_range ▸ hAll.map (bytesOf calls)
  refine ⟨_, hPerm, hDone.content, ?_⟩
  have hSize : e.inode.size = e.inode.content.length := by
    unfold Shared.content
    rw [length_upTo]
  have hOld : n.size = n.content.length := by
    unfold Shared.content
    rw [length_upTo]
  rw [hSize, hOld, hDone.content, List.length_append, hPerm.flatten.length_eq, List.length_flatten]

/-- Nothing goes wrong in the kernel. -/
def smooth : Outcome := ⟨false, false, false, false, false, 4096, false⟩

/-- A file without bytes. -/
def emptyShared : Shared := ⟨false, 0, fun _ => 0#8, fun _ => 0#8⟩

/-- Two appends of one byte. -/
def twoAppends : List Call := [⟨[1#8], false, false⟩, ⟨[2#8], false, false⟩]

/-- One append after the other. -/
theorem appends_one_by_one :
    ∃ order : List (List (BitVec 8)), order.Perm (twoAppends.map Call.buf) ∧
      (Appends.run twoAppends [(0, smooth), (0, smooth), (1, smooth), (1, smooth)]
        (Appends.begin twoAppends emptyShared)).inode.content =
        emptyShared.content ++ order.flatten ∧
      (Appends.run twoAppends [(0, smooth), (0, smooth), (1, smooth), (1, smooth)]
        (Appends.begin twoAppends emptyShared)).inode.size =
        emptyShared.size + ((twoAppends.map Call.buf).map List.length).sum := by
  refine appends_in_some_order twoAppends emptyShared _ ⟨?_, ?_, ?_, ?_, trivial⟩ ?_
  · exact fun c pc hc hpc => by cases hc; cases hpc; trivial
  · exact fun c pc hc hpc => by cases hc; cases hpc; exact fun _ _ => rfl
  · exact fun c pc hc hpc => by cases hc; cases hpc; trivial
  · exact fun c pc hc hpc => by cases hc; cases hpc; exact fun _ _ => rfl
  · rintro (_ | _ | i) c hc
    · cases hc
      rfl
    · cases hc
      rfl
    · cases hc

/-- Both calls read the size 0 before either takes the lock: the second byte takes the place of
the first. -/
theorem appends_overwrite :
    ∃ e, Appends.run twoAppends [(0, smooth), (1, smooth), (0, smooth), (1, smooth)]
        (Appends.begin twoAppends emptyShared) = e ∧ e.Full twoAppends ∧
      e.inode.content = [2#8] ∧
      ¬ ∃ order : List (List (BitVec 8)), order.Perm (twoAppends.map Call.buf) ∧
        e.inode.content = emptyShared.content ++ order.flatten := by
  refine ⟨_, rfl, ?_, rfl, ?_⟩
  · rintro (_ | _ | i) c hc
    · cases hc
      rfl
    · cases hc
      rfl
    · cases hc
  · rintro ⟨order, hPerm, hContent⟩
    have hLength : order.flatten.length = 2 := hPerm.flatten.length_eq
    have hOne : order.flatten.length = 1 := congrArg List.length hContent.symm
    omega

end Briefs.File
