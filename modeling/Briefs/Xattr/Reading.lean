import Briefs.Lib.Loop
import Briefs.Alloc.Blocks
import Briefs.Xattr.Pack

/-!
# BrieFS — reading an xattr chain of any content

The loops that follow the links of an xattr chain (`xattr.c`), on blocks of any content that
pass the checks. Links may lead back: lookup, listing and loading count the blocks and give up
after `BRIEFS_XATTR_MAX_CHAIN`. The loop of `xattr_copy_value` does not count; it goes on until
all bytes of the value are copied.

Reading a block that is cached gives the same buffer, so `bh == first_bh` says that the block
numbers are equal. A value that starts at offset 0 is looked for behind its entry block, and
nothing is copied on that way. If the entry block links to itself, the way leads back to it.

`reads` counts the calls of `sb_bread`.

## Results

* `findPass_settles`, `listPass_settles`, `chainPass_settles` — the loops that count.
* `copyPass_settles` — a value is copied with at most two reads for each byte.
* `copyPass_stuck` — the entry block that links to itself.
* `reads_settle_iff` — reads terminate unless the value is behind such a block.
-/

namespace Briefs.Xattr

open Briefs.Lib
open Briefs.Journal

--
-- The code
--

/-- What reading a block gives, with the link; `none` if it fails or a check does. -/
abbrev Blocks := Nat → Option (XBlock × Nat)

/-- The buffer that a loop holds: its block number, its content and its `next_block`; the number
of blocks that the loop has counted, and the number of reads. -/
structure Cursor where
  block   : Nat
  bh      : XBlock
  next    : Nat
  visited : Nat
  reads   : Nat

/-- `briefs_xattr_block_read_abs`. -/
def Cursor.read (blocks : Blocks) (block visited reads : Nat) : Option Cursor :=
  match blocks block with
  | none => none
  | some (x, next) => some ⟨block, x, next, visited, reads + 1⟩

/-- The way on from a block: the end of the chain, a block that cannot be read, or the next. -/
inductive Link where
  | last
  | failed
  | next (c : Cursor)

/-- `briefs_xattr_chain_next`. -/
def Cursor.follow (blocks : Blocks) (c : Cursor) : Link :=
  if c.next = 0 then .last
  else match Cursor.read blocks c.next (c.visited + 1) c.reads with
    | none => .failed
    | some c => .next c

/-- One pass of `briefs_xattr_find`. -/
def findPass (blocks : Blocks) (name : List UInt8) (c : Cursor) :
    Cursor ⊕ Nat × Except Errno (Option (Cursor × Entry)) :=
  if maxChain < c.visited + 1 then .inr (c.reads, .error .eio)
  else match if c.bh.cont then none else c.bh.find name with
    | some e => .inr (c.reads, .ok (some (c, e)))
    | none =>
      match c.follow blocks with
      | .last => .inr (c.reads, .ok none)
      | .failed => .inr (c.reads + 1, .error .eio)
      | .next c => .inl c

/-- A copy in progress. -/
structure Copy where
  cursor : Cursor
  value  : List UInt8

/-- The next block of a value, which has to be there. -/
def Copy.onward (blocks : Blocks) (p : Copy) : Copy ⊕ Nat × Except Errno (List UInt8) :=
  match p.cursor.follow blocks with
  | .last => .inr (p.cursor.reads, .error .eio)
  | .failed => .inr (p.cursor.reads + 1, .error .eio)
  | .next c => .inl { p with cursor := c }

/-- One pass of `xattr_copy_value`. -/
def copyPass (blocks : Blocks) (first : Nat) (e : Entry) (p : Copy) :
    Copy ⊕ Nat × Except Errno (List UInt8) :=
  if e.valueLen ≤ p.value.length then .inr (p.cursor.reads, .ok p.value)
  else if p.cursor.block = first ∧ e.valueOffset = 0 then p.onward blocks
  else match p.cursor.bh.payload (p.cursor.block = first) e.valueOffset with
    | none => .inr (p.cursor.reads, .error .eio)
    | some (start, avail) =>
      let take := min avail (e.valueLen - p.value.length)
      let value := p.value ++ slice p.cursor.bh.data start take
      if e.valueLen ≤ value.length then .inr (p.cursor.reads, .ok value)
      else { p with value := value }.onward blocks

/-- `briefs_xattr_get` with a number of passes for its loops: the number of reads, and the length
and the bytes that are returned. -/
def getPasses (s : Store) (name : List UInt8) (size : Option Nat) (passes : Nat) :
    Option (Nat × Except Errno (Nat × List UInt8)) :=
  if nameMax < name.length then some (0, .error .erange)
  else if s.head = 0 then some (0, .error .enodata)
  else match Cursor.read s.blocks s.head 0 0 with
    | none => some (1, .error .eio)
    | some c =>
      match runLoop (findPass s.blocks name) passes c with
      | none => none
      | some (reads, .error err) => some (reads, .error err)
      | some (reads, .ok none) => some (reads, .error .enodata)
      | some (reads, .ok (some (c, e))) =>
        match size with
        | none => some (reads, .ok (e.valueLen, []))
        | some size =>
          if size < e.valueLen then some (reads, .error .erange)
          else if e.valueLen = 0 then some (reads, .ok (0, []))
          else match runLoop (copyPass s.blocks c.block e) passes ⟨c, []⟩ with
            | none => none
            | some (reads, .error err) => some (reads, .error err)
            | some (reads, .ok value) => some (reads, .ok (e.valueLen, value))

/-- The names that are listed so far take `total` bytes. -/
structure Listing where
  cursor : Cursor
  total  : Nat

/-- The loop over the entries of a block; `size` is the size of the buffer, if there is one. -/
def listEntries (size : Option Nat) : List Entry → Nat → Except Errno Nat
  | [], total => .ok total
  | e :: es, total =>
    match size with
    | none => listEntries size es (total + (e.nameLen + 1))
    | some room =>
      if room < total + (e.nameLen + 1) then .error .erange
      else listEntries size es (total + (e.nameLen + 1))

/-- One pass of `briefs_xattr_list`. -/
def listPass (blocks : Blocks) (size : Option Nat) (l : Listing) :
    Listing ⊕ Nat × Except Errno Nat :=
  if maxChain < l.cursor.visited + 1 then .inr (l.cursor.reads, .error .eio)
  else match if l.cursor.bh.cont then .ok l.total
      else listEntries size l.cursor.bh.entries l.total with
    | .error err => .inr (l.cursor.reads, .error err)
    | .ok total =>
      match l.cursor.follow blocks with
      | .last => .inr (l.cursor.reads, .ok total)
      | .failed => .inr (l.cursor.reads + 1, .error .eio)
      | .next c => .inl ⟨c, total⟩

/-- `briefs_xattr_list`. -/
def listPasses (s : Store) (size : Option Nat) (passes : Nat) : Option (Nat × Except Errno Nat) :=
  if s.head = 0 then some (0, .ok 0)
  else match Cursor.read s.blocks s.head 0 0 with
    | none => some (1, .error .eio)
    | some c => runLoop (listPass s.blocks size) passes ⟨c, 0⟩

/-- The blocks that are loaded so far, the last one first. -/
structure Loading where
  cursor : Cursor
  bhs    : List XBlock

/-- One pass of `xattr_chain_load`. -/
def chainPass (blocks : Blocks) (l : Loading) : Loading ⊕ Nat × Except Errno (List XBlock) :=
  if maxChain ≤ l.cursor.visited then .inr (l.cursor.reads, .error .eio)
  else match l.cursor.follow blocks with
    | .last => .inr (l.cursor.reads, .ok (l.cursor.bh :: l.bhs).reverse)
    | .failed => .inr (l.cursor.reads + 1, .error .eio)
    | .next c => .inl ⟨c, l.cursor.bh :: l.bhs⟩

/-- `briefs_xattr_load_entries`: the entries are read from the blocks that are loaded. -/
def loadPasses (s : Store) (passes : Nat) : Option (Nat × Except Errno (List KV)) :=
  if s.head = 0 then some (0, .ok [])
  else match Cursor.read s.blocks s.head 0 0 with
    | none => some (1, .error .eio)
    | some c =>
      match runLoop (chainPass s.blocks) passes ⟨c, []⟩ with
      | none => none
      | some (reads, .error err) => some (reads, .error err)
      | some (reads, .ok xs) => some (reads, loadEntries xs)

--
-- What is to be shown
--

/-- The function returns, and has read at most `bound` blocks. -/
def Settles {ρ : Type} (f : Nat → Option (Nat × ρ)) (bound : Nat) : Prop :=
  ∃ passes reads r, f passes = some (reads, r) ∧ reads ≤ bound

/-- The fields of entries are 16 bits wide. -/
def Fields (blocks : Blocks) : Prop :=
  ∀ b x next, blocks b = some (x, next) → ∀ e ∈ x.entries, e.valueLen < 65536

/-- From block `h` on the first entry with the name is `e`, in block `b`, after `n` links. -/
inductive Leads (blocks : Blocks) (name : List UInt8) : Nat → Nat → Nat → Entry → Prop where
  | here {h next : Nat} {x : XBlock} {e : Entry} : blocks h = some (x, next) → x.cont = false →
      x.find name = some e → Leads blocks name 0 h h e
  | link {n h next b : Nat} {x : XBlock} {e : Entry} : blocks h = some (x, next) →
      (x.cont = true ∨ x.find name = none) → next ≠ 0 → Leads blocks name n next b e →
      Leads blocks name (n + 1) h b e

/-- The value that is asked for lies behind its entry block, and that block links to itself. -/
def BehindItself (s : Store) (name : List UInt8) (size : Option Nat) : Prop :=
  name.length ≤ nameMax ∧ s.head ≠ 0 ∧
    ∃ n b e x room, n < maxChain ∧ Leads s.blocks name n s.head b e ∧
      s.blocks b = some (x, b) ∧ e.valueOffset = 0 ∧ 0 < e.valueLen ∧
      size = some room ∧ e.valueLen ≤ room

--
-- The loops that count
--

section Counting

variable {blocks : Blocks} {name : List UInt8} {c c' : Cursor}

/-- The cursor holds a block as it was read. -/
def Cursor.Holds (blocks : Blocks) (c : Cursor) : Prop := blocks c.block = some (c.bh, c.next)

/-- Every block that is counted has been read, and the one at hand. -/
structure Cursor.Counted (blocks : Blocks) (c : Cursor) : Prop where
  holds   : c.Holds blocks
  visited : c.visited ≤ maxChain
  reads   : c.reads = c.visited + 1

theorem read_eq_some {b visited reads : Nat} (h : Cursor.read blocks b visited reads = some c) :
    c.Holds blocks ∧ c.block = b ∧ c.visited = visited ∧ c.reads = reads + 1 := by
  unfold Cursor.read at h
  cases hb : blocks b with
  | none =>
    rw [hb] at h
    exact absurd h.symm (Option.some_ne_none c)
  | some pair =>
    rw [hb] at h
    obtain rfl := Option.some.inj h
    exact ⟨hb, rfl, rfl, rfl⟩

theorem follow_eq_next (h : c.follow blocks = .next c') :
    c.next ≠ 0 ∧ c'.Holds blocks ∧ c'.block = c.next ∧ c'.visited = c.visited + 1 ∧
      c'.reads = c.reads + 1 := by
  unfold Cursor.follow at h
  by_cases hEnd : c.next = 0
  · rw [if_pos hEnd] at h
    cases h
  · rw [if_neg hEnd] at h
    cases hRead : Cursor.read blocks c.next (c.visited + 1) c.reads with
    | none =>
      rw [hRead] at h
      cases h
    | some d =>
      rw [hRead] at h
      obtain rfl : d = c' := by
        cases h
        rfl
      exact ⟨hEnd, read_eq_some hRead⟩

theorem Cursor.Counted.follow (h : c.Counted blocks) (hMore : c.visited < maxChain)
    (hNext : c.follow blocks = .next c') :
    c'.Counted blocks ∧ maxChain - c'.visited < maxChain - c.visited := by
  obtain ⟨-, hHolds, -, hVisited, hReads⟩ := follow_eq_next hNext
  have hCount := h.reads
  exact ⟨⟨hHolds, by omega, by omega⟩, by omega⟩

theorem read_counted {b : Nat} (h : Cursor.read blocks b 0 0 = some c) : c.Counted blocks := by
  obtain ⟨hHolds, -, hVisited, hReads⟩ := read_eq_some h
  exact ⟨hHolds, by omega, by omega⟩

/-- The invariant of a lookup: what the rest of the chain leads to, all of it leads to. -/
structure Cursor.Looking (blocks : Blocks) (name : List UInt8) (head : Nat) (c : Cursor) :
    Prop where
  counted : c.Counted blocks
  past    : ∀ n b e, Leads blocks name n c.block b e → Leads blocks name (n + c.visited) head b e

/-- What a lookup gives. -/
def FoundBy (blocks : Blocks) (name : List UInt8) (head : Nat)
    (r : Nat × Except Errno (Option (Cursor × Entry))) : Prop :=
  r.1 ≤ maxChain + 1 ∧ ∀ c e, r.2 = .ok (some (c, e)) → c.Holds blocks ∧ c.reads ≤ maxChain + 1 ∧
    e ∈ c.bh.entries ∧ ∃ n < maxChain, Leads blocks name n head c.block e

theorem mem_of_find {x : XBlock} {e : Entry} (h : x.find name = some e) : e ∈ x.entries :=
  List.mem_of_find?_eq_some h

/-- `briefs_xattr_find` gives up after as many blocks as a chain may have. -/
theorem findPass_settles (name : List UInt8) {head : Nat}
    (h : Cursor.read blocks head 0 0 = some c) :
    ∃ r, runLoop (findPass blocks name) (maxChain + 1) c = some r ∧ FoundBy blocks name head r := by
  refine runLoop_of_measure (Cursor.Looking blocks name head)
    (fun c => maxChain - c.visited) ?_ ?_ ⟨read_counted h, ?_⟩ (by omega)
  · intro c next hInv hBody
    unfold findPass at hBody
    by_cases hFull : maxChain < c.visited + 1
    · rw [if_pos hFull] at hBody
      cases hBody
    rw [if_neg hFull] at hBody
    cases hFind : (if c.bh.cont then none else c.bh.find name) with
    | some e =>
      rw [hFind] at hBody
      cases hBody
    | none =>
      rw [hFind] at hBody
      dsimp only at hBody
      cases hFollow : c.follow blocks with
      | last =>
        rw [hFollow] at hBody
        cases hBody
      | failed =>
        rw [hFollow] at hBody
        cases hBody
      | next d =>
        rw [hFollow] at hBody
        obtain rfl := Sum.inl.inj hBody
        obtain ⟨hSome, -, hBlock, hVisited, -⟩ := follow_eq_next hFollow
        have hNot : c.bh.cont = true ∨ c.bh.find name = none := by
          split_ifs at hFind with hCont
          · exact Or.inl hCont
          · exact Or.inr hFind
        obtain ⟨hCounted, hLess⟩ := hInv.counted.follow (by omega) hFollow
        refine ⟨⟨hCounted, fun n b e hLeads => ?_⟩, hLess⟩
        rw [hBlock] at hLeads
        have hAll := hInv.past _ b e (.link hInv.counted.holds hNot hSome hLeads)
        rwa [hVisited, Nat.add_comm c.visited 1, ← Nat.add_assoc]
  · intro c r hInv hBody
    have hReads := hInv.counted.reads
    have hVisited := hInv.counted.visited
    unfold findPass at hBody
    by_cases hFull : maxChain < c.visited + 1
    · rw [if_pos hFull] at hBody
      obtain rfl := Sum.inr.inj hBody
      exact ⟨by dsimp only; omega, fun c e hOk => by cases hOk⟩
    rw [if_neg hFull] at hBody
    cases hFind : (if c.bh.cont then none else c.bh.find name) with
    | some e =>
      rw [hFind] at hBody
      obtain rfl := Sum.inr.inj hBody
      refine ⟨by dsimp only; omega, fun c' e' hOk => ?_⟩
      obtain ⟨rfl, rfl⟩ : c = c' ∧ e = e' := by
        cases hOk
        exact ⟨rfl, rfl⟩
      split_ifs at hFind with hCont
      have hHere := hInv.past 0 _ e (.here hInv.counted.holds (by simpa using hCont) hFind)
      exact ⟨hInv.counted.holds, by omega, mem_of_find hFind, _, by omega, hHere⟩
    | none =>
      rw [hFind] at hBody
      dsimp only at hBody
      cases hFollow : c.follow blocks with
      | last =>
        rw [hFollow] at hBody
        obtain rfl := Sum.inr.inj hBody
        exact ⟨by dsimp only; omega, fun c e hOk => by cases hOk⟩
      | failed =>
        rw [hFollow] at hBody
        obtain rfl := Sum.inr.inj hBody
        exact ⟨by dsimp only; omega, fun c e hOk => by cases hOk⟩
      | next d =>
        rw [hFollow] at hBody
        cases hBody
  · obtain ⟨-, hBlock, hVisited, -⟩ := read_eq_some h
    intro n b e hLeads
    rw [hVisited, ← hBlock]
    exact hLeads

/-- A pass goes on along the link, if the chain is not too long yet, or it leaves the loop. -/
def Cursor.GoesAlong {σ ρ : Type} (blocks : Blocks) (cursor : σ → Cursor) (s : σ)
    (out : σ ⊕ Nat × ρ) : Prop :=
  (∃ next, out = .inl next ∧ (cursor s).visited < maxChain ∧
    (cursor s).follow blocks = .next (cursor next)) ∨
  ∃ r, out = .inr r ∧ (r.1 ≤ (cursor s).reads ∨
    ((cursor s).visited < maxChain ∧ r.1 ≤ (cursor s).reads + 1))

/-- A loop that goes on along the links only, and not past the longest chain. -/
theorem settles_of_follow {σ ρ : Type} {body : σ → σ ⊕ Nat × ρ} (cursor : σ → Cursor)
    (hPass : ∀ s, Cursor.GoesAlong blocks cursor s (body s)) {s : σ}
    (hs : (cursor s).Counted blocks) :
    ∃ r, runLoop body (maxChain + 1) s = some r ∧ r.1 ≤ maxChain + 1 := by
  refine runLoop_of_measure (fun s => (cursor s).Counted blocks)
    (fun s => maxChain - (cursor s).visited) ?_ ?_ hs (by omega)
  · intro s next hInv hBody
    rcases hPass s with ⟨next', hNext, hMore, hFollow⟩ | ⟨r, hOut, -⟩
    · obtain rfl := Sum.inl.inj (hBody.symm.trans hNext)
      exact hInv.follow hMore hFollow
    · rw [hBody] at hOut
      cases hOut
  · intro s r hInv hBody
    have hReads := hInv.reads
    have hVisited := hInv.visited
    rcases hPass s with ⟨next, hNext, -⟩ | ⟨r', hOut, hLe | ⟨hMore, hLe⟩⟩
    · rw [hBody] at hNext
      cases hNext
    · obtain rfl := Sum.inr.inj (hBody.symm.trans hOut)
      omega
    · obtain rfl := Sum.inr.inj (hBody.symm.trans hOut)
      omega

/-- `briefs_xattr_list` gives up after as many blocks as a chain may have. -/
theorem listPass_settles (size : Option Nat) (h : c.Counted blocks) (total : Nat) :
    ∃ r, runLoop (listPass blocks size) (maxChain + 1) ⟨c, total⟩ = some r ∧
      r.1 ≤ maxChain + 1 := by
  refine settles_of_follow Listing.cursor (fun l => ?_) h
  unfold listPass
  by_cases hFull : maxChain < l.cursor.visited + 1
  · rw [if_pos hFull]
    exact Or.inr ⟨_, rfl, Or.inl (Nat.le_refl _)⟩
  rw [if_neg hFull]
  cases hNames : (if l.cursor.bh.cont then Except.ok l.total
      else listEntries size l.cursor.bh.entries l.total) with
  | error err => exact Or.inr ⟨_, rfl, Or.inl (Nat.le_refl _)⟩
  | ok total =>
    dsimp only
    cases hFollow : l.cursor.follow blocks with
    | last => exact Or.inr ⟨_, rfl, Or.inl (Nat.le_refl _)⟩
    | failed => exact Or.inr ⟨_, rfl, Or.inr ⟨by omega, Nat.le_refl _⟩⟩
    | next d => exact Or.inl ⟨_, rfl, by omega, hFollow⟩

/-- `xattr_chain_load` gives up after as many blocks as a chain may have. -/
theorem chainPass_settles (h : c.Counted blocks) :
    ∃ r, runLoop (chainPass blocks) (maxChain + 1) ⟨c, []⟩ = some r ∧ r.1 ≤ maxChain + 1 := by
  refine settles_of_follow Loading.cursor (fun l => ?_) h
  unfold chainPass
  by_cases hFull : maxChain ≤ l.cursor.visited
  · rw [if_pos hFull]
    exact Or.inr ⟨_, rfl, Or.inl (Nat.le_refl _)⟩
  rw [if_neg hFull]
  cases hFollow : l.cursor.follow blocks with
  | last => exact Or.inr ⟨_, rfl, Or.inl (Nat.le_refl _)⟩
  | failed => exact Or.inr ⟨_, rfl, Or.inr ⟨by omega, Nat.le_refl _⟩⟩
  | next d => exact Or.inl ⟨_, rfl, by omega, hFollow⟩

end Counting

--
-- Copying a value
--

section Copying

variable {blocks : Blocks} {first : Nat} {e : Entry} {c : Cursor}

/-- The bytes to come count twice, and the way past the entry block once. -/
def Copy.left (first : Nat) (e : Entry) (p : Copy) : Nat :=
  2 * (e.valueLen - p.value.length) + if p.cursor.block = first ∧ e.valueOffset = 0 then 1 else 0

theorem onward_inl {p next : Copy} (h : p.onward blocks = .inl next) :
    p.cursor.follow blocks = .next next.cursor ∧ next.value = p.value := by
  unfold Copy.onward at h
  cases hFollow : p.cursor.follow blocks with
  | last =>
    rw [hFollow] at h
    cases h
  | failed =>
    rw [hFollow] at h
    cases h
  | next d =>
    rw [hFollow] at h
    obtain rfl := Sum.inl.inj h
    exact ⟨rfl, rfl⟩

theorem onward_inr {p : Copy} {r : Nat × Except Errno (List UInt8)}
    (h : p.onward blocks = .inr r) : r.1 ≤ p.cursor.reads + 1 := by
  unfold Copy.onward at h
  cases hFollow : p.cursor.follow blocks with
  | last =>
    rw [hFollow] at h
    obtain rfl := Sum.inr.inj h
    exact Nat.le_succ _
  | failed =>
    rw [hFollow] at h
    obtain rfl := Sum.inr.inj h
    exact Nat.le_refl _
  | next d =>
    rw [hFollow] at h
    cases h

/-- What a pass of the copy does: it leaves without a read; it goes past the entry block; or it
copies some bytes and goes on. -/
theorem copyPass_cases (blocks : Blocks) (first : Nat) (e : Entry) (p : Copy) :
    (∃ r, copyPass blocks first e p = .inr r ∧ r.1 = p.cursor.reads) ∨
    (p.value.length < e.valueLen ∧ p.cursor.block = first ∧ e.valueOffset = 0 ∧
      copyPass blocks first e p = p.onward blocks) ∨
    ∃ value, p.value.length < value.length ∧ value.length < e.valueLen ∧
      copyPass blocks first e p = ({ p with value := value } : Copy).onward blocks := by
  unfold copyPass
  by_cases hDone : e.valueLen ≤ p.value.length
  · rw [if_pos hDone]
    exact Or.inl ⟨_, rfl, rfl⟩
  rw [if_neg hDone]
  by_cases hSkip : p.cursor.block = first ∧ e.valueOffset = 0
  · rw [if_pos hSkip]
    exact Or.inr (Or.inl ⟨by omega, hSkip.1, hSkip.2, rfl⟩)
  rw [if_neg hSkip]
  cases hPayload : p.cursor.bh.payload (p.cursor.block = first) e.valueOffset with
  | none => exact Or.inl ⟨_, rfl, rfl⟩
  | some pair =>
    have hPos := XBlock.payload_pos hPayload
    dsimp only
    have hLonger : (p.value ++ slice p.cursor.bh.data pair.1
        (min pair.2 (e.valueLen - p.value.length))).length =
        p.value.length + min pair.2 (e.valueLen - p.value.length) := by
      rw [List.length_append, length_slice]
    split_ifs with hAll
    · exact Or.inl ⟨_, rfl, rfl⟩
    · exact Or.inr (Or.inr ⟨_, by omega, by omega, rfl⟩)

/-- A value is copied, or found broken, unless it lies behind a block that links to itself. -/
theorem copyPass_settles (hHolds : c.Holds blocks)
    (hOnward : ∀ x next, blocks first = some (x, next) → e.valueOffset = 0 → next ≠ first) :
    ∃ passes r, runLoop (copyPass blocks first e) passes ⟨c, []⟩ = some r ∧
      r.1 ≤ c.reads + (2 * e.valueLen + 1) := by
  have hStart : c.reads + (⟨c, []⟩ : Copy).left first e ≤ c.reads + (2 * e.valueLen + 1) := by
    unfold Copy.left
    split_ifs
    · exact Nat.le_refl _
    · exact Nat.add_le_add_left (Nat.le_succ _) _
  refine ⟨(⟨c, []⟩ : Copy).left first e + 1, ?_⟩
  refine runLoop_of_measure (fun p : Copy => p.cursor.Holds blocks ∧
      p.cursor.reads + p.left first e ≤ c.reads + (2 * e.valueLen + 1))
    (Copy.left first e) ?_ ?_ ⟨hHolds, hStart⟩ (Nat.lt_succ_self _)
  · rintro p next ⟨hHere, hLeft⟩ hBody
    rcases copyPass_cases blocks first e p with
      ⟨r, hOut, -⟩ | ⟨hMore, hFirst, hOff, hOut⟩ | ⟨value, hLonger, hMore, hOut⟩
    · rw [hOut] at hBody
      cases hBody
    · rw [hOut] at hBody
      obtain ⟨hFollow, hValue⟩ := onward_inl hBody
      obtain ⟨-, hHolds', hBlock, -, hReads⟩ := follow_eq_next hFollow
      have hElse : ¬ (next.cursor.block = first ∧ e.valueOffset = 0) := by
        rintro ⟨hBack, -⟩
        unfold Cursor.Holds at hHere
        rw [hFirst] at hHere
        exact hOnward _ _ hHere hOff (hBlock.symm.trans hBack)
      have hLess : next.left first e < p.left first e := by
        unfold Copy.left
        rw [hValue, if_neg hElse, if_pos ⟨hFirst, hOff⟩]
        omega
      exact ⟨⟨hHolds', by omega⟩, hLess⟩
    · rw [hOut] at hBody
      obtain ⟨hFollow, hValue⟩ := onward_inl hBody
      obtain ⟨-, hHolds', -, -, hReads⟩ := follow_eq_next hFollow
      dsimp only at hReads hValue
      have hLess : next.left first e < p.left first e := by
        unfold Copy.left
        rw [hValue]
        split_ifs <;> omega
      exact ⟨⟨hHolds', by omega⟩, hLess⟩
  · rintro p r ⟨-, hLeft⟩ hBody
    rcases copyPass_cases blocks first e p with
      ⟨r', hOut, hReads⟩ | ⟨hMore, -, -, hOut⟩ | ⟨value, hLonger, hMore, hOut⟩
    · rw [hOut] at hBody
      obtain rfl := Sum.inr.inj hBody
      omega
    · rw [hOut] at hBody
      have hReads := onward_inr hBody
      unfold Copy.left at hLeft
      omega
    · rw [hOut] at hBody
      have hReads := onward_inr hBody
      dsimp only at hReads
      unfold Copy.left at hLeft
      omega

/-- The entry block that links to itself is passed for ever. -/
theorem copyPass_stuck (hHolds : c.Holds blocks) (hFirst : c.block = first)
    (hSelf : c.next = first) (hZero : first ≠ 0) (hOff : e.valueOffset = 0)
    (hSome : 0 < e.valueLen) (passes : Nat) :
    runLoop (copyPass blocks first e) passes ⟨c, []⟩ = none := by
  refine runLoop_eq_none (fun p : Copy => p.value = [] ∧ p.cursor.block = first ∧
    p.cursor.next = first ∧ p.cursor.Holds blocks) ?_ passes ⟨rfl, hFirst, hSelf, hHolds⟩
  rintro p ⟨hEmpty, hBlock, hNext, hHere⟩
  unfold Cursor.Holds at hHere
  rw [hBlock, hNext] at hHere
  refine ⟨⟨⟨first, p.cursor.bh, first, p.cursor.visited + 1, p.cursor.reads + 1⟩, []⟩, ?_,
    rfl, rfl, rfl, hHere⟩
  unfold copyPass
  rw [if_neg (by rw [hEmpty]; exact Nat.not_le.mpr hSome), if_pos ⟨hBlock, hOff⟩]
  unfold Copy.onward Cursor.follow Cursor.read
  rw [hNext, if_neg hZero, hHere, hEmpty]

end Copying

--
-- Reads
--

section Reads

variable {s : Store} {name : List UInt8} {size : Option Nat}

/-- The longest read: all blocks of a chain and one more, and two for each byte of a value. -/
def readBound : Nat := maxChain + 1 + (2 * 65535 + 1)

theorem le_readBound {reads : Nat} (h : reads ≤ maxChain + 1) : reads ≤ readBound :=
  Nat.le_trans h (Nat.le_add_right _ _)

theorem Leads.readable {blocks : Blocks} {n h b : Nat} {e : Entry}
    (hLeads : Leads blocks name n h b e) : ∃ x next, blocks h = some (x, next) := by
  cases hLeads with
  | here hBlock _ _ => exact ⟨_, _, hBlock⟩
  | link hBlock _ _ _ => exact ⟨_, _, hBlock⟩

theorem Leads.ne_zero {blocks : Blocks} {n h b : Nat} {e : Entry}
    (hLeads : Leads blocks name n h b e) : h ≠ 0 → b ≠ 0 := by
  induction hLeads with
  | here _ _ _ => exact id
  | link _ _ hNext _ ih => exact fun _ => ih hNext

/-- The lookup arrives where the chain leads. -/
theorem runLoop_findPass_of_leads {blocks : Blocks} {n h b : Nat} {e : Entry}
    (hLeads : Leads blocks name n h b e) :
    ∀ {c : Cursor}, c.Holds blocks → c.block = h → c.visited + n < maxChain →
      ∃ c', runLoop (findPass blocks name) (n + 1) c = some (c'.reads, .ok (some (c', e))) ∧
        c'.Holds blocks ∧ c'.block = b := by
  induction hLeads with
  | here hBlock hCont hFind =>
    intro c hHolds hAt hShort
    unfold Cursor.Holds at hHolds
    rw [hAt, hBlock] at hHolds
    obtain ⟨hBh, -⟩ := Prod.mk.inj (Option.some.inj hHolds)
    refine ⟨c, runLoop_inr ?_ 0, by rw [Cursor.Holds, hAt, hBlock, hHolds], hAt⟩
    unfold findPass
    rw [if_neg (by omega), ← hBh, hCont, if_neg Bool.false_ne_true, hFind]
  | @link n h next b x e hBlock hNot hSome hRest ih =>
    intro c hHolds hAt hShort
    unfold Cursor.Holds at hHolds
    rw [hAt, hBlock] at hHolds
    obtain ⟨hBh, hNext⟩ := Prod.mk.inj (Option.some.inj hHolds)
    -- The block that the link leads to can be read.
    obtain ⟨y, link, hRead⟩ := hRest.readable
    obtain ⟨c', hRun, hLast⟩ := ih (c := ⟨next, y, link, c.visited + 1, c.reads + 1⟩) hRead rfl
      (by dsimp only; omega)
    refine ⟨c', ?_, hLast⟩
    rw [← hRun]
    refine runLoop_inl ?_ (n + 1)
    have hHere : (if c.bh.cont then none else c.bh.find name) = none := by
      rw [← hBh]
      rcases hNot with hCont | hNone
      · rw [hCont, if_pos rfl]
      · rw [hNone]
        split_ifs
        · rfl
        · rfl
    unfold findPass
    rw [if_neg (by omega), hHere]
    unfold Cursor.follow Cursor.read
    rw [← hNext, if_neg hSome, hRead]

/-- A read of a value behind a block that links to itself does not return. -/
theorem getPasses_stuck (h : BehindItself s name size) (passes : Nat) :
    getPasses s name size passes = none := by
  obtain ⟨hName, hHead, n, b, e, x, room, hShort, hLeads, hSelf, hOff, hSome, rfl, hRoom⟩ := h
  obtain ⟨y, link, hRead⟩ := hLeads.readable
  obtain ⟨c', hRun, hHolds, hBlock⟩ := runLoop_findPass_of_leads hLeads
    (c := ⟨s.head, y, link, 0, 1⟩) hRead rfl (by dsimp only; omega)
  have hNext : c'.next = b := by
    unfold Cursor.Holds at hHolds
    rw [hBlock, hSelf] at hHolds
    exact (Prod.mk.inj (Option.some.inj hHolds)).2.symm
  have hStart : Cursor.read s.blocks s.head 0 0 = some ⟨s.head, y, link, 0, 1⟩ := by
    unfold Cursor.read
    rw [hRead]
  unfold getPasses
  rw [if_neg (Nat.not_lt.mpr hName), if_neg hHead, hStart]
  dsimp only
  cases hFind : runLoop (findPass s.blocks name) passes ⟨s.head, y, link, 0, 1⟩ with
  | none => rfl
  | some r =>
    obtain rfl := runLoop_unique hFind hRun
    dsimp only
    rw [if_neg (Nat.not_lt.mpr hRoom), if_neg hSome.ne', hBlock,
      copyPass_stuck hHolds hBlock hNext (hLeads.ne_zero hHead) hOff hSome]

/-- All other reads return. -/
theorem getPasses_settles (hFields : Fields s.blocks) (h : ¬ BehindItself s name size) :
    Settles (getPasses s name size) readBound := by
  unfold getPasses
  by_cases hName : nameMax < name.length
  · exact ⟨0, 0, .error .erange, if_pos hName, Nat.zero_le _⟩
  by_cases hHead : s.head = 0
  · exact ⟨0, 0, .error .enodata, (if_neg hName).trans (if_pos hHead), Nat.zero_le _⟩
  simp only [if_neg hName, if_neg hHead]
  cases hStart : Cursor.read s.blocks s.head 0 0 with
  | none => exact ⟨0, 1, .error .eio, rfl, by decide⟩
  | some c =>
    dsimp only
    obtain ⟨⟨reads, r⟩, hFind, hReads, hFound⟩ := findPass_settles name hStart
    dsimp only at hReads hFound
    have hShort := le_readBound hReads
    -- Outcomes that need no second loop.
    cases r with
    | error err =>
      refine ⟨maxChain + 1, reads, .error err, ?_, hShort⟩
      dsimp only
      rw [hFind]
    | ok found =>
      cases found with
      | none =>
        refine ⟨maxChain + 1, reads, .error .enodata, ?_, hShort⟩
        dsimp only
        rw [hFind]
      | some pair =>
        obtain ⟨d, e⟩ := pair
        obtain ⟨hHolds, hRead, hMem, n, hn, hLeads⟩ := hFound d e rfl
        cases size with
        | none =>
          refine ⟨maxChain + 1, reads, .ok (e.valueLen, []), ?_, hShort⟩
          dsimp only
          rw [hFind]
        | some room =>
          by_cases hRoom : room < e.valueLen
          · refine ⟨maxChain + 1, reads, .error .erange, ?_, hShort⟩
            dsimp only
            rw [hFind]
            exact if_pos hRoom
          by_cases hEmpty : e.valueLen = 0
          · refine ⟨maxChain + 1, reads, .ok (0, []), ?_, hShort⟩
            dsimp only
            rw [hFind]
            dsimp only
            rw [if_neg hRoom, if_pos hEmpty]
          have hOnward : ∀ x next, s.blocks d.block = some (x, next) → e.valueOffset = 0 →
              next ≠ d.block := by
            rintro x next hBlock hOff rfl
            exact h ⟨Nat.le_of_not_lt hName, hHead, n, _, e, x, room, hn, hLeads, hBlock, hOff,
              by omega, rfl, by omega⟩
          obtain ⟨passes, ⟨reads', out⟩, hCopy, hCopied⟩ := copyPass_settles hHolds hOnward
          have hFind' := runLoop_mono (Nat.le_max_left (maxChain + 1) passes) hFind
          have hCopy' := runLoop_mono (Nat.le_max_right (maxChain + 1) passes) hCopy
          have hField := hFields _ _ _ hHolds e hMem
          have hLong : 2 * e.valueLen + 1 ≤ 2 * 65535 + 1 := by omega
          have hBound : reads' ≤ readBound := hCopied.trans (Nat.add_le_add hRead hLong)
          cases out with
          | error err =>
            refine ⟨max (maxChain + 1) passes, reads', .error err, ?_, hBound⟩
            dsimp only
            rw [hFind']
            dsimp only
            rw [if_neg hRoom, if_neg hEmpty, hCopy']
          | ok value =>
            refine ⟨max (maxChain + 1) passes, reads', .ok (e.valueLen, value), ?_, hBound⟩
            dsimp only
            rw [hFind']
            dsimp only
            rw [if_neg hRoom, if_neg hEmpty, hCopy']

theorem listPasses_settles (size : Option Nat) : Settles (listPasses s size) readBound := by
  unfold listPasses
  by_cases hHead : s.head = 0
  · exact ⟨0, 0, .ok 0, if_pos hHead, Nat.zero_le _⟩
  simp only [if_neg hHead]
  cases hStart : Cursor.read s.blocks s.head 0 0 with
  | none => exact ⟨0, 1, .error .eio, rfl, by decide⟩
  | some c =>
    obtain ⟨⟨reads, r⟩, hRun, hReads⟩ := listPass_settles size (read_counted hStart) 0
    exact ⟨maxChain + 1, reads, r, hRun, le_readBound hReads⟩

theorem loadPasses_settles (s : Store) : Settles (loadPasses s) readBound := by
  unfold loadPasses
  by_cases hHead : s.head = 0
  · exact ⟨0, 0, .ok [], if_pos hHead, Nat.zero_le _⟩
  simp only [if_neg hHead]
  cases hStart : Cursor.read s.blocks s.head 0 0 with
  | none => exact ⟨0, 1, .error .eio, rfl, by decide⟩
  | some c =>
    obtain ⟨⟨reads, r⟩, hRun, hReads⟩ := chainPass_settles (read_counted hStart)
    have hBound := le_readBound hReads
    cases r with
    | error err =>
      refine ⟨maxChain + 1, reads, .error err, ?_, hBound⟩
      dsimp only
      rw [hRun]
    | ok xs =>
      refine ⟨maxChain + 1, reads, loadEntries xs, ?_, hBound⟩
      dsimp only
      rw [hRun]

/-- Reading terminates after a bounded number of blocks on every chain, unless a value is asked
for that lies behind its entry block and that block links to itself. -/
theorem reads_settle_iff (s : Store) (name : List UInt8) (size : Option Nat)
    (hFields : Fields s.blocks) :
    (Settles (getPasses s name size) readBound ∧ Settles (listPasses s size) readBound ∧
      Settles (loadPasses s) readBound) ↔ ¬ BehindItself s name size := by
  constructor
  · rintro ⟨⟨passes, reads, r, hGet, -⟩, -⟩ hStuck
    rw [getPasses_stuck hStuck] at hGet
    exact absurd hGet.symm (Option.some_ne_none _)
  · intro h
    exact ⟨getPasses_settles hFields h, listPasses_settles size, loadPasses_settles s⟩

/-- Block 5 holds the entry `a` with a value of one byte, at `valueOffset`, and links to `next`. -/
def oneBlock (valueOffset next : Nat) : Store where
  blocks    := fun b => if b = 5 then
    some (⟨false, 48, [⟨1, 1, 40, valueOffset⟩], fun _ => 97⟩, next) else none
  alloc     := Alloc.samplePool.recomputeSummaries
  dataStart := 0
  head      := 5

theorem oneBlock_fields (valueOffset next : Nat) : Fields (oneBlock valueOffset next).blocks := by
  intro b x link hBlock e he
  by_cases hb : b = 5
  · have hHere : some ((⟨false, 48, [⟨1, 1, 40, valueOffset⟩], fun _ => 97⟩ : XBlock), next) =
        some (x, link) := (if_pos hb).symm.trans hBlock
    obtain ⟨rfl, rfl⟩ := Prod.mk.inj (Option.some.inj hHere)
    rw [List.mem_singleton.mp he]
    show 1 < 65536
    decide
  · have hNone : none = some (x, link) := (if_neg hb).symm.trans hBlock
    exact absurd hNone.symm (Option.some_ne_none _)

/-- A value that starts in its own block. -/
theorem reads_settle_inline : Settles (getPasses (oneBlock 44 5) [97] (some 1)) readBound := by
  refine ((reads_settle_iff (oneBlock 44 5) [97] (some 1) (oneBlock_fields 44 5)).mpr ?_).1
  rintro ⟨-, -, n, b, e, x, room, -, hLeads, -, hOff, -⟩
  -- Every block is the same one, and its entry has the offset 44.
  have hEntry : e.valueOffset = 44 := by
    generalize (oneBlock 44 5).head = head at hLeads
    induction hLeads with
    | @here h next x e hBlock _ hFind =>
      have hMem := mem_of_find hFind
      by_cases hb : h = 5
      · have hHere : some ((⟨false, 48, [⟨1, 1, 40, 44⟩], fun _ => 97⟩ : XBlock), 5) =
            some (x, next) := (if_pos hb).symm.trans hBlock
        obtain ⟨rfl, rfl⟩ := Prod.mk.inj (Option.some.inj hHere)
        rw [List.mem_singleton.mp hMem]
      · have hNone : none = some (x, next) := (if_neg hb).symm.trans hBlock
        exact absurd hNone.symm (Option.some_ne_none _)
    | link _ _ _ _ ih => exact ih hOff
  rw [hEntry] at hOff
  exact absurd hOff (by decide)

/-- A value that is said to lie behind the block, which links to itself. -/
theorem reads_never_settle :
    ¬ (Settles (getPasses (oneBlock 0 5) [97] (some 1)) readBound ∧
      Settles (listPasses (oneBlock 0 5) (some 1)) readBound ∧
      Settles (loadPasses (oneBlock 0 5)) readBound) := by
  rintro ⟨⟨passes, reads, r, hGet, -⟩, -⟩
  have hStuck : BehindItself (oneBlock 0 5) [97] (some 1) := by
    refine ⟨by decide, by decide, 0, 5, ⟨1, 1, 40, 0⟩, ⟨false, 48, [⟨1, 1, 40, 0⟩], fun _ => 97⟩, 1,
      by decide, ?_, rfl, rfl, by decide, rfl, Nat.le_refl _⟩
    exact .here rfl rfl rfl
  rw [getPasses_stuck hStuck] at hGet
  exact absurd hGet.symm (Option.some_ne_none _)

end Reads

end Briefs.Xattr
