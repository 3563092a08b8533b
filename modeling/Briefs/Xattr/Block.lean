import Briefs.Alloc
import Briefs.Journal.Write

/-!
# BrieFS — extended attributes

The xattr chain of one inode (`xattr.c`). An entry block has a header, the entry records,
and then the names and values; what does not fit of the last value goes to continuation
blocks, which follow the entry block in the chain. Every change loads all entries, packs
them anew and writes a new chain before the old one is freed.

The fields of a record are 16 bits wide. Blocks of the first version, which are only read,
are left out, and so are failed reads of written blocks and the journal.
-/

namespace Briefs.Xattr

open Briefs.Journal

--
-- Blocks
--

/-- The error numbers of the xattr functions, negated in the source. -/
inductive Errno where
  | eio
  | e2big
  | erange
  | eexist
  | enodata
  | enospc
deriving DecidableEq, Repr

/-- `sizeof(struct briefs_xattr_header)`. -/
def hdrSize : Nat := 32

/-- `sizeof(struct briefs_xattr_entry)`. -/
def entrySize : Nat := 8

/-- The payload of a block: `BRIEFS_XATTR_MAX_USED` less the header. -/
def maxPayload : Nat := xattrMaxUsed - hdrSize

/-- `BRIEFS_XATTR_MAX_CHAIN`. -/
def maxChain : Nat := 1024

/-- `XATTR_BLOCK_MAX_ENTRIES`. -/
def maxEntries : Nat := 501

/-- `XATTR_NAME_MAX`. -/
def nameMax : Nat := 255

/-- `XATTR_SIZE_MAX`. -/
def sizeMax : Nat := 65536

/-- `ALIGN(n, 4)`. -/
def align4 (n : Nat) : Nat := (n + 3) / 4 * 4

/-- `cpu_to_le16`: what is left of a number in a field of 16 bits. -/
def le16 (n : Nat) : Nat := n % 65536

/-- `struct briefs_xattr_entry`. -/
structure Entry where
  nameLen     : Nat
  valueLen    : Nat
  nameOffset  : Nat
  valueOffset : Nat
deriving DecidableEq, Repr

/-- A block of a chain without its link: the header, the records and the bytes. -/
structure XBlock where
  cont     : Bool
  usedSize : Nat
  entries  : List Entry
  data     : Block

/-- `struct xattr_kv`. -/
structure KV where
  name  : List UInt8
  value : List UInt8
deriving DecidableEq, Repr

--
-- Packing
--

/-- The descriptor of an entry block with those of the continuation blocks after it: the
entries with the number of value bytes that are inline, and the fragments of values. -/
structure Group where
  entries     : List (KV × Nat)
  payloadUsed : Nat
  conts       : List (List UInt8)

def Group.empty : Group := ⟨[], 0, []⟩

/-- `need_entry`. -/
def KV.need (kv : KV) : Nat := entrySize + align4 kv.name.length

/-- The value from `off` on, cut into the continuation blocks; `fuel` is at least the
number of bytes. -/
def frags (value : List UInt8) : Nat → Nat → List (List UInt8)
  | 0, _ => []
  | fuel + 1, off =>
    if value.length ≤ off then []
    else ((value.drop off).take maxPayload) :: frags value fuel (off + maxPayload)

/-- How many bytes of the value go into the entry block. -/
def Group.inlineLen (g : Group) (kv : KV) : Nat :=
  let remaining := maxPayload - g.payloadUsed - kv.need
  if kv.value.length = 0 ∨ remaining < 4 then 0
  else if align4 kv.value.length ≤ remaining then kv.value.length
  else min kv.value.length (remaining / 4 * 4)

/-- The entry goes into the block, and what is left of its value into new blocks. -/
def Group.place (g : Group) (kv : KV) : Group :=
  let inl := g.inlineLen kv
  { entries     := g.entries ++ [(kv, inl)]
    payloadUsed := g.payloadUsed + (kv.need + align4 inl)
    conts       := g.conts ++ frags kv.value kv.value.length inl }

/-- The entry does not fit in the block any more. -/
def Group.isFull (g : Group) (kv : KV) : Bool :=
  decide (maxPayload - g.payloadUsed < kv.need) || decide (maxEntries ≤ g.entries.length)

/-- The loop of `xattr_build_chain`; a full block is closed and a new one started. -/
def pack (g : Group) : List KV → List Group
  | [] => [g]
  | kv :: kvs =>
    if g.isFull kv then g :: pack (Group.empty.place kv) kvs else pack (g.place kv) kvs

/-- `xattr_build_chain` up to the test of the length. -/
def buildChain : List KV → List Group
  | [] => []
  | kv :: kvs => pack Group.empty (kv :: kvs)

--
-- Writing a block
--

/-- The loop over the entries of a block: the records, the end, and the bytes. -/
def layEntries : List (KV × Nat) → Nat → Block → List Entry × Nat × Block
  | [], off, data => ([], off, data)
  | (kv, inl) :: rest, off, data =>
    let valueOff := off + align4 kv.name.length
    let named := data.store off kv.name
    if inl = 0 then
      let r := layEntries rest valueOff named
      (⟨le16 kv.name.length, le16 kv.value.length, le16 off, 0⟩ :: r.1, r.2)
    else
      let r := layEntries rest (valueOff + align4 inl) (named.store valueOff (kv.value.take inl))
      (⟨le16 kv.name.length, le16 kv.value.length, le16 off, le16 valueOff⟩ :: r.1, r.2)

def Group.entryBlock (g : Group) : XBlock :=
  let r := layEntries g.entries (hdrSize + g.entries.length * entrySize) fun _ => 0
  { cont := false, usedSize := r.2.1, entries := r.1, data := r.2.2 }

def contBlock (frag : List UInt8) : XBlock :=
  { cont := true, usedSize := hdrSize + frag.length, entries := [],
    data := Block.store (fun _ => 0) hdrSize frag }

/-- The blocks of a group in the order of the chain. -/
def Group.blocks (g : Group) : List XBlock := g.entryBlock :: g.conts.map contBlock

/-- The blocks of the chain that `briefs_xattr_set` writes. -/
def chainBlocks (kvs : List KV) : List XBlock := (buildChain kvs).flatMap Group.blocks

--
-- The inode
--

/-- The blocks with their `next_block`, the allocator, and `xattr_offset` of the inode. -/
structure Store where
  blocks    : Nat → Option (XBlock × Nat)
  alloc     : Alloc
  dataStart : Nat
  head      : Nat

/-- `xattr_chain_load`. -/
def loadChain (blocks : Nat → Option (XBlock × Nat)) : Nat → Nat → Except Errno (List XBlock)
  | 0, _ => .error .eio
  | fuel + 1, b =>
    match blocks b with
    | none => .error .eio
    | some (x, next) =>
      if next = 0 then .ok [x]
      else match loadChain blocks fuel next with
        | .error e => .error e
        | .ok xs => .ok (x :: xs)

/-- The bytes that the block has for the value, or `none` if it can have none: `first` is
the entry block, where the value starts at `fragOff`. -/
def XBlock.payload (x : XBlock) (first : Bool) (fragOff : Nat) : Option (Nat × Nat) :=
  let start := if first then some fragOff else if x.cont then some hdrSize else none
  match start with
  | none => none
  | some start => if x.usedSize ≤ start then none else some (start, x.usedSize - start)

/-- `xattr_chain_load_value` on the chain from the entry block on, with `need` bytes to
come. A value that starts at 0 is in the continuation blocks only. -/
def gather (fragOff : Nat) : Bool → List XBlock → Nat → Except Errno (List UInt8)
  | _, [], need => if need = 0 then .ok [] else .error .eio
  | first, x :: rest, need =>
    if need = 0 then .ok []
    else if first = true ∧ fragOff = 0 then gather fragOff false rest need
    else match x.payload first fragOff with
      | none => .error .eio
      | some (start, avail) =>
        match gather fragOff false rest (need - min avail need) with
        | .error e => .error e
        | .ok bytes => .ok (slice x.data start (min avail need) ++ bytes)

/-- One entry of a block; `xs` is the chain from the block on. -/
def loadEntry (x : XBlock) (xs : List XBlock) (e : Entry) : Except Errno KV :=
  match gather e.valueOffset true xs e.valueLen with
  | .error err => .error err
  | .ok value => .ok ⟨slice x.data e.nameOffset e.nameLen, value⟩

/-- The loop over the entries of a block. -/
def loadBlock (x : XBlock) (xs : List XBlock) : List Entry → Except Errno (List KV)
  | [] => .ok []
  | e :: es =>
    match loadEntry x xs e with
    | .error err => .error err
    | .ok kv =>
      match loadBlock x xs es with
      | .error err => .error err
      | .ok kvs => .ok (kv :: kvs)

/-- The loop of `briefs_xattr_load_entries` over the blocks of the chain. -/
def loadEntries : List XBlock → Except Errno (List KV)
  | [] => .ok []
  | x :: xs =>
    if x.cont then loadEntries xs
    else
      match loadBlock x (x :: xs) x.entries with
      | .error err => .error err
      | .ok kvs =>
        match loadEntries xs with
        | .error err => .error err
        | .ok rest => .ok (kvs ++ rest)

/-- `briefs_xattr_load_entries`; `-ENODATA` becomes an empty list in the caller. -/
def Store.load (s : Store) : Except Errno (List KV) :=
  if s.head = 0 then .ok []
  else match loadChain s.blocks maxChain s.head with
    | .error e => .error e
    | .ok xs => loadEntries xs

--
-- Get and list
--

/-- `briefs_xattr_find_in_block`. -/
def XBlock.find (x : XBlock) (name : List UInt8) : Option Entry :=
  x.entries.find? fun e =>
    e.nameLen == name.length && slice x.data e.nameOffset name.length == name

/-- `briefs_xattr_find`: the entry and the number of its block. -/
def findEntry (blocks : Nat → Option (XBlock × Nat)) (name : List UInt8) :
    Nat → Nat → Except Errno (Option (Nat × Entry))
  | 0, _ => .error .eio
  | fuel + 1, b =>
    match blocks b with
    | none => .error .eio
    | some (x, next) =>
      match if x.cont then none else x.find name with
      | some e => .ok (some (b, e))
      | none => if next = 0 then .ok none else findEntry blocks name fuel next

/-- `xattr_copy_value`: like `gather`, along the links. -/
def copyValue (blocks : Nat → Option (XBlock × Nat)) (fragOff : Nat) :
    Nat → Bool → Nat → Nat → Except Errno (List UInt8)
  | 0, _, _, _ => .error .eio
  | fuel + 1, first, b, need =>
    if need = 0 then .ok []
    else match blocks b with
      | none => .error .eio
      | some (x, next) =>
        if first = true ∧ fragOff = 0 then
          if next = 0 then .error .eio else copyValue blocks fragOff fuel false next need
        else match x.payload first fragOff with
          | none => .error .eio
          | some (start, avail) =>
            if need ≤ avail then .ok (slice x.data start need)
            else if next = 0 then .error .eio
            else match copyValue blocks fragOff fuel false next (need - avail) with
              | .error e => .error e
              | .ok bytes => .ok (slice x.data start avail ++ bytes)

/-- `briefs_xattr_get`: the length that is returned and the bytes that are stored; `size`
is the size of the buffer, if there is one. The value loop reads at most one block for
each byte and one more. -/
def Store.get (s : Store) (name : List UInt8) (size : Option Nat) :
    Except Errno (Nat × List UInt8) :=
  if nameMax < name.length then .error .erange
  else if s.head = 0 then .error .enodata
  else match findEntry s.blocks name maxChain s.head with
    | .error e => .error e
    | .ok none => .error .enodata
    | .ok (some (b, e)) =>
      match size with
      | none => .ok (e.valueLen, [])
      | some size =>
        if size < e.valueLen then .error .erange
        else match copyValue s.blocks e.valueOffset (e.valueLen + 2) true b e.valueLen with
          | .error err => .error err
          | .ok bytes => .ok (e.valueLen, bytes)

/-- The names of a block, as they are listed. -/
def XBlock.names (x : XBlock) : List (List UInt8) :=
  if x.cont then [] else x.entries.map fun e => slice x.data e.nameOffset e.nameLen

/-- The names along the chain. -/
def namesFrom (blocks : Nat → Option (XBlock × Nat)) : Nat → Nat → Except Errno (List (List UInt8))
  | 0, _ => .error .eio
  | fuel + 1, b =>
    match blocks b with
    | none => .error .eio
    | some (x, next) =>
      if next = 0 then .ok x.names
      else match namesFrom blocks fuel next with
        | .error e => .error e
        | .ok names => .ok (x.names ++ names)

/-- `briefs_xattr_list` with a buffer that is large enough. -/
def Store.list (s : Store) : Except Errno (List (List UInt8)) :=
  if s.head = 0 then .ok [] else namesFrom s.blocks maxChain s.head

--
-- Set
--

/-- `XATTR_CREATE`, `XATTR_REPLACE` or neither. -/
inductive Flag where
  | any
  | create
  | replace
deriving DecidableEq, Repr

/-- The entry of the name is dropped; the last one takes its place. -/
def dropEntry (kvs : List KV) (i : Nat) : List KV :=
  match kvs.getLast? with
  | none => []
  | some last => (kvs.set i last).dropLast

/-- What `briefs_xattr_set` makes of the entries; `none` is a removal. -/
def change (kvs : List KV) (name : List UInt8) (value : Option (List UInt8)) (flag : Flag) :
    Except Errno (List KV) :=
  match kvs.findIdx? fun kv => kv.name == name, value with
  | none, none => .error .enodata
  | some i, none => .ok (dropEntry kvs i)
  | some i, some v => if flag = .create then .error .eexist else .ok (kvs.set i ⟨name, v⟩)
  | none, some v => if flag = .replace then .error .enodata else .ok (kvs ++ [⟨name, v⟩])

/-- A block is allocated for every block of the chain. -/
def allocChain (a : Alloc) : Nat → List Nat × Alloc
  | 0 => ([], a)
  | n + 1 =>
    match a.allocBlock with
    | (rel, a) =>
      if rel = 0 then ([], a)
      else match allocChain a n with
        | (rels, a) => (rel :: rels, a)

/-- The blocks are written at their places, each with the number of the next one. -/
def writeChain (blocks : Nat → Option (XBlock × Nat)) :
    List (Nat × XBlock) → Nat → Option (XBlock × Nat)
  | [] => blocks
  | (b, x) :: rest =>
    Function.update (writeChain blocks rest) b (some (x, (rest.map Prod.fst).headD 0))

/-- `briefs_xattr_free_chain_locked`. -/
def freeChain (blocks : Nat → Option (XBlock × Nat)) (dataStart : Nat) : Nat → Nat → Alloc → Alloc
  | 0, _, a => a
  | fuel + 1, b, a =>
    if b = 0 then a
    else match blocks b with
      | none => a
      | some (_, next) => freeChain blocks dataStart fuel next (a.freeBlock (b - dataStart))

/-- The new chain is written and published, and the old one freed. Blocks that were
allocated before the device ran out are given back. -/
def Store.rewrite (s : Store) (kvs : List KV) : Option Errno × Store :=
  let xs := chainBlocks kvs
  if maxChain < xs.length then (some .enospc, s)
  else
    match allocChain s.alloc xs.length with
    | (rels, a) =>
      if rels.length < xs.length then
        (some .enospc, { s with alloc := rels.foldl Alloc.freeBlock a })
      else
        let abs := rels.map fun rel => s.dataStart + rel
        let blocks := writeChain s.blocks (abs.zip xs)
        (none, { s with
          blocks := blocks
          head   := abs.headD 0
          alloc  := freeChain blocks s.dataStart maxChain s.head a })

/-- `briefs_xattr_set`. -/
def Store.set (s : Store) (name : List UInt8) (value : Option (List UInt8)) (flag : Flag) :
    Option Errno × Store :=
  if nameMax < name.length then (some .erange, s)
  else if sizeMax < (value.getD []).length then (some .e2big, s)
  else
    match s.load with
    | .error e => (some e, s)
    | .ok kvs =>
      match change kvs name value flag with
      | .error e => (some e, s)
      | .ok [] => (none, { s with
          head := 0, alloc := freeChain s.blocks s.dataStart maxChain s.head s.alloc })
      | .ok kvs => s.rewrite kvs

end Briefs.Xattr
