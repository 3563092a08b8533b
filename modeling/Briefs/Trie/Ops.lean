import Briefs.Trie.Page

/-!
# BrieFS — directory trie operations

Lookup, insertion, removal and update of one name (`trie.c`), on the pages of `Trie.Page`.
The root of the trie is `dir_trie_root` of the directory's inode, 0 for none. A removal
collects the nodes that are no longer used; they are freed after the directory's lock is
released. Memory allocation for the ancestry and the list of nodes does not fail.
-/

namespace Briefs.Trie

open TrieM

--
-- Children
--

/-- `BRIEFS_TRIE_SIBLING_MAX`. -/
def siblingMax : Nat := 1024

/-- `trie_find_child_in_chain`: the child with the byte, and the sibling before it. -/
def findInChain (b : UInt8) : Nat → Nat → Nat → TrieM (Nat × Nat)
  | fuel, prev, child =>
    if child = 0 then fail .enoent
    else match fuel with
      | 0 => fail .eio
      | fuel + 1 => do
        let got ← attempt (readSlot child)
        match got with
        | .error _ => fail .enoent
        | .ok n =>
          if n.byteVal = b then ret (child, prev)
          else findInChain b fuel child n.nextSibling

/-- `trie_find_child_with_prev`. -/
def findChildWithPrev (parent : Nat) (b : UInt8) : TrieM (Nat × Nat) := do
  let n ← readSlot parent
  findInChain b siblingMax 0 n.firstChild

/-- `briefs_trie_find_child`: 0 if there is none. -/
def findChild (parent : Nat) (b : UInt8) : TrieM Nat := do
  let got ← attempt (findChildWithPrev parent b)
  match got with
  | .ok (child, _) => ret child
  | .error _ => ret 0

/-- The walk of `trie_link_child` to the last sibling. -/
def lastSibling : Nat → Nat → TrieM Nat
  | fuel, last => do
    let n ← readSlot last
    if n.nextSibling = 0 then ret last
    else match fuel with
      | 0 => fail .eio
      | fuel + 1 => lastSibling fuel n.nextSibling

/-- `trie_link_child`. -/
def linkChild (parent child : Nat) : TrieM Unit := do
  let p ← readSlot parent
  if p.firstChild = 0 then do
    setSlot parent fun n => { n with firstChild := child }
    setSlot parent fun n => { n with childCount := (n.childCount + 1) % 2 ^ 16 }
  else do
    let last ← lastSibling siblingMax p.firstChild
    setSlot last fun n => { n with nextSibling := child }
    setSlot parent fun n => { n with childCount := (n.childCount + 1) % 2 ^ 16 }

/-- `briefs_trie_create_child`: `none` on failure. -/
def createChild (parent depth : Nat) (b : UInt8) (interm : Bool) (nameLen hint : Nat) :
    TrieM (Option Nat) := do
  let got ← allocNode nameLen hint
  match got with
  | none => ret none
  | some child => do
    setSlot child fun n =>
      { n with depth := depth % 256, byteVal := b, interm := interm, statusLeaf := false }
    let linked ← attempt (linkChild parent child)
    match linked with
    | .ok _ => ret (some child)
    | .error _ => do
      freeNode child
      ret none

/-- `briefs_trie_find_or_create_child`. -/
def findOrCreateChild (parent depth : Nat) (b : UInt8) (hint : Nat) : TrieM (Option Nat) := do
  let child ← findChild parent b
  if child ≠ 0 then ret (some child) else createChild parent depth b true 0 hint

/-- `trie_unlink_child`; it returns nothing, so errors are lost. -/
def unlinkChild (parent prev child : Nat) : TrieM Unit := do
  let got ← attempt do
    let _ ← readSlot parent
    readSlot child
  match got with
  | .error _ => ret ()
  | .ok c => do
    if prev = 0 then setSlot parent fun n => { n with firstChild := c.nextSibling }
    else do
      let seen ← attempt (readSlot prev)
      match seen with
      | .ok _ => setSlot prev fun n => { n with nextSibling := c.nextSibling }
      | .error _ => ret ()
    setSlot parent fun n => { n with childCount := (n.childCount + 2 ^ 16 - 1) % 2 ^ 16 }

/-- The walk that finds the link to `child` in a chain and points it to `target`. -/
def relink (child target : Nat) : Nat → Nat → TrieM Unit
  | fuel, w =>
    if w = 0 then ret ()
    else match fuel with
      | 0 => ret ()
      | fuel + 1 => do
        let got ← attempt (readSlot w)
        match got with
        | .error _ => ret ()
        | .ok n =>
          if n.nextSibling = child then setSlot w fun n => { n with nextSibling := target }
          else relink child target fuel n.nextSibling

--
-- Lookup
--

/-- The loop of `briefs_trie_lookup`. -/
def lookupLoop (name : List UInt8) : List UInt8 → Nat → TrieM (Nat × Nat)
  | [], _ => fail .enoent
  | b :: rest, cur => do
    let (child, _) ← findChildWithPrev cur b
    let n ← readSlot child
    let same ← nameIs child name
    if rest = [] then
      if n.isLeaf && same then ret (n.inode, n.ftype) else fail .enoent
    else if n.interm then lookupLoop name rest child
    else if same then ret (n.inode, n.ftype) else fail .enoent

/-- `briefs_trie_lookup`: the inode number and the type. -/
def trieLookup (root : Nat) (name : List UInt8) : TrieM (Nat × Nat) :=
  if root = 0 then fail .enoent else lookupLoop name name root

--
-- Insertion
--

/-- What an insertion stores, with the tag of the directory's pages. -/
structure NewEntry where
  name : List UInt8
  ino  : Nat
  type : Nat
  hint : Nat

/-- `trie_split_leaf`: the node to go on from. -/
def splitLeaf (e : NewEntry) (cur child pos : Nat) (b : UInt8) : TrieM Nat := do
  let leaf ← readSlot child
  if leaf.nameLen = pos + 1 + 2 then do
    setSlot child fun n => { n with interm := true, statusLeaf := true }
    setSlot child fun n => { n with depth := (pos + 1) % 256 }
    ret child
  else do
    let got ← createChild cur (pos + 1) b true 0 e.hint
    match got with
    | none => fail .enospc
    | some internal => do
      let g ← readSlot cur
      if g.firstChild = child then setSlot cur fun n => { n with firstChild := internal }
      else relink child internal siblingMax g.firstChild
      setSlot internal fun n => { n with firstChild := child }
      setSlot internal fun n => { n with nextSibling := leaf.nextSibling }
      setSlot internal fun n => { n with childCount := 1 }
      if pos + 1 = e.name.length then do
        storeName internal e.name
        setSlot internal fun n => { n with statusLeaf := true }
        setSlot internal fun n => { n with ftype := e.type, inode := e.ino }
      else ret ()
      ret internal

/-- The last byte of the name where no child has it: a new leaf. -/
def newLeaf (e : NewEntry) (cur pos : Nat) (b : UInt8) : TrieM Unit := do
  let got ← createChild cur pos b false e.name.length e.hint
  match got with
  | none => fail .enospc
  | some leaf => do
    let stored ← attempt (storeName leaf e.name)
    match stored with
    | .error err => do
      freeNode leaf
      fail err
    | .ok _ => do
      setSlot leaf fun n => { n with interm := false, statusLeaf := false }
      setSlot leaf fun n => { n with ftype := e.type, inode := e.ino }

/-- The last byte of the name where an intermediate node has it. -/
def nameInterm (e : NewEntry) (ref : Nat) : TrieM Unit := do
  storeName ref e.name
  setSlot ref fun n => { n with statusLeaf := true }
  setSlot ref fun n => { n with ftype := e.type, inode := e.ino }

/-- The loop of `briefs_trie_insert`. -/
def insertLoop (e : NewEntry) : List UInt8 → Nat → Nat → TrieM Unit
  | [], _, _ => fail .einval
  | b :: rest, pos, cur =>
    if rest = [] then do
      let existing ← findChild cur b
      if existing ≠ 0 then do
        let n ← readSlot existing
        let same ← nameIs existing e.name
        if n.interm then
          if n.statusLeaf && same then fail .eexist else nameInterm e existing
        else if same then fail .eexist
        else do
          let next ← splitLeaf e cur existing pos b
          insertLoop e rest (pos + 1) next
      else newLeaf e cur pos b
    else do
      let got ← findOrCreateChild cur (pos + 1) b e.hint
      match got with
      | none => fail .enospc
      | some child => do
        let n ← readSlot child
        if n.interm then insertLoop e rest (pos + 1) child
        else do
          let next ← splitLeaf e cur child pos b
          insertLoop e rest (pos + 1) next

/-- `briefs_trie_create_root` outside of replay: the new root. -/
def createRoot : TrieM Nat := do
  let root ← pageInit 0 0 true
  addPartial (refBlock root) (refBlock root)
  ret root

/-- `briefs_trie_insert`: the root of the directory after it, whether it fails or not. -/
def trieInsert (root : Nat) (name : List UInt8) (ino type : Nat) : TrieM (Nat × Except Errno Unit) := do
  let got ← attempt (if root = 0 then createRoot else ret root)
  match got with
  | .error e => ret (root, .error e)
  | .ok root => do
    let done ← attempt do
      if nameLen < name.length then fail .enametoolong
      else insertLoop ⟨name, ino, type, refBlock root⟩ name 0 root
    ret (root, done)

--
-- Update
--

/-- The loop of `briefs_trie_update_entry`. -/
def updateLoop (name : List UInt8) (ino type : Nat) : List UInt8 → Nat → TrieM Unit
  | [], _ => fail .enoent
  | b :: rest, cur => do
    let child ← findChild cur b
    if child = 0 then fail .enoent
    else do
      let n ← readSlot child
      if rest = [] then do
        let same ← nameIs child name
        if n.isLeaf && same then do
          setSlot child fun n => { n with inode := ino }
          setSlot child fun n => { n with ftype := type }
        else fail .enoent
      else if n.interm then updateLoop name ino type rest child
      else fail .enoent

/-- `briefs_trie_update_entry`. -/
def trieUpdateEntry (root : Nat) (name : List UInt8) (ino type : Nat) : TrieM Unit :=
  if root = 0 then fail .enoent else updateLoop name ino type name root

--
-- Removal
--

/-- The descent of `briefs_trie_remove`: the nodes from the parent of the leaf up to the
root, and the list of nodes to free, once the leaf is unlinked; `none` if nothing is left
to collapse. -/
def removeLoop (above : List Nat) : List UInt8 → Nat → TrieM (Option (List Nat × List Nat))
  | [], _ => fail .enoent
  | b :: rest, cur => do
    let (child, prev) ← findChildWithPrev cur b
    if rest = [] then do
      let n ← readSlot child
      if n.interm && !n.statusLeaf then fail .enoent
      else do
        if n.interm then setSlot child fun n => { n with statusLeaf := false } else ret ()
        if n.interm && (n.firstChild != 0 || n.childCount != 0) then ret none
        else do
          unlinkChild cur prev child
          ret (some (cur :: above, [child]))
    else removeLoop (cur :: above) rest child

/-- A node without entry and children. -/
def Slot.isBare (n : Slot) : Bool :=
  n.interm && !n.statusLeaf && n.childCount == 0 && n.firstChild == 0

/-- The collapse loop: empty intermediate nodes are taken out, from the leaf upward. -/
def collapse : List Nat → List Nat → TrieM (List Nat)
  | check :: parent :: above, freed => do
    let got ← attempt (readSlot check)
    match got with
    | .error _ => ret freed
    | .ok n =>
      if n.isBare then do
        let seen ← attempt (readSlot parent)
        match seen with
        | .error _ => ret freed
        | .ok p => do
          if p.firstChild = check then setSlot parent fun q => { q with firstChild := n.nextSibling }
          else relink check n.nextSibling siblingMax p.firstChild
          setSlot parent fun q => { q with childCount := (q.childCount + 2 ^ 16 - 1) % 2 ^ 16 }
          collapse (parent :: above) (freed ++ [check])
      else ret freed
  | _, freed => ret freed

/-- `briefs_trie_remove`: the root after it, and the nodes to free. -/
def trieRemove (root : Nat) (name : List UInt8) : TrieM (Nat × List Nat) := do
  if root = 0 then fail .enoent
  else do
    let path ← removeLoop [] name root
    match path with
    | none => ret (root, [])
    | some (above, freed) => do
      let freed ← collapse above freed
      let got ← attempt (readSlot root)
      match got with
      | .ok n => if n.isBare then ret (0, freed ++ [root]) else ret (root, freed)
      | .error _ => ret (root, freed)

/-- `trie_free_list_destroy`. -/
def freeList : List Nat → TrieM Unit
  | [] => ret ()
  | ref :: rest => do
    freeNode ref
    freeList rest

end Briefs.Trie
