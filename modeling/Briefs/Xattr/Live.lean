import Briefs.Xattr.Image

/-!
# BrieFS — xattr chains and the journal they leave

The chains of all inodes while the file system runs: `briefs_xattr_set` takes blocks, writes
them through, logs their content block by block, publishes the new head with a snapshot of
the inode and frees the old chain. Everything else that touches the same blocks and the same
queue runs in between: other users take and free blocks, other paths queue snapshots of the
inode, the journal drains its queue or one inode flushes its own snapshot, and a checkpoint
retires records.

A snapshot is copied, queued in the slot of the inode, taken out of the queue and then
written, each in a step of its own. `write_inode` makes its copy without `xattr_sem`, and
both drains write after `pending_snap_lock` is dropped. The copy of a published head is made
and queued under `xattr_sem`, in one step here.

## Results

* `Good.step` — a step under `Event.Calm` keeps `Good`: every chain lies on the device as it
  was logged, the window has its records or none of them for each block, and the snapshot
  that counts carries the head.
-/

namespace Briefs.Xattr

open Briefs.Journal Briefs.Replay

--
-- State
--

/-- Who has a block. The bitmap knows only whether it is `free`. -/
inductive Owner where
  | free
  | other
  | chain (ino : Nat)
  | build (ino : Nat)
  | old (ino : Nat)
deriving DecidableEq, Repr

/-- A chain that `briefs_xattr_set` has written and not yet published, as the records it logs,
and how many of them are logged. -/
structure Build where
  recs   : List XattrData
  logged : Nat

/-- A snapshot of an inode. -/
abbrev Snapshot := Nat × DiskInode

/-- `chains` is the chain of each inode, as the records of its blocks, `old` the blocks of the
chain before it that are still to be freed; both change under `xattr_sem`. `pending` is
`pending_snapshots`, `flight` what was taken out of it and is not written, `copies` what is
copied and not yet queued. `ring` is the journal from `journal_log_start` on. -/
structure Live where
  chains  : Nat → List XattrData
  builds  : Nat → Option Build
  old     : Nat → List Nat
  owner   : Nat → Owner
  disk    : Nat → Block
  copies  : List Snapshot
  pending : List Snapshot
  flight  : List Snapshot
  ring    : List JRec

/-- `xattr_offset` of an inode with the chain. -/
def headOf : List XattrData → Nat
  | [] => 0
  | r :: _ => r.physBlock

/-- The records of a chain in the blocks; each block links to the next. -/
def chainRecords (ino : Nat) : List Nat → List XBlock → List XattrData
  | b :: blocks, x :: xs => xattrRecord ino b x (blocks.headD 0) :: chainRecords ino blocks xs
  | _, _ => []

/-- The blocks of a chain are written through. -/
def writeThrough (disk : Nat → Block) : List Nat → List XBlock → Nat → Block
  | b :: blocks, x :: xs =>
    writeThrough (Function.update disk b (x.serialize (blocks.headD 0))) blocks xs
  | _, _ => disk

/-- A change of owner. -/
def give (owner : Nat → Owner) (blocks : List Nat) (o : Owner) : Nat → Owner :=
  fun b => if b ∈ blocks then o else owner b

/-- `briefs_journal_inode_full`: an inode that is queued keeps its place, and its slot is
overwritten. -/
def enqueue (pending : List Snapshot) (snap : Snapshot) : List Snapshot :=
  if pending.any fun p => p.1 == snap.1 then
    pending.map fun p => if p.1 = snap.1 then snap else p
  else pending ++ [snap]

/-- The records of the other operations at hand: block reuse, frees of inodes and blocks. -/
def isPlain : JRec → Bool
  | .extentAlloc .. | .extentFree .. | .inodeUpdate .. | .inodeAlloc .. | .inodeFree .. => true
  | .trieAlloc .. => true
  | .dirUpdate .. | .symlinkData .. | .inodeFull .. | .xattrData .. => false

--
-- Steps
--

/-- `start` to `publish` is `briefs_xattr_set` with the entries `kvs`, `clear` the removal of the
last entry or of all of them at eviction, `free` one turn of `briefs_xattr_free_chain_locked`.
`queued` is false when `briefs_journal_inode_full` fails, `ok` when a record is not written. -/
inductive Event where
  | start (ino : Nat) (kvs : List KV) (blocks : List Nat)
  | log (ino : Nat)
  | abandon (ino : Nat)
  | publish (ino : Nat) (di : DiskInode) (queued : Bool)
  | clear (ino : Nat) (di : DiskInode) (queued : Bool)
  | free (ino : Nat)
  | leak (ino : Nat)
  | takeBlock (block : Nat)
  | freeBlock (block : Nat)
  | overwrite (block : Nat) (content : Block)
  | copy (ino : Nat) (di : DiskInode)
  | queue (k : Nat)
  | dequeue (k : Nat)
  | write (k : Nat) (ok : Bool)
  | append (rec : JRec)
  | checkpoint (n : Nat)

def physBlocks (recs : List XattrData) : List Nat := recs.map XattrData.physBlock

namespace Live

/-- The snapshot that is taken of an inode now. -/
def snapshot (s : Live) (ino : Nat) (di : DiskInode) : Snapshot :=
  (ino, { di with xattrOffset := headOf (s.chains ino) })

/-- The new head of an inode, with its snapshot; the blocks of the chain before it are left to be
freed. -/
def setChain (s : Live) (ino : Nat) (recs : List XattrData) (di : DiskInode) (queued : Bool) :
    Live :=
  let s' := { s with
    chains := Function.update s.chains ino recs
    builds := Function.update s.builds ino none
    old := Function.update s.old ino (physBlocks (s.chains ino))
    owner := give (give s.owner (physBlocks (s.chains ino)) (.old ino)) (physBlocks recs)
      (.chain ino) }
  { s' with pending := if queued then enqueue s.pending (s'.snapshot ino di) else s.pending }

/-- What has to hold of the blocks and entries of a new chain: `xattr_sem` is held, the entries
have names that were checked when they were set, and the blocks come from the allocator. -/
abbrev CanStart (s : Live) (ino : Nat) (kvs : List KV) (blocks : List Nat) : Prop :=
  (s.builds ino).isNone = true ∧ s.old ino = [] ∧ kvs ≠ [] ∧
    (∀ kv ∈ kvs, kv.name.length ≤ nameMax) ∧ blocks.length = (chainBlocks kvs).length ∧
    blocks.length ≤ maxChain ∧ blocks.Nodup ∧ ∀ b ∈ blocks, b ≠ 0 ∧ s.owner b = .free

/-- The chain is built in the blocks and written through. -/
def newChain (s : Live) (ino : Nat) (kvs : List KV) (blocks : List Nat) : Live :=
  { s with
    builds := Function.update s.builds ino (some ⟨chainRecords ino blocks (chainBlocks kvs), 0⟩)
    owner := give s.owner blocks (.build ino)
    disk := writeThrough s.disk blocks (chainBlocks kvs) }

def step (s : Live) : Event → Option Live
  | .start ino kvs blocks =>
    if s.CanStart ino kvs blocks then
      some (s.newChain ino kvs blocks)
    else none
  | .log ino =>
    match s.builds ino with
    | none => none
    | some b =>
      match b.recs[b.logged]? with
      | none => none
      | some r =>
        some { s with
          builds := Function.update s.builds ino (some ⟨b.recs, b.logged + 1⟩)
          ring := s.ring ++ [.xattrData r] }
  | .abandon ino =>
    match s.builds ino with
    | none => none
    | some b =>
      some { s with
        builds := Function.update s.builds ino none
        owner := give s.owner (physBlocks b.recs) .free }
  | .publish ino di queued =>
    match s.builds ino with
    | none => none
    | some b =>
      if b.logged = b.recs.length ∧ s.old ino = [] then some (s.setChain ino b.recs di queued)
      else none
  | .clear ino di queued =>
    if (s.builds ino).isNone = true ∧ s.old ino = [] ∧ s.chains ino ≠ [] then
      some (s.setChain ino [] di queued)
    else none
  | .free ino =>
    match s.old ino with
    | [] => none
    | b :: rest =>
      some { s with old := Function.update s.old ino rest, owner := give s.owner [b] .free }
  | .leak ino =>
    -- A block that cannot be read back: the rest of the chain stays allocated.
    some { s with old := Function.update s.old ino [], owner := give s.owner (s.old ino) .other }
  | .takeBlock b =>
    if s.owner b = .free then some { s with owner := give s.owner [b] .other } else none
  | .freeBlock b =>
    if s.owner b = .other then some { s with owner := give s.owner [b] .free } else none
  | .overwrite b content =>
    if s.owner b = .free ∨ s.owner b = .other then
      some { s with disk := Function.update s.disk b content }
    else none
  | .copy ino di => some { s with copies := s.copies ++ [s.snapshot ino di] }
  | .queue k =>
    match s.copies[k]? with
    | none => none
    | some snap =>
      some { s with copies := s.copies.eraseIdx k, pending := enqueue s.pending snap }
  | .dequeue k =>
    match s.pending[k]? with
    | none => none
    | some snap =>
      some { s with pending := s.pending.eraseIdx k, flight := s.flight ++ [snap] }
  | .write k ok =>
    match s.flight[k]? with
    | none => none
    | some snap =>
      some { s with
        flight := s.flight.eraseIdx k
        ring := if ok then s.ring ++ [.inodeFull snap.1 snap.2] else s.ring }
  | .append rec => if isPlain rec then some { s with ring := s.ring ++ [rec] } else none
  | .checkpoint n => some { s with ring := s.ring.drop n }

theorem step_start {s : Live} {ino : Nat} {kvs : List KV} {blocks : List Nat}
    (h : s.CanStart ino kvs blocks) :
    s.step (.start ino kvs blocks) = some (s.newChain ino kvs blocks) := if_pos h

/-- The snapshot carries the head that the inode has now. -/
def Current (s : Live) (snap : Snapshot) : Prop :=
  snap.2.xattrOffset = headOf (s.chains snap.1)

end Live

/-- A published head is queued, a copy that is queued is not stale, and a snapshot that reaches
the ring, or is lost, is current or followed by one that is. -/
def Event.Calm (s : Live) : Event → Prop
  | .publish _ _ queued => queued = true
  | .clear _ _ queued => queued = true
  | .queue k => ∀ snap, s.copies[k]? = some snap → s.Current snap
  | .write k ok => ∀ snap, s.flight[k]? = some snap → (ok = true ∧ s.Current snap) ∨
      ∃ later ∈ s.pending ++ s.flight.eraseIdx k, later.1 = snap.1 ∧ s.Current later
  | _ => True

--
-- The invariant
--

/-- A record that replay puts back. -/
structure Sound (r : XattrData) : Prop where
  used     : r.usedSize ≠ 0
  most     : r.usedSize ≤ Briefs.Replay.xattrMaxUsed
  restored : ∀ b, Restored r (restore r b)

/-- The links of a chain, as replay reads them. -/
def Linked : List XattrData → Prop
  | [] => True
  | r :: rest => (r.physBlock ≠ 0 ∧ xattrRecNextBlock r = headOf rest ∧ Sound r) ∧ Linked rest

/-- The last value of `f` on the ring. -/
def lastOf {α : Type} (f : JRec → Option α) (ring : List JRec) : Option α :=
  (ring.filterMap f).getLast?

def xattrAt (block : Nat) : JRec → Option XattrData
  | .xattrData x => if x.physBlock = block then some x else none
  | _ => none

def fullOf (ino : Nat) : JRec → Option DiskInode
  | .inodeFull n di => if n = ino then some di else none
  | _ => none

/-- The last `JRN_XATTR_DATA` for a block. -/
def lastXattr (ring : List JRec) (block : Nat) : Option XattrData := lastOf (xattrAt block) ring

/-- The last `JRN_INODE_FULL` of an inode. -/
def lastFull (ring : List JRec) (ino : Nat) : Option DiskInode := lastOf (fullOf ino) ring

/-- The records of the window: content that can be put back, and nothing that runs trie or
symlink code. -/
def RingOk : JRec → Prop
  | .xattrData x => Sound x
  | .dirUpdate _ | .symlinkData _ => False
  | _ => True

/-- Records whose blocks belong to `o` and hold what is logged for them. -/
structure Segment (owner : Nat → Owner) (disk : Nat → Block) (o : Owner)
    (recs : List XattrData) : Prop where
  linked  : Linked recs
  nodup   : (physBlocks recs).Nodup
  own     : ∀ r ∈ recs, owner r.physBlock = o
  durable : ∀ r ∈ recs, Restored r (disk r.physBlock)

namespace Live

/-- The records of the blocks that an owner has. -/
def recsOf (s : Live) : Owner → List XattrData
  | .chain ino => s.chains ino
  | .build ino => ((s.builds ino).map Build.recs).getD []
  | _ => []

/-- Those of them that are logged. -/
def loggedOf (s : Live) : Owner → List XattrData
  | .chain ino => s.chains ino
  | .build ino => ((s.builds ino).map fun b => b.recs.take b.logged).getD []
  | _ => []

end Live

/-- Blocks and their owners. -/
structure Held (s : Live) : Prop where
  segment  : ∀ o, Segment s.owner s.disk o (s.recsOf o)
  oldNodup : ∀ ino, (s.old ino).Nodup
  oldOwn   : ∀ ino, ∀ b ∈ s.old ino, s.owner b = .old ino

/-- A logged block has its record as the last one in the ring, or no record there. -/
structure Recorded (s : Live) : Prop where
  last : ∀ o, ∀ r ∈ s.loggedOf o, ∀ x, lastXattr s.ring r.physBlock = some x → x = r
  ring : ∀ rec ∈ s.ring, RingOk rec

/-- The slot of an inode carries its head. If no current snapshot is on its way, the last one in
the ring is current. -/
structure Snapped (s : Live) : Prop where
  slot : ∀ snap ∈ s.pending, s.Current snap
  last : ∀ ino, (∃ snap ∈ s.pending ++ s.flight, snap.1 = ino ∧ s.Current snap) ∨
    ∀ di, lastFull s.ring ino = some di → s.Current (ino, di)

structure Good (s : Live) : Prop where
  held     : Held s
  recorded : Recorded s
  snapped  : Snapped s

--
-- Ring
--

section Ring

variable {α : Type} {f : JRec → Option α} {ring : List JRec} {rec : JRec}

theorem lastOf_append (f : JRec → Option α) (ring : List JRec) (rec : JRec) :
    lastOf f (ring ++ [rec]) = (f rec).or (lastOf f ring) := by
  unfold lastOf
  rw [List.filterMap_append, List.getLast?_append]
  cases hRec : f rec with
  | none => rw [List.filterMap_cons_none hRec]; rfl
  | some a => rw [List.filterMap_cons_some hRec]; rfl

theorem lastOf_append_none (h : f rec = none) : lastOf f (ring ++ [rec]) = lastOf f ring := by
  rw [lastOf_append, h, Option.none_or]

/-- A checkpoint leaves the last value, or none. -/
theorem lastOf_drop {n : Nat} {a : α} (h : lastOf f (ring.drop n) = some a) :
    lastOf f ring = some a := by
  unfold lastOf at h ⊢
  rw [← List.take_append_drop n ring, List.filterMap_append, List.getLast?_append, h, Option.some_or]

end Ring

--
-- Chains
--

section Chains

variable {owner owner' : Nat → Owner} {disk disk' : Nat → Block} {o : Owner}
  {recs : List XattrData}

theorem mem_physBlocks {b : Nat} : b ∈ physBlocks recs ↔ ∃ r ∈ recs, r.physBlock = b := List.mem_map

theorem Linked.facts (h : Linked recs) : ∀ r ∈ recs, r.physBlock ≠ 0 ∧ Sound r := by
  induction recs with
  | nil => exact nofun
  | cons r rest ih =>
    intro r' hr
    rcases List.mem_cons.1 hr with rfl | hRest
    · exact ⟨h.1.1, h.1.2.2⟩
    · exact ih h.2 r' hRest

theorem Linked.nonzero (h : Linked recs) : ∀ r ∈ recs, r.physBlock ≠ 0 :=
  fun r hr => (h.facts r hr).1

theorem Linked.sound (h : Linked recs) : ∀ r ∈ recs, Sound r := fun r hr => (h.facts r hr).2

theorem sound_xattrRecord {x : XBlock} (h : x.Fits) (ino b next : Nat) :
    Sound (xattrRecord ino b x next) := by
  have hHdr := h.header
  have hSize : hdrSize = 32 := rfl
  exact ⟨by show x.usedSize ≠ 0; omega, h.most, restored_restore h ino b⟩

theorem next_xattrRecord {x : XBlock} (h : x.Fits) (ino b next : Nat) :
    xattrRecNextBlock (xattrRecord ino b x next) = next := by
  have hHdr : 32 ≤ x.usedSize := h.header
  unfold xattrRecNextBlock
  rw [if_neg (by show ¬ x.usedSize < 32; omega), if_neg (by show ¬ (2 = 1); decide)]
  rfl

theorem chainRecords_facts (ino : Nat) : ∀ (blocks : List Nat) (xs : List XBlock),
    blocks.length = xs.length → (∀ b ∈ blocks, b ≠ 0) → (∀ x ∈ xs, x.Fits) →
      Linked (chainRecords ino blocks xs) ∧ physBlocks (chainRecords ino blocks xs) = blocks ∧
        headOf (chainRecords ino blocks xs) = blocks.headD 0 := by
  intro blocks
  induction blocks with
  | nil => intro xs _ _ _; exact ⟨trivial, rfl, rfl⟩
  | cons b blocks ih =>
    intro xs hLen hPos hFit
    cases xs with
    | nil => exact absurd hLen (by simp)
    | cons x xs =>
      obtain ⟨hLinked, hPhys, hHead⟩ := ih xs (by simpa using hLen)
        (fun b hb => hPos b (List.mem_cons_of_mem _ hb))
        (fun x hx => hFit x (List.mem_cons_of_mem _ hx))
      have hx := hFit x List.mem_cons_self
      refine ⟨⟨⟨hPos b List.mem_cons_self, ?_, sound_xattrRecord hx _ _ _⟩, hLinked⟩, ?_, rfl⟩
      · rw [next_xattrRecord hx, hHead]
      · exact congrArg (b :: ·) hPhys

theorem writeThrough_of_notMem {b : Nat} : ∀ {blocks : List Nat} {xs : List XBlock}
    {disk : Nat → Block}, b ∉ blocks → writeThrough disk blocks xs b = disk b := by
  intro blocks
  induction blocks with
  | nil => intro xs disk _; cases xs <;> rfl
  | cons b' blocks ih =>
    intro xs disk hNot
    cases xs with
    | nil => rfl
    | cons x xs =>
      rw [List.mem_cons, not_or] at hNot
      unfold writeThrough
      rw [ih hNot.2, Function.update_of_ne hNot.1]

theorem writeThrough_durable (ino : Nat) : ∀ {blocks : List Nat} {xs : List XBlock}
    {disk : Nat → Block}, blocks.Nodup → (∀ x ∈ xs, x.Fits) →
      ∀ r ∈ chainRecords ino blocks xs, Restored r (writeThrough disk blocks xs r.physBlock) := by
  intro blocks
  induction blocks with
  | nil => intro xs disk _ _ r hr; exact absurd hr (by cases xs <;> exact List.not_mem_nil)
  | cons b blocks ih =>
    intro xs disk hNodup hFit r hr
    cases xs with
    | nil => exact absurd hr List.not_mem_nil
    | cons x xs =>
      rw [List.nodup_cons] at hNodup
      unfold writeThrough
      rcases List.mem_cons.1 hr with rfl | hRest
      · show Restored _ (writeThrough _ blocks xs b)
        rw [writeThrough_of_notMem hNodup.1, Function.update_self]
        exact restored_serialize (hFit x List.mem_cons_self) ino b
      · exact ih hNodup.2 (fun x hx => hFit x (List.mem_cons_of_mem _ hx)) r hRest

theorem segment_nil (owner : Nat → Owner) (disk : Nat → Block) (o : Owner) :
    Segment owner disk o [] := ⟨trivial, List.nodup_nil, nofun, nofun⟩

/-- What does not touch the blocks of an owner. -/
theorem Segment.congr (h : Segment owner disk o recs) (hOwner : ∀ b, owner b = o → owner' b = o)
    (hDisk : ∀ b, owner b = o → disk' b = disk b) : Segment owner' disk' o recs where
  linked  := h.linked
  nodup   := h.nodup
  own     := fun r hr => hOwner _ (h.own r hr)
  durable := fun r hr => by
    rw [hDisk _ (h.own r hr)]
    exact h.durable r hr

/-- The blocks of a segment go to another owner. -/
theorem Segment.give (h : Segment owner disk o recs) {o' : Owner} {blocks : List Nat}
    (hBlocks : ∀ r ∈ recs, r.physBlock ∈ blocks) : Segment (give owner blocks o') disk o' recs where
  linked  := h.linked
  nodup   := h.nodup
  own     := fun r hr => if_pos (hBlocks r hr)
  durable := h.durable

theorem give_of_notMem {blocks : List Nat} {b : Nat} (h : b ∉ blocks) :
    Briefs.Xattr.give owner blocks o b = owner b := if_neg h

/-- Blocks change hands that `o` does not have. -/
theorem give_keeps {blocks : List Nat} {o' : Owner} (h : ∀ b ∈ blocks, owner b ≠ o) :
    ∀ b, owner b = o → Briefs.Xattr.give owner blocks o' b = o := by
  intro b hb
  rw [give_of_notMem fun hMem => h b hMem hb]
  exact hb

end Chains

--
-- Blocks
--

section Held

variable {s : Live} {ino : Nat}

theorem recsOf_eq_of_ne {builds : Nat → Option Build} {v : Option Build} {i : Nat} (hi : i ≠ ino) :
    ((Function.update builds ino v i).map Build.recs).getD [] =
      ((builds i).map Build.recs).getD [] := by
  rw [Function.update_of_ne hi]

/-- Blocks that no chain and no build has change hands. -/
theorem Held.give (h : Held s) {blocks : List Nat} {o' : Owner}
    (hChain : ∀ b ∈ blocks, ∀ i, s.owner b ≠ .chain i)
    (hBuild : ∀ b ∈ blocks, ∀ i, s.owner b ≠ .build i) (o : Owner) :
    Segment (give s.owner blocks o') s.disk o (s.recsOf o) := by
  cases o with
  | chain i => exact (h.segment (.chain i)).congr (give_keeps fun b hb => hChain b hb i) fun _ _ => rfl
  | build i => exact (h.segment (.build i)).congr (give_keeps fun b hb => hBuild b hb i) fun _ _ => rfl
  | _ => exact segment_nil _ _ _

theorem Held.start (h : Held s) {kvs : List KV} {blocks : List Nat} {s' : Live}
    (hEq : s.step (.start ino kvs blocks) = some s') : Held s' := by
  dsimp only [Live.step] at hEq
  split at hEq
  · rename_i hCan
    obtain ⟨-, -, -, hNames, hLen, -, hNodup, hFree⟩ := hCan
    cases hEq
    have hFit : ∀ x ∈ chainBlocks kvs, x.Fits := fun x hx => chainBlocks_fit hNames hx
    obtain ⟨hLinked, hPhys, -⟩ := chainRecords_facts ino blocks (chainBlocks kvs) hLen
      (fun b hb => (hFree b hb).1) hFit
    have hKeep : ∀ o, o ≠ .free → ∀ b, s.owner b = o →
        Briefs.Xattr.give s.owner blocks (.build ino) b = o :=
      fun o ho => give_keeps fun b hb => by rw [(hFree b hb).2]; exact ho.symm
    have hDisk : ∀ o, o ≠ .free → ∀ b, s.owner b = o →
        writeThrough s.disk blocks (chainBlocks kvs) b = s.disk b := by
      intro o ho b hb
      exact writeThrough_of_notMem fun hMem => ho (hb.symm.trans (hFree b hMem).2)
    refine ⟨?_, h.oldNodup, fun i b hb => hKeep (.old i) nofun b (h.oldOwn i b hb)⟩
    intro o
    cases o with
    | chain i => exact (h.segment (.chain i)).congr (hKeep _ nofun) (hDisk _ nofun)
    | build i =>
      by_cases hi : i = ino
      · subst hi
        show Segment _ _ _ ((Option.map Build.recs (Function.update s.builds i _ i)).getD [])
        rw [Function.update_self]
        have hNodup' : (physBlocks (chainRecords i blocks (chainBlocks kvs))).Nodup := by
          rwa [hPhys]
        refine ⟨hLinked, hNodup', ?_, writeThrough_durable i hNodup hFit⟩
        intro r hr
        refine if_pos ?_
        rw [← hPhys]
        exact mem_physBlocks.2 ⟨r, hr, rfl⟩
      · show Segment _ _ _ ((Option.map Build.recs (Function.update s.builds ino _ i)).getD [])
        rw [recsOf_eq_of_ne hi]
        exact (h.segment (.build i)).congr (hKeep _ nofun) (hDisk _ nofun)
    | _ => exact segment_nil _ _ _
  · cases hEq

theorem Held.log (h : Held s) {s' : Live} (hEq : s.step (.log ino) = some s') : Held s' := by
  dsimp only [Live.step] at hEq
  split at hEq
  · cases hEq
  · rename_i b hBuild
    split at hEq
    · cases hEq
    · cases hEq
      refine ⟨?_, h.oldNodup, h.oldOwn⟩
      intro o
      cases o with
      | build i =>
        by_cases hi : i = ino
        · subst hi
          have hSeg := h.segment (.build i)
          dsimp only [Live.recsOf] at hSeg ⊢
          rw [hBuild] at hSeg
          rw [Function.update_self]
          exact hSeg
        · dsimp only [Live.recsOf]
          rw [recsOf_eq_of_ne hi]
          exact h.segment (.build i)
      | chain i => exact h.segment (.chain i)
      | _ => exact segment_nil _ _ _

theorem Held.abandon (h : Held s) {s' : Live} (hEq : s.step (.abandon ino) = some s') :
    Held s' := by
  dsimp only [Live.step] at hEq
  split at hEq
  · cases hEq
  · rename_i b hBuild
    cases hEq
    have hOwn : ∀ c ∈ physBlocks b.recs, s.owner c = .build ino := by
      intro c hc
      obtain ⟨r, hr, rfl⟩ := mem_physBlocks.1 hc
      refine (h.segment (.build ino)).own r ?_
      dsimp only [Live.recsOf]
      rw [hBuild]
      exact hr
    have hKeep : ∀ o, o ≠ .build ino → ∀ c, s.owner c = o →
        Briefs.Xattr.give s.owner (physBlocks b.recs) .free c = o :=
      fun o ho => give_keeps fun c hc => by rw [hOwn c hc]; exact ho.symm
    refine ⟨?_, h.oldNodup, fun i c hc => hKeep (.old i) nofun c (h.oldOwn i c hc)⟩
    intro o
    cases o with
    | chain i => exact (h.segment (.chain i)).congr (hKeep _ nofun) fun _ _ => rfl
    | build i =>
      dsimp only [Live.recsOf]
      by_cases hi : i = ino
      · subst hi
        rw [Function.update_self]
        exact segment_nil _ _ _
      · rw [recsOf_eq_of_ne hi]
        exact (h.segment (.build i)).congr (hKeep _ fun hSame => hi (Owner.build.inj hSame))
          fun _ _ => rfl
    | _ => exact segment_nil _ _ _

/-- The blocks of a new chain were those of its build; those of the chain before it wait. -/
theorem Held.setChain (h : Held s) {recs : List XattrData}
    (hRecs : Segment s.owner s.disk (.build ino) recs) (di : DiskInode) (queued : Bool) :
    Held (s.setChain ino recs di queued) := by
  have hNew : ∀ b ∈ physBlocks recs, s.owner b = .build ino := by
    intro b hb
    obtain ⟨r, hr, rfl⟩ := mem_physBlocks.1 hb
    exact hRecs.own r hr
  have hOld : ∀ b ∈ physBlocks (s.chains ino), s.owner b = .chain ino := by
    intro b hb
    obtain ⟨r, hr, rfl⟩ := mem_physBlocks.1 hb
    exact (h.segment (.chain ino)).own r hr
  have hFirst : ∀ o, o ≠ .chain ino → ∀ b, s.owner b = o →
      Briefs.Xattr.give s.owner (physBlocks (s.chains ino)) (.old ino) b = o :=
    fun o ho => give_keeps fun b hb => by rw [hOld b hb]; exact ho.symm
  have hKeep : ∀ o, o ≠ .chain ino → o ≠ .build ino → ∀ b, s.owner b = o →
      (s.setChain ino recs di queued).owner b = o := by
    intro o hChain hBuild b hb
    show Briefs.Xattr.give _ (physBlocks recs) _ b = o
    rw [give_of_notMem fun hMem => hBuild (hb.symm.trans (hNew b hMem))]
    exact hFirst o hChain b hb
  refine ⟨?_, ?_, ?_⟩
  · intro o
    cases o with
    | chain i =>
      dsimp only [Live.recsOf, Live.setChain]
      by_cases hi : i = ino
      · subst hi
        rw [Function.update_self]
        exact (hRecs.congr (hFirst _ nofun) fun _ _ => rfl).give
          fun r hr => mem_physBlocks.2 ⟨r, hr, rfl⟩
      · rw [Function.update_of_ne hi]
        exact (h.segment (.chain i)).congr
          (hKeep _ (fun hSame => hi (Owner.chain.inj hSame)) nofun) fun _ _ => rfl
    | build i =>
      dsimp only [Live.recsOf, Live.setChain]
      by_cases hi : i = ino
      · subst hi
        rw [Function.update_self]
        exact segment_nil _ _ _
      · rw [recsOf_eq_of_ne hi]
        exact (h.segment (.build i)).congr
          (hKeep _ nofun fun hSame => hi (Owner.build.inj hSame)) fun _ _ => rfl
    | _ => exact segment_nil _ _ _
  · intro i
    dsimp only [Live.setChain]
    by_cases hi : i = ino
    · subst hi
      rw [Function.update_self]
      exact (h.segment (.chain i)).nodup
    · rw [Function.update_of_ne hi]
      exact h.oldNodup i
  · intro i b hb
    by_cases hi : i = ino
    · subst hi
      have hMem : b ∈ physBlocks (s.chains i) := by
        dsimp only [Live.setChain] at hb
        rwa [Function.update_self] at hb
      show Briefs.Xattr.give _ (physBlocks recs) _ b = _
      rw [give_of_notMem fun hIn => nomatch (hOld b hMem).symm.trans (hNew b hIn)]
      exact if_pos hMem
    · dsimp only [Live.setChain] at hb
      rw [Function.update_of_ne hi] at hb
      exact hKeep (.old i) nofun nofun b (h.oldOwn i b hb)

theorem Held.publish (h : Held s) {di : DiskInode} {queued : Bool} {s' : Live}
    (hEq : s.step (.publish ino di queued) = some s') : Held s' := by
  dsimp only [Live.step] at hEq
  split at hEq
  · cases hEq
  · rename_i b hBuild
    split at hEq
    · cases hEq
      refine h.setChain ?_ di queued
      have hSeg := h.segment (.build ino)
      dsimp only [Live.recsOf] at hSeg
      rwa [hBuild] at hSeg
    · cases hEq

theorem Held.free (h : Held s) {s' : Live} (hEq : s.step (.free ino) = some s') : Held s' := by
  dsimp only [Live.step] at hEq
  split at hEq
  · cases hEq
  · rename_i b rest hOld
    cases hEq
    have hOwn : s.owner b = .old ino := h.oldOwn ino b (by rw [hOld]; exact List.mem_cons_self)
    have hNodup := h.oldNodup ino
    rw [hOld, List.nodup_cons] at hNodup
    have hOnly : ∀ c ∈ [b], s.owner c = .old ino := fun c hc => by
      rw [List.mem_singleton.1 hc]
      exact hOwn
    refine ⟨h.give (fun c hc i => by rw [hOnly c hc]; exact nofun)
      (fun c hc i => by rw [hOnly c hc]; exact nofun), ?_, ?_⟩
    · intro i
      dsimp only
      by_cases hi : i = ino
      · subst hi
        rw [Function.update_self]
        exact hNodup.2
      · rw [Function.update_of_ne hi]
        exact h.oldNodup i
    · intro i c hc
      dsimp only at hc
      by_cases hi : i = ino
      · subst hi
        rw [Function.update_self] at hc
        show Briefs.Xattr.give s.owner [b] .free c = _
        rw [give_of_notMem fun hMem => hNodup.1 (by rwa [List.mem_singleton.1 hMem] at hc)]
        exact h.oldOwn i c (by rw [hOld]; exact List.mem_cons_of_mem _ hc)
      · rw [Function.update_of_ne hi] at hc
        refine give_keeps ?_ c (h.oldOwn i c hc)
        intro d hd
        rw [hOnly d hd]
        exact fun hSame => hi (Owner.old.inj hSame).symm

theorem Held.leak (h : Held s) {s' : Live} (hEq : s.step (.leak ino) = some s') : Held s' := by
  cases hEq
  have hOwn := h.oldOwn ino
  refine ⟨h.give (fun c hc i => by rw [hOwn c hc]; exact nofun)
    (fun c hc i => by rw [hOwn c hc]; exact nofun), ?_, ?_⟩
  · intro i
    dsimp only
    by_cases hi : i = ino
    · subst hi
      rw [Function.update_self]
      exact List.nodup_nil
    · rw [Function.update_of_ne hi]
      exact h.oldNodup i
  · intro i c hc
    dsimp only at hc
    by_cases hi : i = ino
    · subst hi
      rw [Function.update_self] at hc
      exact absurd hc List.not_mem_nil
    · rw [Function.update_of_ne hi] at hc
      refine give_keeps ?_ c (h.oldOwn i c hc)
      intro d hd
      rw [hOwn d hd]
      exact fun hSame => hi (Owner.old.inj hSame).symm

/-- One block that is free or someone else's changes hands. -/
theorem Held.handOver (h : Held s) {b : Nat} {o' : Owner}
    (hOwn : s.owner b = .free ∨ s.owner b = .other) :
    Held { s with owner := Briefs.Xattr.give s.owner [b] o' } := by
  have hNot : ∀ o, o ≠ .free → o ≠ .other → ∀ c ∈ [b], s.owner c ≠ o := by
    intro o hFree hOther c hc hSame
    rw [List.mem_singleton.1 hc] at hSame
    exact hOwn.elim (fun h => hFree (hSame.symm.trans h)) (fun h => hOther (hSame.symm.trans h))
  exact ⟨h.give (fun c hc i => hNot (.chain i) nofun nofun c hc)
    (fun c hc i => hNot (.build i) nofun nofun c hc), h.oldNodup,
    fun i c hc => give_keeps (hNot (.old i) nofun nofun) c (h.oldOwn i c hc)⟩

theorem Held.overwrite (h : Held s) {b : Nat} {content : Block} {s' : Live}
    (hEq : s.step (.overwrite b content) = some s') : Held s' := by
  dsimp only [Live.step] at hEq
  split at hEq
  · rename_i hOwn
    cases hEq
    have hDisk : ∀ o, o ≠ .free → o ≠ .other → ∀ c, s.owner c = o →
        Function.update s.disk b content c = s.disk c := by
      intro o hFree hOther c hc
      refine Function.update_of_ne ?_ _ _
      rintro rfl
      exact hOwn.elim (fun h => hFree (hc.symm.trans h)) (fun h => hOther (hc.symm.trans h))
    refine ⟨?_, h.oldNodup, h.oldOwn⟩
    intro o
    cases o with
    | chain i => exact (h.segment (.chain i)).congr (fun _ hc => hc) (hDisk _ nofun nofun)
    | build i => exact (h.segment (.build i)).congr (fun _ hc => hc) (hDisk _ nofun nofun)
    | _ => exact segment_nil _ _ _
  · cases hEq

end Held

--
-- Records
--

section Recorded

variable {s : Live} {ino : Nat}

theorem mem_recsOf_of_logged {o : Owner} {r : XattrData} (hr : r ∈ s.loggedOf o) :
    r ∈ s.recsOf o := by
  cases o with
  | chain i => exact hr
  | build i =>
    dsimp only [Live.loggedOf, Live.recsOf] at hr ⊢
    cases hBuild : s.builds i with
    | none => rw [hBuild] at hr; exact hr
    | some b =>
      rw [hBuild] at hr
      exact List.mem_of_mem_take hr
  | _ => exact hr

theorem Recorded.append (h : Recorded s) {rec : JRec} (hOk : RingOk rec)
    (hNone : ∀ b, xattrAt b rec = none) : Recorded { s with ring := s.ring ++ [rec] } := by
  refine ⟨?_, ?_⟩
  · intro o r hr x hx
    rw [lastXattr, lastOf_append_none (hNone _)] at hx
    exact h.last o r hr x hx
  · intro rec' hMem
    rcases List.mem_append.1 hMem with hOld | hNew
    · exact h.ring rec' hOld
    · rw [List.mem_singleton.1 hNew]
      exact hOk

theorem Recorded.checkpoint (h : Recorded s) (n : Nat) :
    Recorded { s with ring := s.ring.drop n } :=
  ⟨fun o r hr x hx => h.last o r hr x (lastOf_drop hx), fun rec hMem =>
    h.ring rec (List.mem_of_mem_drop hMem)⟩

/-- A build that has logged nothing, or is gone. -/
theorem Recorded.setBuild (h : Recorded s) {v : Option Build}
    (hNone : ((v.map fun b => b.recs.take b.logged).getD []) = []) (owner : Nat → Owner)
    (disk : Nat → Block) :
    Recorded { s with builds := Function.update s.builds ino v, owner := owner, disk := disk } := by
  refine ⟨?_, h.ring⟩
  intro o r hr
  cases o with
  | build i =>
    dsimp only [Live.loggedOf] at hr
    by_cases hi : i = ino
    · subst hi
      rw [Function.update_self, hNone] at hr
      exact absurd hr List.not_mem_nil
    · rw [Function.update_of_ne hi] at hr
      exact h.last (.build i) r hr
  | chain i => exact h.last (.chain i) r hr
  | _ => exact absurd hr List.not_mem_nil

/-- The record of the next block goes to the ring: no other chain or build has the block, and no
other record of the build is for it. -/
theorem Recorded.log (h : Recorded s) (hHeld : Held s) {s' : Live}
    (hEq : s.step (.log ino) = some s') : Recorded s' := by
  dsimp only [Live.step] at hEq
  split at hEq
  · cases hEq
  · rename_i b hBuild
    split at hEq
    · cases hEq
    · rename_i r₀ hGet
      cases hEq
      have hRecs : s.recsOf (.build ino) = b.recs := by
        dsimp only [Live.recsOf]
        rw [hBuild]
        rfl
      have hMem₀ : r₀ ∈ s.recsOf (.build ino) := by
        rw [hRecs]
        exact List.mem_of_getElem? hGet
      have hSeg := hHeld.segment (.build ino)
      have hSame : ∀ o, ∀ r ∈ s.recsOf o, r₀.physBlock = r.physBlock → r₀ = r := by
        intro o r hr hPhys
        have ho : o = .build ino := by
          rw [← (hHeld.segment o).own r hr, ← hPhys]
          exact hSeg.own r₀ hMem₀
        subst ho
        exact List.inj_on_of_nodup_map hSeg.nodup hMem₀ hr hPhys
      refine ⟨?_, ?_⟩
      · intro o r hr x hx
        have hIn : r ∈ s.recsOf o ∧ (r ∈ s.loggedOf o ∨ r = r₀) := by
          cases o with
          | build i =>
            dsimp only [Live.loggedOf] at hr
            by_cases hi : i = ino
            · subst hi
              rw [Function.update_self] at hr
              change r ∈ b.recs.take (b.logged + 1) at hr
              rw [hRecs]
              refine ⟨List.mem_of_mem_take hr, ?_⟩
              rw [List.take_add_one, hGet] at hr
              rcases List.mem_append.1 hr with hOld | hNew
              · refine .inl ?_
                dsimp only [Live.loggedOf]
                rw [hBuild]
                exact hOld
              · exact .inr (List.mem_singleton.1 hNew)
            · rw [Function.update_of_ne hi] at hr
              have hOld : r ∈ s.loggedOf (.build i) := hr
              exact ⟨mem_recsOf_of_logged hOld, .inl hOld⟩
          | chain i =>
            have hOld : r ∈ s.loggedOf (.chain i) := hr
            exact ⟨mem_recsOf_of_logged hOld, .inl hOld⟩
          | _ => exact absurd hr List.not_mem_nil
        rw [lastXattr, lastOf_append] at hx
        by_cases hPhys : r₀.physBlock = r.physBlock
        · have hNew : xattrAt r.physBlock (.xattrData r₀) = some r₀ := if_pos hPhys
          rw [hNew, Option.some_or] at hx
          rw [← Option.some.inj hx]
          exact hSame o r hIn.1 hPhys
        · have hOther : xattrAt r.physBlock (.xattrData r₀) = none := if_neg hPhys
          rw [hOther, Option.none_or] at hx
          rcases hIn.2 with hOld | rfl
          · exact h.last o r hOld x hx
          · exact absurd rfl hPhys
      · intro rec hMem
        rcases List.mem_append.1 hMem with hOld | hNew
        · exact h.ring rec hOld
        · rw [List.mem_singleton.1 hNew]
          exact hSeg.linked.sound r₀ hMem₀

/-- A chain is published when all its records are logged. -/
theorem Recorded.setChain (h : Recorded s) {recs : List XattrData}
    (hRecs : ∀ r ∈ recs, r ∈ s.loggedOf (.build ino)) (di : DiskInode) (queued : Bool) :
    Recorded (s.setChain ino recs di queued) := by
  refine ⟨?_, h.ring⟩
  intro o r hr
  cases o with
  | chain i =>
    dsimp only [Live.loggedOf, Live.setChain] at hr
    by_cases hi : i = ino
    · subst hi
      rw [Function.update_self] at hr
      exact h.last (.build i) r (hRecs r hr)
    · rw [Function.update_of_ne hi] at hr
      exact h.last (.chain i) r hr
  | build i =>
    dsimp only [Live.loggedOf, Live.setChain] at hr
    by_cases hi : i = ino
    · subst hi
      rw [Function.update_self] at hr
      exact absurd hr List.not_mem_nil
    · rw [Function.update_of_ne hi] at hr
      exact h.last (.build i) r hr
  | _ => exact absurd hr List.not_mem_nil

theorem Recorded.publish (h : Recorded s) {di : DiskInode} {queued : Bool} {s' : Live}
    (hEq : s.step (.publish ino di queued) = some s') : Recorded s' := by
  dsimp only [Live.step] at hEq
  split at hEq
  · cases hEq
  · rename_i b hBuild
    split at hEq
    · rename_i hDone
      cases hEq
      refine h.setChain ?_ di queued
      intro r hr
      dsimp only [Live.loggedOf]
      rw [hBuild]
      show r ∈ b.recs.take b.logged
      rwa [hDone.1, List.take_length]
    · cases hEq

end Recorded

--
-- Snapshots
--

section Snapped

variable {s : Live} {snap p : Snapshot} {pending : List Snapshot}

theorem mem_enqueue_self (pending : List Snapshot) (snap : Snapshot) :
    snap ∈ enqueue pending snap := by
  unfold enqueue
  split
  · rename_i hAny
    obtain ⟨p, hp, hSame⟩ := List.any_eq_true.1 hAny
    exact List.mem_map.2 ⟨p, hp, if_pos (eq_of_beq hSame)⟩
  · exact List.mem_append_right _ List.mem_cons_self

theorem mem_enqueue_of_ne (hp : p ∈ pending) (hNe : p.1 ≠ snap.1) : p ∈ enqueue pending snap := by
  unfold enqueue
  split
  · exact List.mem_map.2 ⟨p, hp, if_neg hNe⟩
  · exact List.mem_append_left _ hp

theorem mem_of_mem_enqueue (hp : p ∈ enqueue pending snap) :
    p = snap ∨ p ∈ pending ∧ p.1 ≠ snap.1 := by
  unfold enqueue at hp
  split at hp
  · obtain ⟨q, hq, rfl⟩ := List.mem_map.1 hp
    by_cases hSame : q.1 = snap.1
    · exact .inl (if_pos hSame)
    · rw [if_neg hSame]
      exact .inr ⟨hq, hSame⟩
  · rename_i hAny
    rcases List.mem_append.1 hp with hOld | hNew
    · refine .inr ⟨hOld, fun hSame => hAny ?_⟩
      exact List.any_eq_true.2 ⟨p, hOld, beq_iff_eq.2 hSame⟩
    · exact .inl (List.mem_singleton.1 hNew)

theorem Snapped.append (h : Snapped s) {rec : JRec} (hNone : ∀ i, fullOf i rec = none) :
    Snapped { s with ring := s.ring ++ [rec] } := by
  refine ⟨h.slot, fun i => (h.last i).imp id fun hLast di hdi => ?_⟩
  rw [lastFull, lastOf_append_none (hNone i)] at hdi
  exact hLast di hdi

theorem Snapped.checkpoint (h : Snapped s) (n : Nat) : Snapped { s with ring := s.ring.drop n } :=
  ⟨h.slot, fun i => (h.last i).imp id fun hLast di hdi => hLast di (lastOf_drop hdi)⟩

/-- A current snapshot takes the slot of its inode. -/
theorem Snapped.enqueue (h : Snapped s) (hCur : s.Current snap) (copies : List Snapshot) :
    Snapped { s with copies := copies, pending := enqueue s.pending snap } := by
  refine ⟨?_, ?_⟩
  · intro p hp
    rcases mem_of_mem_enqueue hp with rfl | hOld
    · exact hCur
    · exact h.slot p hOld.1
  · intro i
    by_cases hi : i = snap.1
    · exact .inl ⟨snap, List.mem_append_left _ (mem_enqueue_self _ _), hi.symm, hCur⟩
    · refine (h.last i).imp ?_ id
      rintro ⟨p, hp, hIno, hp'⟩
      refine ⟨p, ?_, hIno, hp'⟩
      rcases List.mem_append.1 hp with hPend | hFlight
      · exact List.mem_append_left _ (mem_enqueue_of_ne hPend fun hSame => hi (hIno.symm.trans hSame))
      · exact List.mem_append_right _ hFlight

theorem mem_or_mem_eraseIdx {k : Nat} (hGet : pending[k]? = some snap) (hp : p ∈ pending) :
    p = snap ∨ p ∈ pending.eraseIdx k := by
  obtain ⟨hk, hAt⟩ := List.getElem?_eq_some_iff.1 hGet
  obtain ⟨j, hj, hpj⟩ := List.getElem_of_mem hp
  by_cases hSame : j = k
  · subst hSame
    exact .inl (hpj.symm.trans hAt)
  · exact .inr (List.mem_eraseIdx_iff_getElem.2 ⟨j, hj, hSame, hpj⟩)

theorem Snapped.dequeue (h : Snapped s) {k : Nat} {s' : Live}
    (hEq : s.step (.dequeue k) = some s') : Snapped s' := by
  dsimp only [Live.step] at hEq
  split at hEq
  · cases hEq
  · rename_i snap hGet
    cases hEq
    refine ⟨fun p hp => h.slot p (List.mem_of_mem_eraseIdx hp), fun i => (h.last i).imp ?_ id⟩
    rintro ⟨p, hp, hIno, hCur⟩
    refine ⟨p, ?_, hIno, hCur⟩
    rcases List.mem_append.1 hp with hPend | hFlight
    · rcases mem_or_mem_eraseIdx hGet hPend with rfl | hOld
      · exact List.mem_append_right _ (List.mem_append_right _ List.mem_cons_self)
      · exact List.mem_append_left _ hOld
    · exact List.mem_append_right _ (List.mem_append_left _ hFlight)

/-- A snapshot is written: it is current, or a current one is still on its way. -/
theorem Snapped.write (h : Snapped s) {k : Nat} {ok : Bool} {s' : Live}
    (hCalm : (Event.write k ok).Calm s) (hEq : s.step (.write k ok) = some s') : Snapped s' := by
  dsimp only [Live.step] at hEq
  split at hEq
  · cases hEq
  · rename_i snap hGet
    cases hEq
    refine ⟨h.slot, fun i => ?_⟩
    by_cases hi : i = snap.1
    · subst hi
      rcases hCalm snap hGet with ⟨rfl, hCur⟩ | ⟨later, hMem, hIno, hCur⟩
      · refine .inr fun di hdi => ?_
        have hNew : fullOf snap.1 (.inodeFull snap.1 snap.2) = some snap.2 := if_pos rfl
        rw [if_pos rfl, lastFull, lastOf_append, hNew, Option.some_or] at hdi
        rw [← Option.some.inj hdi]
        exact hCur
      · exact .inl ⟨later, hMem, hIno, hCur⟩
    · have hRing : lastFull (if ok then s.ring ++ [.inodeFull snap.1 snap.2] else s.ring) i =
          lastFull s.ring i := by
        split
        · exact lastOf_append_none (if_neg (Ne.symm hi))
        · rfl
      rcases h.last i with ⟨p, hp, hIno, hCur⟩ | hLast
      · refine .inl ⟨p, ?_, hIno, hCur⟩
        rcases List.mem_append.1 hp with hPend | hFlight
        · exact List.mem_append_left _ hPend
        · rcases mem_or_mem_eraseIdx hGet hFlight with rfl | hOld
          · exact absurd hIno.symm hi
          · exact List.mem_append_right _ hOld
      · exact .inr fun di hdi => hLast di (hRing ▸ hdi)

/-- A new head, with its snapshot in the slot. -/
theorem Snapped.setChain (h : Snapped s) (ino : Nat) (recs : List XattrData) (di : DiskInode) :
    Snapped (s.setChain ino recs di true) := by
  have hOther : ∀ p : Snapshot, p.1 ≠ ino → s.Current p → (s.setChain ino recs di true).Current p := by
    intro p hNe hCur
    show _ = headOf (Function.update s.chains ino recs p.1)
    rw [Function.update_of_ne hNe]
    exact hCur
  have hNew : ∀ s' : Live, s'.Current (s'.snapshot ino di) := fun _ => rfl
  refine ⟨?_, ?_⟩
  · intro p hp
    rcases mem_of_mem_enqueue hp with rfl | ⟨hOld, hNe⟩
    · exact hNew _
    · exact hOther p hNe (h.slot p hOld)
  · intro i
    by_cases hi : i = ino
    · subst hi
      exact .inl ⟨_, List.mem_append_left _ (mem_enqueue_self _ _), rfl, hNew _⟩
    · refine (h.last i).imp ?_ ?_
      · rintro ⟨p, hp, rfl, hCur⟩
        refine ⟨p, ?_, rfl, hOther p hi hCur⟩
        rcases List.mem_append.1 hp with hPend | hFlight
        · exact List.mem_append_left _ (mem_enqueue_of_ne hPend hi)
        · exact List.mem_append_right _ hFlight
      · exact fun hLast di' hdi => hOther (i, di') hi (hLast di' hdi)

end Snapped

--
-- Runs
--

/-- At the start nothing is under way and the journal is empty; the chains of earlier mounts lie
on the device. -/
structure Live.AtStart (s : Live) : Prop where
  chains  : ∀ ino, Segment s.owner s.disk (.chain ino) (s.chains ino)
  builds  : ∀ ino, s.builds ino = none
  old     : ∀ ino, s.old ino = []
  pending : s.pending = []
  ring    : s.ring = []

/-- The states that are reached by steps under `P`. -/
inductive Reach (P : Live → Event → Prop) (start : Live) : Live → Prop
  | start : Reach P start start
  | step {s s' : Live} {e : Event} :
      Reach P start s → P s e → s.step e = some s' → Reach P start s'

section Runs

variable {s s' : Live}

theorem good_start (h : s.AtStart) : Good s := by
  refine ⟨⟨?_, ?_, ?_⟩, ⟨?_, ?_⟩, ⟨?_, ?_⟩⟩
  · intro o
    cases o with
    | chain i => exact h.chains i
    | build i =>
      dsimp only [Live.recsOf]
      rw [h.builds i]
      exact segment_nil _ _ _
    | _ => exact segment_nil _ _ _
  · intro i
    rw [h.old i]
    exact List.nodup_nil
  · intro i b hb
    rw [h.old i] at hb
    exact absurd hb List.not_mem_nil
  · intro o r _ x hx
    rw [h.ring] at hx
    cases hx
  · intro rec hMem
    rw [h.ring] at hMem
    exact absurd hMem List.not_mem_nil
  · intro snap hMem
    rw [h.pending] at hMem
    exact absurd hMem List.not_mem_nil
  · intro i
    refine .inr fun di hdi => ?_
    rw [h.ring] at hdi
    cases hdi

theorem Good.step (h : Good s) {e : Event} (hCalm : e.Calm s) (hEq : s.step e = some s') :
    Good s' := by
  obtain ⟨hHeld, hRec, hSnap⟩ := h
  cases e with
  | start ino kvs blocks =>
    have hHeld' := hHeld.start hEq
    dsimp only [Live.step] at hEq
    split at hEq
    · cases hEq
      exact ⟨hHeld', hRec.setBuild rfl _ _, ⟨hSnap.slot, hSnap.last⟩⟩
    · cases hEq
  | log ino =>
    refine ⟨hHeld.log hEq, hRec.log hHeld hEq, ?_⟩
    dsimp only [Live.step] at hEq
    split at hEq
    · cases hEq
    · split at hEq
      · cases hEq
      · rename_i r _
        cases hEq
        have hRing : Snapped { s with ring := s.ring ++ [.xattrData r] } :=
          hSnap.append fun _ => rfl
        exact ⟨hRing.slot, hRing.last⟩
  | abandon ino =>
    have hHeld' := hHeld.abandon hEq
    dsimp only [Live.step] at hEq
    split at hEq
    · cases hEq
    · cases hEq
      exact ⟨hHeld', hRec.setBuild rfl _ _, ⟨hSnap.slot, hSnap.last⟩⟩
  | publish ino di queued =>
    have hQueued : queued = true := hCalm
    subst hQueued
    refine ⟨hHeld.publish hEq, hRec.publish hEq, ?_⟩
    dsimp only [Live.step] at hEq
    split at hEq
    · cases hEq
    · split at hEq
      · cases hEq
        exact hSnap.setChain ino _ di
      · cases hEq
  | clear ino di queued =>
    have hQueued : queued = true := hCalm
    subst hQueued
    dsimp only [Live.step] at hEq
    split at hEq
    · cases hEq
      exact ⟨hHeld.setChain (segment_nil _ _ _) di true,
        hRec.setChain (fun r hr => absurd hr List.not_mem_nil) di true, hSnap.setChain ino [] di⟩
    · cases hEq
  | free ino =>
    have hHeld' := hHeld.free hEq
    dsimp only [Live.step] at hEq
    split at hEq
    · cases hEq
    · cases hEq
      exact ⟨hHeld', ⟨hRec.last, hRec.ring⟩, ⟨hSnap.slot, hSnap.last⟩⟩
  | leak ino =>
    have hHeld' := hHeld.leak hEq
    cases hEq
    exact ⟨hHeld', ⟨hRec.last, hRec.ring⟩, ⟨hSnap.slot, hSnap.last⟩⟩
  | takeBlock b =>
    dsimp only [Live.step] at hEq
    split at hEq
    · rename_i hOwn
      cases hEq
      exact ⟨hHeld.handOver (.inl hOwn), ⟨hRec.last, hRec.ring⟩, ⟨hSnap.slot, hSnap.last⟩⟩
    · cases hEq
  | freeBlock b =>
    dsimp only [Live.step] at hEq
    split at hEq
    · rename_i hOwn
      cases hEq
      exact ⟨hHeld.handOver (.inr hOwn), ⟨hRec.last, hRec.ring⟩, ⟨hSnap.slot, hSnap.last⟩⟩
    · cases hEq
  | overwrite b content =>
    have hHeld' := hHeld.overwrite hEq
    dsimp only [Live.step] at hEq
    split at hEq
    · cases hEq
      exact ⟨hHeld', ⟨hRec.last, hRec.ring⟩, ⟨hSnap.slot, hSnap.last⟩⟩
    · cases hEq
  | copy ino di =>
    cases hEq
    exact ⟨⟨hHeld.segment, hHeld.oldNodup, hHeld.oldOwn⟩, ⟨hRec.last, hRec.ring⟩,
      ⟨hSnap.slot, hSnap.last⟩⟩
  | queue k =>
    dsimp only [Live.step] at hEq
    split at hEq
    · cases hEq
    · rename_i snap hGet
      cases hEq
      exact ⟨⟨hHeld.segment, hHeld.oldNodup, hHeld.oldOwn⟩, ⟨hRec.last, hRec.ring⟩,
        hSnap.enqueue (hCalm snap hGet) _⟩
  | dequeue k =>
    have hSnap' := hSnap.dequeue hEq
    dsimp only [Live.step] at hEq
    split at hEq
    · cases hEq
    · cases hEq
      exact ⟨⟨hHeld.segment, hHeld.oldNodup, hHeld.oldOwn⟩, ⟨hRec.last, hRec.ring⟩, hSnap'⟩
  | write k ok =>
    have hSnap' := hSnap.write hCalm hEq
    dsimp only [Live.step] at hEq
    split at hEq
    · cases hEq
    · rename_i snap _
      cases hEq
      refine ⟨⟨hHeld.segment, hHeld.oldNodup, hHeld.oldOwn⟩, ?_, hSnap'⟩
      cases ok with
      | true =>
        have hRing : Recorded { s with ring := s.ring ++ [.inodeFull snap.1 snap.2] } :=
          hRec.append trivial fun _ => rfl
        exact ⟨hRing.last, hRing.ring⟩
      | false => exact ⟨hRec.last, hRec.ring⟩
  | append rec =>
    dsimp only [Live.step] at hEq
    split at hEq
    · rename_i hPlain
      cases hEq
      refine ⟨⟨hHeld.segment, hHeld.oldNodup, hHeld.oldOwn⟩, ?_, ?_⟩
      · cases rec with
        | dirUpdate _ => cases hPlain
        | symlinkData _ => cases hPlain
        | inodeFull _ _ => cases hPlain
        | xattrData _ => cases hPlain
        | _ => exact hRec.append trivial fun _ => rfl
      · cases rec with
        | inodeFull _ _ => cases hPlain
        | _ => exact hSnap.append fun _ => rfl
    · cases hEq
  | checkpoint n =>
    cases hEq
    exact ⟨⟨hHeld.segment, hHeld.oldNodup, hHeld.oldOwn⟩, hRec.checkpoint n, hSnap.checkpoint n⟩

theorem Reach.good {start : Live} (hStart : start.AtStart)
    (hRun : Reach (fun s e => e.Calm s) start s) : Good s := by
  induction hRun with
  | start => exact good_start hStart
  | step _ hCalm hEq ih => exact ih.step hCalm hEq

end Runs

end Briefs.Xattr
