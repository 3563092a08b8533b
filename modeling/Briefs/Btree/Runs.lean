import Briefs.Btree.Rebuild

/-!
# BrieFS — every sequence of extent operations

The extent state of one inode under any sequence of insertions, range deletes,
unwritten conversions and rebuilds, with the rest of the file system using the
allocator in between. `Allowed` is what every caller sees to: the ranges are nonempty
and end below 2^64, the data blocks of a new extent are taken and in use nowhere else
in the inode, and nobody else frees a block of the inode.

The one thing that no caller sees to is that a new range stays clear of the separators
of the tree. Range delete leaves separators behind that no extent starts at any more,
`btree_leaf_insert` looks at one leaf only, and lookup routes by the separators. So an
extent that reaches over a separator hides its own tail from lookup, and an overlap
beyond a separator is not noticed. As long as no insertion does that, all is well.

## Results

* `runs_agree` — lookup, search and enumeration agree in every state.
* `runs_wellFormed` — the tree is well formed in every state, and overlaps are found.
* `stale_separator_hides_block`, `overlap_beyond_separator` — what goes wrong otherwise.
-/

namespace Briefs.Btree

open Briefs.Journal

--
-- The content of an inode
--

/-- The content of the children of a node. -/
def kidsContent (content : Nat → Content) (tr : Nat) : List IdxEntry → Content
  | [] => content tr
  | e :: idx => content e.child ++ (Content.sep e.highKey ++ kidsContent content tr idx)

/-- The content below a block, for up to `fuel` levels. -/
def subtreeContent (nodes : Nodes) : Nat → Nat → Content
  | 0, _ => Content.none
  | fuel + 1, block =>
    match nodes block with
    | none => Content.none
    | some (.leaf extents) => ⟨extents, [block], []⟩
    | some (.internal idx tr) =>
      let kids := kidsContent (subtreeContent nodes fuel) tr idx
      ⟨kids.exts, block :: kids.blocks, kids.seps⟩

/-- Everything that the extent index of an inode holds. -/
def File.content (f : File) : Content :=
  if f.indexed then subtreeContent f.nodes levels f.root else ⟨f.inline, [], []⟩

section Content

variable {nodes : Nodes}

theorem kidsContent_eq {content : Nat → Content} {P : Nat → Nat → Nat → Content → Prop} {tr hi : Nat}
    (hP : ∀ b lo hi c, P b lo hi c → content b = c) : ∀ {idx : List IdxEntry} {lo : Nat}
    {c : Content}, Kids P tr idx lo hi c → kidsContent content tr idx = c
  | [], _, _, h => hP _ _ _ _ h
  | _ :: _, _, _, h => by
    obtain ⟨c₁, c₂, rfl, hFirst, hRest⟩ := h
    unfold kidsContent
    rw [hP _ _ _ _ hFirst, kidsContent_eq hP hRest]

theorem Sub.content (fuel : Nat) : ∀ {d block lo hi : Nat} {c : Content}, Sub nodes d block lo hi c →
    subtreeContent nodes (d + 1 + fuel) block = c
  | 0, block, _, _, c, h => by
    have hFuel : 0 + 1 + fuel = fuel + 1 := by omega
    obtain ⟨-, hNode, hBlocks, hSeps, -⟩ := h
    rw [hFuel]
    unfold subtreeContent
    rw [hNode]
    dsimp only
    rw [← hBlocks, ← hSeps]
  | d + 1, block, _, _, _, h => by
    have hFuel : d + 1 + 1 + fuel = (d + 1 + fuel) + 1 := by omega
    obtain ⟨-, idx, tr, kids, hNode, -, rfl, hKids⟩ := h
    rw [hFuel]
    unfold subtreeContent
    rw [hNode]
    dsimp only
    rw [kidsContent_eq (fun _ _ _ _ hc => hc.2.content fuel) hKids]

theorem Holds.content {f : File} {c : Content} (h : Holds f c) : f.content = c := by
  unfold File.content
  by_cases hIdx : f.indexed = true
  · obtain ⟨d, hSub⟩ := h.tree hIdx
    have hLevels := hSub.levels_eq
    rw [if_pos hIdx, hLevels]
    exact hSub.content _
  · obtain ⟨rfl, -⟩ := h.flat (by simpa using hIdx)
    rw [if_neg hIdx]

end Content

--
-- Runs
--

/-- The operations on the extents of an inode; `others` is what the rest of the file
system does with the allocator. -/
inductive Op where
  | insert (ext : Extent)
  | deleteRange (start stop : Nat)
  | convert (start stop : Nat)
  | rebuild (exts : List Extent)
  | others (alloc : Alloc)

/-- One operation: its return code and the state after it. -/
def step (f : File) : Op → Option (Option Errno × File)
  | .insert ext => insertLocked levels f ext
  | .deleteRange start stop => (deleteRange levels f start stop).map fun r => (r.ret, r.file)
  | .convert start stop => convertUnwrittenRange levels f start stop
  | .rebuild exts => rebuildExtentList levels f exts
  | .others alloc => some (none, { f with alloc := alloc })

/-- What the callers of an operation see to. -/
def Allowed (f : File) : Op → Prop
  | .insert ext => 0 < ext.len ∧ ext.stop < fileTop ∧
      Owns f f.content.blocks (cells f.content.exts ++ ext.cells)
  | .deleteRange _ _ => True
  | .convert start stop => start < stop ∧ start < fileTop
  | .rebuild exts => (∀ e ∈ exts, 0 < e.len ∧ e.stop < fileTop) ∧ Distinct (cells exts) ∧
      Owns f f.content.blocks (cells exts)
  | .others alloc => alloc.Healthy ∧
      (∀ b ∈ f.content.blocks, Allocated { f with alloc := alloc } b) ∧
      Owns { f with alloc := alloc } f.content.blocks (cells f.content.exts)

/-- The states that a run of operations goes through, each step under `P`. -/
inductive Runs (P : File → Op → Prop) (f : File) : File → Prop
  | refl : Runs P f f
  | step {g h : File} {op : Op} {code : Option Errno} :
      Runs P f g → P g op → step g op = some (code, h) → Runs P f h

/-- An inode without extents. -/
structure File.IsEmpty (f : File) : Prop where
  indexed : f.indexed = false
  inline  : f.inline = []
  total   : f.total = 0
  sound   : f.alloc.Healthy

/-- The extent state is sound: nothing is lost or shared. -/
structure Sound (f : File) : Prop where
  holds : Holds f f.content
  owns  : Owns f f.content.blocks (cells f.content.exts)

/-- And nothing is out of place. -/
structure Good (f : File) : Prop extends Sound f where
  noCross : NoCross f.content

theorem sound_of_content {f : File} {c : Content} (h : Holds f c)
    (hOwns : Owns f c.blocks (cells c.exts)) : Sound f := by
  have hEq := h.content
  exact ⟨hEq.symm ▸ h, hEq.symm ▸ hOwns⟩

theorem File.IsEmpty.content {f : File} (h : f.IsEmpty) : f.content = Content.none := by
  unfold File.content
  rw [h.indexed, h.inline]
  rfl

theorem File.IsEmpty.good {f : File} (h : f.IsEmpty) : Good f := by
  have hNone : Holds f Content.none ∧ Owns f [] (cells []) := by
    refine ⟨⟨fun hNo => ?_, fun _ => ⟨?_, ?_, ?_⟩, List.nodup_nil, nofun, nofun, h.sound⟩,
      nofun, nofun, List.nodup_nil⟩
    · rw [h.indexed] at hNo
      cases hNo
    · rw [h.inline]
      rfl
    · rw [h.inline]
      exact ⟨List.Pairwise.nil, nofun, nofun, Nat.zero_le _⟩
    · rw [h.inline]
      exact Nat.zero_le _
  refine ⟨sound_of_content hNone.1 hNone.2, ?_⟩
  rw [h.content]
  exact nofun

--
-- One step
--

/-- A new range has no separator strictly inside, nor the key that the leaf it is routed
to splits at when it is full. -/
def Avoids (f : File) : Op → Prop
  | .insert ext => Clear f.content (f.routed ext.offset) ext
  | _ => True

/-- There are blocks for new nodes when an extent has to be cut in two, and when an overlap
is to be found: a tree over 64-bit blocks has at most ten levels, and a split root needs
one more. -/
def Roomy (f : File) : Op → Prop
  | .insert ext => (∃ e ∈ f.content.exts, e.overlaps ext) → ¬ Exhausts 11 f.alloc
  | .deleteRange _ stop => ∀ y ∈ f.content.exts, y.offset < stop → stop < y.stop →
      ¬ Exhausts 11 f.alloc
  | _ => True

/-- The tail cache is known, or what is put in ends last. -/
def Known (f : File) : Op → Prop
  | .insert ext => f.maxEnd = 0 → ∀ e ∈ f.content.exts, e.stop ≤ ext.stop
  | .deleteRange _ stop => f.maxEnd = 0 → ∀ y ∈ f.content.exts, y.offset < stop → stop < y.stop →
      ∀ e ∈ f.content.exts, e.stop ≤ y.stop
  | .convert _ _ => f.maxEnd ≠ 0
  | _ => True

/-- What one operation leaves. -/
structure StepDone (f : File) (op : Op) (g : File) : Prop where
  sound : Sound g
  tidy  : NoCross f.content → Avoids f op → NoCross g.content
  total : NoCross f.content → f.total = f.content.exts.length → Roomy f op →
    g.total = g.content.exts.length
  tail  : TailOk f.maxEnd f.content.exts → Known f op → TailOk g.maxEnd g.content.exts

section Step

variable {f : File}

theorem ten_le_levels : 10 ≤ levels := by decide

/-- What an insertion leaves of the ownership. -/
theorem InsertDone.owns {c c' : Content} {ext : Extent} {code : Option Errno} {g : File}
    (h : InsertDone f c ext code g c') (hOwns : Owns f c.blocks (cells c.exts ++ ext.cells)) :
    Owns g c'.blocks (cells c'.exts) := by
  have hAll := hOwns.expand h.grows
  cases code with
  | some err =>
    rw [h.same (by simp)]
    exact hAll.left
  | none => exact hAll.perm (h.done rfl).symm

/-- Where the extents end after an insertion. -/
theorem InsertDone.tail {c c' : Content} {ext : Extent} {code : Option Errno} {g : File}
    (h : InsertDone f c ext code g c') (hOk : TailOk f.maxEnd c.exts)
    (hKnown : f.maxEnd = 0 → ∀ e ∈ c.exts, e.stop ≤ ext.stop) : TailOk g.maxEnd c'.exts := by
  have hMax := h.maxEnd
  have hOld : ∀ e ∈ c.exts, e.stop ≤ g.maxEnd := by
    intro e he
    rw [hMax]
    rcases hOk with hZero | hAll
    · exact Nat.le_trans (hKnown hZero e he) (Nat.le_max_right _ _)
    · exact Nat.le_trans (hAll e he) (Nat.le_max_left _ _)
  refine Or.inr ?_
  cases code with
  | some err =>
    rw [h.same (by simp)]
    exact hOld
  | none =>
    refine stop_le_of_cells h.holds.pos fun x hx => ?_
    rcases List.mem_append.mp ((h.done rfl).mem_iff.mp hx) with hx | hx
    · exact lt_of_cells hOld x hx
    · obtain ⟨b, p, fl⟩ := x
      obtain ⟨⟨-, hHi⟩, -⟩ := mem_extent_cells.mp hx
      have hStop : ext.stop ≤ g.maxEnd := by
        rw [hMax]
        exact Nat.le_max_right _ _
      exact Nat.lt_of_lt_of_le hHi hStop

theorem stepDone_of_content {op : Op} {g : File} {c : Content} (hHolds : Holds g c)
    (hOwns : Owns g c.blocks (cells c.exts))
    (hTidy : NoCross f.content → Avoids f op → NoCross c)
    (hTotal : NoCross f.content → f.total = f.content.exts.length → Roomy f op →
      g.total = c.exts.length)
    (hTail : TailOk f.maxEnd f.content.exts → Known f op → TailOk g.maxEnd c.exts) :
    StepDone f op g := by
  have hEq := hHolds.content
  exact ⟨sound_of_content hHolds hOwns, hEq.symm ▸ hTidy, hEq.symm ▸ hTotal, hEq.symm ▸ hTail⟩

/-- Every operation leaves a sound state, and one that keeps clear of the separators
leaves no extent across a separator. -/
theorem Sound.step (h : Sound f) {op : Op} (hAllowed : Allowed f op) :
    ∃ code g, step f op = some (code, g) ∧ StepDone f op g := by
  cases op with
  | insert ext =>
    obtain ⟨hLen, hStop, hOwns⟩ := hAllowed
    obtain ⟨code, g, c', hEq, hd⟩ := insertLocked_spec h.holds hLen hStop ten_le_levels
    exact ⟨code, g, hEq, stepDone_of_content hd.holds (hd.owns hOwns)
      (fun hNo hAvoids => (hd.tidy hNo hAvoids).1) (fun _ hTotal _ => hd.total hTotal)
      fun hOk hKnown => hd.tail hOk hKnown⟩
  | deleteRange start stop =>
    obtain ⟨r, c', hEq, hd⟩ := deleteRange_spec h.holds h.owns ten_le_levels start stop
    refine ⟨r.ret, r.file, ?_, stepDone_of_content hd.holds hd.owns (fun hNo _ => hd.tidy hNo)
      (fun hNo hTotal hRoom => hd.total hNo hTotal hRoom) fun hOk hKnown => hd.tail hOk hKnown⟩
    show (deleteRange levels f start stop).map _ = _
    rw [hEq]
    rfl
  | convert start stop =>
    obtain ⟨hRange, hTop⟩ := hAllowed
    obtain ⟨code, g, c', hEq, hd⟩ :=
      convertUnwrittenRange_spec h.holds h.owns hRange hTop ten_le_levels
    exact ⟨code, g, hEq, stepDone_of_content hd.holds hd.owns (fun hNo _ => hd.tidy hNo)
      (fun _ hTotal _ => hd.total hTotal)
      fun hOk hKnown => Or.inr (hd.tail (hOk.resolve_left hKnown))⟩
  | rebuild exts =>
    obtain ⟨hFits, hDist, hOwns⟩ := hAllowed
    obtain ⟨code, g, c', hEq, hd⟩ := rebuildExtentList_spec h.holds hOwns hFits ten_le_levels
    exact ⟨code, g, hEq, stepDone_of_content hd.holds hd.owns (fun _ _ => hd.tidy hDist)
      (fun _ _ _ => hd.total) fun _ _ => Or.inr hd.tail⟩
  | others alloc =>
    obtain ⟨hSound, hOwned, hOwns⟩ := hAllowed
    have hHolds : Holds { f with alloc := alloc } f.content :=
      ⟨h.holds.tree, h.holds.flat, h.holds.nodup, hOwned, h.holds.stops, hSound⟩
    exact ⟨none, _, rfl, stepDone_of_content hHolds hOwns (fun hNo _ => hNo)
      (fun _ hTotal _ => hTotal) fun hOk _ => hOk⟩

/-- Every operation that keeps clear of the separators keeps a good state. -/
theorem Good.step (h : Good f) {op : Op} (hAllowed : Allowed f op) (hAvoids : Avoids f op) :
    ∃ code g, step f op = some (code, g) ∧ Good g ∧ StepDone f op g := by
  obtain ⟨code, g, hEq, hDone⟩ := h.toSound.step hAllowed
  exact ⟨code, g, hEq, ⟨hDone.sound, hDone.tidy h.noCross hAvoids⟩, hDone⟩

end Step

--
-- All steps
--

section Runs

variable {P : File → Op → Prop} {f g : File}

/-- A run of allowed operations stays sound. -/
theorem Runs.sound (hRun : Runs P f g) (hP : ∀ f op, P f op → Allowed f op) (h : Sound f) :
    Sound g := by
  induction hRun with
  | refl => exact h
  | step _ hStep hEq ih =>
    obtain ⟨code, g', hEq', hDone⟩ := ih.step (hP _ _ hStep)
    rw [hEq] at hEq'
    obtain ⟨-, rfl⟩ := Prod.mk.inj (Option.some.inj hEq')
    exact hDone.sound

/-- A run whose steps keep clear of the separators stays good. -/
theorem Runs.good (hRun : Runs P f g) (hP : ∀ f op, Good f → P f op → Allowed f op ∧ Avoids f op)
    (h : Good f) : Good g := by
  induction hRun with
  | refl => exact h
  | step _ hStep hEq ih =>
    obtain ⟨hAllowed, hAvoids⟩ := hP _ _ ih hStep
    obtain ⟨code, g', hEq', hGood, -⟩ := ih.step hAllowed hAvoids
    rw [hEq] at hEq'
    obtain ⟨-, rfl⟩ := Prod.mk.inj (Option.some.inj hEq')
    exact hGood

end Runs

--
-- Reading
--

/-- A new range overlaps no mapped block. -/
def NoOverlap (f : File) : Op → Prop
  | .insert ext => ∀ e ∈ f.content.exts, ¬ e.overlaps ext
  | _ => True

/-- A new range has no separator of the tree strictly inside. -/
def OffSeparators (f : File) : Op → Prop
  | .insert ext => ∀ k ∈ f.content.seps, ¬ ext.crosses k
  | _ => True

/-- A range that overlaps nothing has no offset of an extent strictly inside either. -/
theorem Good.avoids {f : File} (h : Good f) {op : Op} (hAllowed : Allowed f op)
    (hNone : NoOverlap f op) (hSeps : OffSeparators f op) : Avoids f op := by
  cases op with
  | insert ext =>
    obtain ⟨-, hStop, -⟩ := hAllowed
    have hKey : ext.offset < fileTop := by
      unfold Extent.stop at hStop
      omega
    rintro k (hk | hk) ⟨hLo, hHi⟩
    · exact hSeps k hk ⟨hLo, hHi⟩
    · obtain ⟨x, hx, rfl⟩ := hk.mem
      have hIn := h.holds.routed_subset hKey hx
      have hLen := h.holds.pos x hIn
      refine hNone x hIn ⟨hHi, ?_⟩
      unfold Extent.stop
      omega
  | deleteRange start stop => trivial
  | convert start stop => trivial
  | rebuild exts => trivial
  | others alloc => trivial

/-- Lookup, search and enumeration agree in every state that an empty inode reaches, as
long as no new range has a separator strictly inside. -/
theorem runs_agree {f g : File} (hNew : f.IsEmpty)
    (hRun : Runs (fun f op => Allowed f op ∧ NoOverlap f op ∧ OffSeparators f op) f g) :
    Agrees g := by
  have hGood : Good g := hRun.good (fun _ _ hGood ⟨hAllowed, hNone, hSeps⟩ =>
    ⟨hAllowed, hGood.avoids hAllowed hNone hSeps⟩) hNew.good
  exact hGood.holds.agrees hGood.noCross

/-- A device of 256 blocks; the first three quarters are taken. -/
def pool : Alloc where
  l0 := fun _ => 0#64
  l1 := fun _ => 0#64
  l2 := fun i => if i < 3 then 0#64 else ~~~ 0#64
  l0Words := 1
  l1Words := 1
  l2Words := 4
  blockCount := 256
  freeCount := 0#64
  metaShield := 0#64
  roverW0 := 0
  roverW2High := 0
  firstFreeW2 := 3
  l2Dirty := fun _ => false
  hL2 := by decide
  hL1 := by decide
  hL0 := Alloc.one_le_word

/-- An inode without extents on that device. -/
def newFile : File where
  nodes := fun _ => none
  alloc := pool.recomputeSummaries
  dataStart := 1000
  indexed := false
  root := 0
  inline := []
  total := 0
  maxEnd := 0
  commits := []
  published := []

/-- 127 single blocks with holes between them, one more than a leaf holds. -/
def evens : List Extent := (List.range 127).map fun i => ⟨2 * i, 1001 + i, 1, 0⟩

/-- The state after an operation. -/
def File.after (f : File) (op : Op) : File :=
  match step f op with
  | some (_, g) => g
  | none => f

theorem File.after_eq {f g : File} {op : Op} {code : Option Errno}
    (h : step f op = some (code, g)) : f.after op = g := by
  unfold File.after
  rw [h]

theorem Good.after {f : File} (h : Good f) (op : Op) (hAllowed : Allowed f op)
    (hAvoids : Avoids f op) : ∃ code, Btree.step f op = some (code, f.after op) ∧ Good (f.after op) := by
  obtain ⟨code, g, hEq, hGood, -⟩ := h.step hAllowed hAvoids
  rw [File.after_eq hEq]
  exact ⟨code, hEq, hGood⟩

/-- After the leaf has split. -/
def splitFile : File := newFile.after (.rebuild evens)

/-- After the block at the separator was punched out. -/
def gapFile : File := splitFile.after (.deleteRange 126 127)

/-- After a range over the separator was put in. -/
def staleFile : File := gapFile.after (.insert ⟨125, 1150, 2, 0⟩)

/-- Whether a block may be given to an inode. -/
def File.spare (f : File) (p : Nat) : Bool :=
  decide (f.dataStart < p) && !f.alloc.isFree (p - f.dataStart) && !f.content.blocks.contains p &&
    !((cells f.content.exts).map fun x => x.2.1).contains p

theorem Owns.spare {f : File} {cs : List (Nat × Nat × Nat)}
    (h : Owns f f.content.blocks (cells f.content.exts)) (hSpare : ∀ x ∈ cs, f.spare x.2.1 = true)
    (hOnce : (cs.map fun x => x.2.1).Nodup) :
    Owns f f.content.blocks (cells f.content.exts ++ cs) := by
  have hParts : ∀ x ∈ cs, Allocated f x.2.1 ∧ x.2.1 ∉ f.content.blocks ∧
      x.2.1 ∉ (cells f.content.exts).map fun x => x.2.1 := by
    intro x hx
    have hAll := hSpare x hx
    unfold File.spare at hAll
    simp only [Bool.and_eq_true, decide_eq_true_eq, Bool.not_eq_true', List.contains_eq_mem,
      decide_eq_false_iff_not] at hAll
    obtain ⟨⟨⟨hData, hTaken⟩, hNode⟩, hFree⟩ := hAll
    exact ⟨⟨x.2.1 - f.dataStart, by omega, by omega, hTaken⟩, hNode, hFree⟩
  refine ⟨?_, ?_, ?_⟩
  · intro x hx
    rcases List.mem_append.mp hx with hx | hx
    · exact h.taken x hx
    · exact (hParts x hx).1
  · intro x hx
    rcases List.mem_append.mp hx with hx | hx
    · exact h.apart x hx
    · exact (hParts x hx).2.1
  · rw [List.map_append, List.nodup_append]
    refine ⟨h.once, hOnce, ?_⟩
    rintro p hp q hq rfl
    obtain ⟨x, hx, rfl⟩ := List.mem_map.mp hq
    exact (hParts x hx).2.2 hp

theorem newFile_isEmpty : newFile.IsEmpty := by
  refine ⟨rfl, rfl, rfl, ⟨Alloc.consistent_recomputeSummaries ⟨by decide, by decide⟩ ?_, by decide⟩⟩
  intro i hi _
  have hLow : i < 3 := hi
  show (if i < 3 then 0#64 else ~~~ 0#64) = 0#64
  rw [if_pos hLow]

theorem evens_allowed : Allowed newFile (.rebuild evens) := by
  refine ⟨by decide +kernel, by decide +kernel, ?_⟩
  have hSpare : ∀ x ∈ cells evens, newFile.spare x.2.1 = true := by decide +kernel
  exact newFile_isEmpty.good.owns.spare hSpare (by decide +kernel)

/-- The run up to the hole. -/
theorem gapFile_run {P : File → Op → Prop} (hRebuild : P newFile (.rebuild evens))
    (hPunch : P splitFile (.deleteRange 126 127)) :
    Runs P newFile splitFile ∧ Good splitFile ∧ Runs P newFile gapFile ∧ Good gapFile := by
  obtain ⟨code, hEq, hGood⟩ := newFile_isEmpty.good.after _ evens_allowed trivial
  have hRun : Runs P newFile splitFile := Runs.refl.step hRebuild hEq
  obtain ⟨code', hEq', hGood'⟩ := hGood.after (.deleteRange 126 127) trivial trivial
  exact ⟨hRun, hGood, hRun.step hPunch hEq', hGood'⟩

/-- An operation succeeded, and both extents are enumerated after it. -/
def succeedsWith (r : Option (Option Errno × File)) (a b : Extent) : Bool :=
  match r with
  | some (none, h) =>
    match forEachExtent h with
    | .ok l => l.contains a && l.contains b
    | .error _ => false
  | _ => false

theorem mem_of_succeedsWith {r : Option (Option Errno × File)} {a b : Extent}
    (h : succeedsWith r a b = true) :
    ∃ h l, r = some (none, h) ∧ forEachExtent h = .ok l ∧ a ∈ l ∧ b ∈ l := by
  unfold succeedsWith at h
  split at h
  · split at h
    · rename_i g _ l hEnum
      rw [Bool.and_eq_true, List.contains_iff_mem, List.contains_iff_mem] at h
      exact ⟨g, l, rfl, hEnum, h.1, h.2⟩
    · cases h
  · cases h

/-- What the states hold: the separator stays 126 when block 126 goes, and the range over
it is put in beside it. -/
theorem gapFile_facts :
    gapFile.content.seps = [126] ∧
    (∀ p ∈ [1150, 1151], gapFile.spare p = true) ∧
    (∀ e ∈ gapFile.content.exts, ¬ e.overlaps ⟨125, 1150, 2, 0⟩) ∧
    lookupIblock staleFile 126 = some (.error .enoent) ∧
    (match forEachExtent staleFile with
      | .ok l => l.any fun e => decide (e.covers 126)
      | .error _ => false) = true ∧
    (∀ p ∈ [1150, 1151, 1152], splitFile.spare p = true) ∧
    splitFile.content.exts.contains ⟨126, 1064, 1, 0⟩ = true ∧
    succeedsWith (step splitFile (.insert ⟨125, 1150, 3, 0⟩)) ⟨125, 1150, 3, 0⟩
      ⟨126, 1064, 1, 0⟩ = true ∧
    ¬ Exhausts 11 splitFile.alloc := by
  decide +kernel

/-- Putting in a clear range after the hole was punched. -/
theorem runs_agree_beside_separator : Agrees (gapFile.after (.insert ⟨125, 1150, 1, 0⟩)) := by
  obtain ⟨hSeps, hSpare, hNone, -⟩ := gapFile_facts
  obtain ⟨-, -, hRun, hGood⟩ := gapFile_run
    (P := fun f op => Allowed f op ∧ NoOverlap f op ∧ OffSeparators f op)
    ⟨evens_allowed, trivial, trivial⟩ ⟨trivial, trivial, trivial⟩
  have hAllowed : Allowed gapFile (.insert ⟨125, 1150, 1, 0⟩) := by
    refine ⟨by decide, by decide, hGood.owns.spare ?_ (by decide)⟩
    intro x hx
    obtain rfl : x = (125, 1150, 0) := by simpa [Extent.cells] using hx
    exact hSpare 1150 (by decide)
  have hNoOverlap : NoOverlap gapFile (.insert ⟨125, 1150, 1, 0⟩) := by
    rintro e he ⟨hLo, hHi⟩
    refine hNone e he ⟨?_, hHi⟩
    unfold Extent.stop at *
    dsimp only at *
    omega
  have hOff : OffSeparators gapFile (.insert ⟨125, 1150, 1, 0⟩) := by
    intro k hk
    rw [hSeps, List.mem_singleton] at hk
    rw [hk]
    decide
  obtain ⟨code, hEq, -⟩ := hGood.after _ hAllowed (hGood.avoids hAllowed hNoOverlap hOff)
  exact runs_agree newFile_isEmpty (hRun.step ⟨hAllowed, hNoOverlap, hOff⟩ hEq)

/-- A stale separator hides a mapped block: 127 extents split the leaf at 126, block 126 is
punched out, and blocks 125 and 126 are put in as one extent. Lookup of block 126 is routed
to the right leaf and fails, while the enumeration has it. -/
theorem stale_separator_hides_block :
    newFile.IsEmpty ∧ Runs (fun f op => Allowed f op ∧ NoOverlap f op) newFile staleFile ∧
      ¬ Agrees staleFile := by
  obtain ⟨-, hSpare, hNone, hMiss, hThere, -⟩ := gapFile_facts
  obtain ⟨-, -, hRun, hGood⟩ := gapFile_run (P := fun f op => Allowed f op ∧ NoOverlap f op)
    ⟨evens_allowed, trivial⟩ ⟨trivial, trivial⟩
  refine ⟨newFile_isEmpty, ?_, ?_⟩
  · have hOwns : Owns gapFile gapFile.content.blocks
        (cells gapFile.content.exts ++ (⟨125, 1150, 2, 0⟩ : Extent).cells) := by
      refine hGood.owns.spare ?_ (by decide)
      intro x hx
      have hCases : x = (125, 1150, 0) ∨ x = (126, 1151, 0) := by
        simpa [Extent.cells, List.range_succ] using hx
      rcases hCases with rfl | rfl
      · exact hSpare 1150 (by decide)
      · exact hSpare 1151 (by decide)
    have hStop : (⟨125, 1150, 2, 0⟩ : Extent).stop < fileTop := by decide
    obtain ⟨code, g, c', hEq, -⟩ :=
      insertLocked_spec hGood.holds (by decide) hStop ten_le_levels
    have hStep : step gapFile (.insert ⟨125, 1150, 2, 0⟩) = some (code, g) := hEq
    have hAfter : staleFile = g := File.after_eq hStep
    rw [hAfter]
    have hAllowed : Allowed gapFile (.insert ⟨125, 1150, 2, 0⟩) := ⟨by decide, hStop, hOwns⟩
    exact hRun.step ⟨hAllowed, hNone⟩ hStep
  · rintro ⟨l, hEnum, hAgree⟩
    rw [hEnum] at hThere
    obtain ⟨e, he, hCov⟩ := List.any_eq_true.mp hThere
    obtain ⟨hLookup, -⟩ := hAgree 126 (by decide)
    have hFound := (hLookup e).mpr ⟨he, by simpa using hCov⟩
    rw [hMiss] at hFound
    cases hFound

--
-- Shape
--

/-- All leaves below a block are `d` levels down, no node is over its capacity, and the
separators of every internal node increase. -/
def Balanced (nodes : Nodes) : Nat → Nat → Prop
  | 0, block => ∃ extents, nodes block = some (.leaf extents) ∧ extents.length ≤ 126
  | d + 1, block => ∃ idx tr, nodes block = some (.internal idx tr) ∧ idx.length ≤ 253 ∧
      (idx.map IdxEntry.highKey).Pairwise (· < ·) ∧ ∀ child ∈ childList idx tr, Balanced nodes d child

/-- The extent index of an inode is well formed. -/
structure WellFormed (f : File) : Prop where
  balanced   : f.indexed = true → ∃ d, Balanced f.nodes d f.root
  enumerated : ∃ l, forEachExtent f = .ok l ∧ (l.Pairwise fun a b => a.offset < b.offset) ∧
    Ordered l ∧ f.total = l.length

section Balanced

variable {P : Nat → Nat → Nat → Content → Prop} {tr hi : Nat}

theorem Kids.keys_gt (hLt : ∀ b lo hi c, P b lo hi c → lo < hi) : ∀ {idx : List IdxEntry} {lo : Nat}
    {c : Content}, Kids P tr idx lo hi c → ∀ k ∈ idx.map IdxEntry.highKey, lo < k
  | [], _, _, _, _, hk => absurd hk List.not_mem_nil
  | e :: idx, lo, _, h, k, hk => by
    obtain ⟨c₁, c₂, rfl, hFirst, hRest⟩ := h
    have hHead := hLt _ _ _ _ hFirst
    rcases List.mem_cons.mp hk with rfl | hk
    · exact hHead
    · exact Nat.lt_trans hHead (hRest.keys_gt hLt k hk)

theorem Kids.keys_increase (hLt : ∀ b lo hi c, P b lo hi c → lo < hi) : ∀ {idx : List IdxEntry}
    {lo : Nat} {c : Content}, Kids P tr idx lo hi c → (idx.map IdxEntry.highKey).Pairwise (· < ·)
  | [], _, _, _ => List.Pairwise.nil
  | e :: idx, _, _, h => by
    obtain ⟨c₁, c₂, rfl, -, hRest⟩ := h
    exact List.pairwise_cons.mpr ⟨hRest.keys_gt hLt, hRest.keys_increase hLt⟩

theorem Kids.child {b : Nat} : ∀ {idx : List IdxEntry} {lo : Nat} {c : Content},
    Kids P tr idx lo hi c → b ∈ childList idx tr → ∃ lo hi c, P b lo hi c
  | [], _, _, h, hb => by
    rw [show b = tr from List.mem_singleton.mp hb]
    exact ⟨_, _, _, h⟩
  | e :: idx, _, _, h, hb => by
    obtain ⟨c₁, c₂, rfl, hFirst, hRest⟩ := h
    rcases List.mem_cons.mp hb with rfl | hb
    · exact ⟨_, _, _, hFirst⟩
    · exact hRest.child hb

theorem Sub.balanced {nodes : Nodes} : ∀ {d block lo hi : Nat} {c : Content},
    Sub nodes d block lo hi c → Balanced nodes d block
  | 0, _, _, _, c, h => by
    obtain ⟨-, hNode, -, -, hLeaf⟩ := h
    exact ⟨c.exts, hNode, hLeaf.fanout⟩
  | d + 1, _, _, _, _, h => by
    obtain ⟨-, idx, tr, kids, hNode, hKeys, -, hKids⟩ := h
    refine ⟨idx, tr, hNode, hKeys, hKids.keys_increase fun _ _ _ _ hChild => hChild.1.lt, ?_⟩
    intro child hIn
    obtain ⟨_, _, _, hChild⟩ := hKids.child hIn
    exact hChild.2.balanced

end Balanced

/-- A good state with the right count is well formed. -/
theorem Good.wellFormed {f : File} (h : Good f) (hTotal : f.total = f.content.exts.length) :
    WellFormed f := by
  have hOrd := h.holds.ordered h.noCross
  refine ⟨?_, f.content.exts, h.holds.forEachExtent, ?_, hOrd, hTotal⟩
  · intro hIdx
    obtain ⟨d, hSub⟩ := h.holds.tree hIdx
    exact ⟨d, hSub.balanced⟩
  · refine List.Pairwise.imp_of_mem ?_ hOrd
    intro a b ha _ hApart
    have hLen := h.holds.pos a ha
    unfold Extent.stop at hApart
    omega

/-- A range that overlaps a mapped block is refused. -/
theorem Good.insert_overlap {f : File} (h : Good f) {ext : Extent} (hAllowed : Allowed f (.insert ext))
    (hAvoids : Avoids f (.insert ext)) (hRoomy : Roomy f (.insert ext))
    (hOver : ∃ e ∈ f.content.exts, e.overlaps ext) :
    ∃ g, Btree.step f (.insert ext) = some (some .eexist, g) := by
  obtain ⟨hLen, hStop, -⟩ := hAllowed
  obtain ⟨code, g, c', hEq, hd⟩ := insertLocked_spec h.holds hLen hStop ten_le_levels
  rcases hd.codes with rfl | rfl | rfl
  · obtain ⟨e, he, hBad⟩ := hOver
    exact absurd hBad ((hd.tidy h.noCross hAvoids).2 rfl e he)
  · exact ⟨g, hEq⟩
  · exact absurd (hd.nospc rfl) (hRoomy hOver)

/-- The tree is well formed in every state that an empty inode reaches, and a range that
overlaps a mapped block is refused, as long as no new range has a separator strictly
inside and there is room where the operations need it. -/
theorem runs_wellFormed {f g : File} (hNew : f.IsEmpty)
    (hRun : Runs (fun f op => Allowed f op ∧ Avoids f op ∧ Roomy f op) f g) :
    WellFormed g ∧ ∀ ext, Allowed g (.insert ext) → Avoids g (.insert ext) →
      Roomy g (.insert ext) → (∃ e ∈ g.content.exts, e.overlaps ext) →
      ∃ h, step g (.insert ext) = some (some .eexist, h) := by
  have hBoth : Good g ∧ g.total = g.content.exts.length := by
    induction hRun with
    | refl =>
      refine ⟨hNew.good, ?_⟩
      rw [hNew.total, hNew.content]
      rfl
    | step _ hStep hEq ih =>
      obtain ⟨hAllowed, hAvoids, hRoomy⟩ := hStep
      obtain ⟨hGood, hTotal⟩ := ih
      obtain ⟨code, g', hEq', hGood', hDone⟩ := hGood.step hAllowed hAvoids
      rw [hEq] at hEq'
      obtain ⟨-, rfl⟩ := Prod.mk.inj (Option.some.inj hEq')
      exact ⟨hGood', hDone.total hGood.noCross hTotal hRoomy⟩
  exact ⟨hBoth.1.wellFormed hBoth.2, fun ext => hBoth.1.insert_overlap⟩

/-- A second insertion of the block at the separator is refused. -/
theorem runs_wellFormed_at_separator : WellFormed splitFile ∧
    ∃ h, step splitFile (.insert ⟨126, 1150, 1, 0⟩) = some (some .eexist, h) := by
  obtain ⟨-, -, -, -, -, hSpare, hThere, -, hFree⟩ := gapFile_facts
  obtain ⟨hRun, hGood, -⟩ := gapFile_run
    (P := fun f op => Allowed f op ∧ Avoids f op ∧ Roomy f op)
    ⟨evens_allowed, trivial, trivial⟩ ⟨trivial, trivial, fun _ _ _ _ => hFree⟩
  obtain ⟨hForm, hRefused⟩ := runs_wellFormed newFile_isEmpty hRun
  refine ⟨hForm, hRefused _ ⟨by decide, by decide, hGood.owns.spare ?_ (by decide)⟩ ?_
    (fun _ => hFree) ?_⟩
  · intro x hx
    obtain rfl : x = (126, 1150, 0) := by simpa [Extent.cells] using hx
    exact hSpare 1150 (by decide)
  · rintro k - ⟨hLo, hHi⟩
    unfold Extent.stop at hHi
    dsimp only at hLo hHi
    omega
  · exact ⟨_, List.contains_iff_mem.mp hThere, by decide⟩

/-- An overlap beyond a separator is not found: 127 extents split the leaf at 126, and
blocks 125 to 127 are put in as one extent although block 126 is mapped. -/
theorem overlap_beyond_separator :
    newFile.IsEmpty ∧ Runs Allowed newFile splitFile ∧
      Allowed splitFile (.insert ⟨125, 1150, 3, 0⟩) ∧
      (∃ e ∈ splitFile.content.exts, e.overlaps ⟨125, 1150, 3, 0⟩) ∧
      ∃ h, step splitFile (.insert ⟨125, 1150, 3, 0⟩) = some (none, h) ∧ ¬ WellFormed h := by
  obtain ⟨-, -, -, -, -, hSpare, hThere, hAfter, -⟩ := gapFile_facts
  obtain ⟨hRun, hGood, -⟩ := gapFile_run (P := Allowed) evens_allowed trivial
  refine ⟨newFile_isEmpty, hRun, ⟨by decide, by decide, hGood.owns.spare ?_ (by decide)⟩, ?_, ?_⟩
  · intro x hx
    have hCases : x = (125, 1150, 0) ∨ x = (126, 1151, 0) ∨ x = (127, 1152, 0) := by
      simpa [Extent.cells, List.range_succ] using hx
    rcases hCases with rfl | rfl | rfl
    · exact hSpare 1150 (by decide)
    · exact hSpare 1151 (by decide)
    · exact hSpare 1152 (by decide)
  · exact ⟨_, List.contains_iff_mem.mp hThere, by decide⟩
  · obtain ⟨h, l, hStep, hEnum, hNew, hOld⟩ := mem_of_succeedsWith hAfter
    refine ⟨h, hStep, ?_⟩
    rintro ⟨-, l', hEnum', -, hOrd, -⟩
    rw [hEnum] at hEnum'
    obtain rfl : l = l' := by injection hEnum'
    rcases hOrd.apart hNew hOld with hEq | hBefore | hAfter
    · exact absurd hEq (by decide)
    · exact absurd hBefore (by decide)
    · exact absurd hAfter (by decide)

end Briefs.Btree
