import Briefs.Trie.Frame

/-!
# BrieFS — isolation of directories

The operations on one directory, step by step: every node they read or store into is not
of `T`, the nodes of other directories. What they do to `T` is then known from the pages.

## Results

* `Op.keeps` — an operation keeps the invariant of `Trie.Frame`.
* `others_untouched_iff` — the nodes of other directories keep every byte in all states of
  an operation iff no compaction finds one of their names out of place.
* `compaction_moves_other` — naming a node of one directory moves a name of another.
-/

namespace Briefs.Trie

open TrieM

--
-- Operations
--

/-- A call on a directory. -/
inductive Op where
  | insert (name : List UInt8) (ino type : Nat)
  | remove (name : List UInt8)
  | update (name : List UInt8) (ino type : Nat)

/-- The call on the directory with the root; a removal ends with the nodes freed. -/
def Op.run (root : Nat) : Op → TrieM Unit
  | .insert name ino type => do
    let _ ← trieInsert root name ino type
    ret ()
  | .remove name => do
    let (_, freed) ← trieRemove root name
    freeList freed
  | .update name ino type => trieUpdateEntry root name ino type

variable {T : Set Nat} {start : Pages}

--
-- Children
--

theorem keeps_findInChain (b : UInt8) : ∀ (fuel : Nat) {prev child : Nat}, prev ∉ T → child ∉ T →
    Keeps T start (findInChain b fuel prev child) fun r => r.1 ∉ T ∧ r.2 ∉ T := by
  intro fuel
  induction fuel with
  | zero =>
    intro prev child _ _
    unfold findInChain
    exact .ite (fun _ => .fail _) fun _ => .fail _
  | succ fuel ih =>
    intro prev child hPrev hChild
    unfold findInChain
    refine .ite (fun _ => .fail _) fun _ => ?_
    refine .bind (Keeps.readSlot hChild).attempt fun got hGot => ?_
    cases got with
    | error e => exact .fail _
    | ok n =>
      refine .ite (fun _ => .ret ⟨hChild, hPrev⟩) fun _ => ?_
      exact ih hChild (hGot n rfl).2

theorem keeps_findChildWithPrev {parent : Nat} (hZero : 0 ∉ T) (hParent : parent ∉ T) (b : UInt8) :
    Keeps T start (findChildWithPrev parent b) fun r => r.1 ∉ T ∧ r.2 ∉ T := by
  unfold findChildWithPrev
  refine .bind (Keeps.readSlot hParent) fun n hn => ?_
  exact keeps_findInChain b _ hZero hn.1

theorem keeps_findChild {parent : Nat} (hZero : 0 ∉ T) (hParent : parent ∉ T) (b : UInt8) :
    Keeps T start (findChild parent b) fun ref => ref ∉ T := by
  unfold findChild
  refine .bind (keeps_findChildWithPrev hZero hParent b).attempt fun got hGot => ?_
  cases got with
  | ok r => exact .ret (hGot r rfl).1
  | error e => exact .ret hZero

theorem keeps_lastSibling : ∀ (fuel : Nat) {last : Nat}, last ∉ T →
    Keeps T start (lastSibling fuel last) fun ref => ref ∉ T := by
  intro fuel
  induction fuel with
  | zero =>
    intro last hLast
    unfold lastSibling
    refine .bind (Keeps.readSlot hLast) fun n hn => ?_
    exact .ite (fun _ => .ret hLast) fun _ => .fail _
  | succ fuel ih =>
    intro last hLast
    unfold lastSibling
    refine .bind (Keeps.readSlot hLast) fun n hn => ?_
    exact .ite (fun _ => .ret hLast) fun _ => ih hn.2

/-- Stores that change neither the links nor the name. -/
theorem keeps_setFields {ref : Nat} (hRef : ref ∉ T) {f : Slot → Slot}
    (hLinks : ∀ n, (f n).firstChild = n.firstChild ∧ (f n).nextSibling = n.nextSibling)
    (hName : ∀ n, (f n).nameOffset = n.nameOffset ∧ (f n).nameLen = n.nameLen) :
    Keeps T start (setSlot ref f) fun _ => True := by
  refine Keeps.setSlot hRef ?_ fun n => .inr (hName n)
  intro n hFirst hNext
  rw [(hLinks n).1, (hLinks n).2]
  exact ⟨hFirst, hNext⟩

theorem keeps_setFirst {ref child : Nat} (hRef : ref ∉ T) (hChild : child ∉ T) :
    Keeps T start (setSlot ref fun n => { n with firstChild := child }) fun _ => True :=
  Keeps.setSlot hRef (fun _ _ hNext => ⟨hChild, hNext⟩) fun _ => .inr ⟨rfl, rfl⟩

theorem keeps_setNext {ref next : Nat} (hRef : ref ∉ T) (hNew : next ∉ T) :
    Keeps T start (setSlot ref fun n => { n with nextSibling := next }) fun _ => True :=
  Keeps.setSlot hRef (fun _ hFirst _ => ⟨hFirst, hNew⟩) fun _ => .inr ⟨rfl, rfl⟩

theorem keeps_linkChild {parent child : Nat} (hParent : parent ∉ T) (hChild : child ∉ T) :
    Keeps T start (linkChild parent child) fun _ => True := by
  unfold linkChild
  refine .bind (Keeps.readSlot hParent) fun p hp => ?_
  refine .ite (fun _ => ?_) fun _ => ?_
  · refine .bind (keeps_setFirst hParent hChild) fun _ _ => ?_
    exact keeps_setFields hParent (fun _ => ⟨rfl, rfl⟩) fun _ => ⟨rfl, rfl⟩
  · refine .bind (keeps_lastSibling _ hp.1) fun last hLast => ?_
    refine .bind (keeps_setNext hLast hChild) fun _ _ => ?_
    exact keeps_setFields hParent (fun _ => ⟨rfl, rfl⟩) fun _ => ⟨rfl, rfl⟩

theorem keeps_createChild {parent len : Nat} (hParent : parent ∉ T) (hLen : len ≤ nameLen)
    (depth : Nat) (b : UInt8) (interm : Bool) (hint : Nat) :
    Keeps T start (createChild parent depth b interm len hint)
      fun r => ∀ ref, r = some ref → ref ∉ T := by
  unfold createChild
  refine .bind (Keeps.allocNode hLen hint) fun got hGot => ?_
  cases got with
  | none => exact .ret nofun
  | some child =>
    have hChild := hGot child rfl
    refine .bind (keeps_setFields hChild (fun _ => ⟨rfl, rfl⟩) fun _ => ⟨rfl, rfl⟩) fun _ _ => ?_
    refine .bind (keeps_linkChild hParent hChild).attempt fun linked _ => ?_
    cases linked with
    | ok _ => exact .ret hGot
    | error e => exact .bind (Keeps.freeNode hChild) fun _ _ => .ret nofun

theorem keeps_findOrCreateChild {parent : Nat} (hZero : 0 ∉ T) (hParent : parent ∉ T)
    (depth : Nat) (b : UInt8) (hint : Nat) :
    Keeps T start (findOrCreateChild parent depth b hint)
      fun r => ∀ ref, r = some ref → ref ∉ T := by
  unfold findOrCreateChild
  refine .bind (keeps_findChild hZero hParent b) fun child hChild => ?_
  refine .ite (fun _ => .ret ?_) fun _ => keeps_createChild hParent (Nat.zero_le _) _ _ _ _
  intro ref hRef
  obtain rfl := Option.some.inj hRef
  exact hChild

theorem keeps_relink {child target : Nat} (hTarget : target ∉ T) : ∀ (fuel : Nat) {ref : Nat},
    ref ∉ T → Keeps T start (relink child target fuel ref) fun _ => True := by
  intro fuel
  induction fuel with
  | zero =>
    intro ref _
    unfold relink
    exact .ite (fun _ => .ret trivial) fun _ => .ret trivial
  | succ fuel ih =>
    intro ref hRef
    unfold relink
    refine .ite (fun _ => .ret trivial) fun _ => ?_
    refine .bind (Keeps.readSlot hRef).attempt fun got hGot => ?_
    cases got with
    | error e => exact .ret trivial
    | ok n => exact .ite (fun _ => keeps_setNext hRef hTarget) fun _ => ih (hGot n rfl).2

theorem keeps_unlinkChild {parent prev child : Nat} (hParent : parent ∉ T) (hPrev : prev ∉ T)
    (hChild : child ∉ T) : Keeps T start (unlinkChild parent prev child) fun _ => True := by
  unfold unlinkChild
  have hRead : Keeps T start (do
      let _ ← readSlot parent
      readSlot child) fun n => n.firstChild ∉ T ∧ n.nextSibling ∉ T :=
    .bind (Keeps.readSlot hParent) fun _ _ => Keeps.readSlot hChild
  refine .bind hRead.attempt fun got hGot => ?_
  cases got with
  | error e => exact .ret trivial
  | ok c =>
    have hNext := (hGot c rfl).2
    have hCount : Keeps T start (setSlot parent fun n =>
        { n with childCount := (n.childCount + 2 ^ 16 - 1) % 2 ^ 16 }) fun _ => True :=
      keeps_setFields hParent (fun _ => ⟨rfl, rfl⟩) fun _ => ⟨rfl, rfl⟩
    refine .ite (fun _ => .bind (keeps_setFirst hParent hNext) fun _ _ => hCount) fun _ => ?_
    refine .bind (Keeps.readSlot hPrev).attempt fun seen _ => ?_
    cases seen with
    | ok _ => exact .bind (keeps_setNext hPrev hNext) fun _ _ => hCount
    | error e => exact .bind (Q := fun _ => True) (.ret trivial) fun _ _ => hCount

--
-- Insertion
--

theorem keeps_nameInterm {ref : Nat} (hRef : ref ∉ T) (e : NewEntry) :
    Keeps T start (nameInterm e ref) fun _ => True := by
  unfold nameInterm
  refine .bind (Keeps.storeName hRef) fun _ _ => ?_
  refine .bind (keeps_setFields hRef (fun _ => ⟨rfl, rfl⟩) fun _ => ⟨rfl, rfl⟩) fun _ _ => ?_
  exact keeps_setFields hRef (fun _ => ⟨rfl, rfl⟩) fun _ => ⟨rfl, rfl⟩

theorem keeps_newLeaf {cur : Nat} (hCur : cur ∉ T) {e : NewEntry} (hLen : e.name.length ≤ nameLen)
    (pos : Nat) (b : UInt8) : Keeps T start (newLeaf e cur pos b) fun _ => True := by
  unfold newLeaf
  refine .bind (keeps_createChild hCur hLen _ _ _ _) fun got hGot => ?_
  cases got with
  | none => exact .fail _
  | some leaf =>
    have hLeaf := hGot leaf rfl
    refine .bind (Keeps.storeName hLeaf).attempt fun stored _ => ?_
    cases stored with
    | error err => exact .bind (Keeps.freeNode hLeaf) fun _ _ => .fail _
    | ok _ =>
      refine .bind (keeps_setFields hLeaf (fun _ => ⟨rfl, rfl⟩) fun _ => ⟨rfl, rfl⟩) fun _ _ => ?_
      exact keeps_setFields hLeaf (fun _ => ⟨rfl, rfl⟩) fun _ => ⟨rfl, rfl⟩

theorem keeps_splitLeaf {cur child : Nat} (hCur : cur ∉ T) (hChild : child ∉ T) (e : NewEntry)
    (pos : Nat) (b : UInt8) :
    Keeps T start (splitLeaf e cur child pos b) fun ref => ref ∉ T := by
  unfold splitLeaf
  refine .bind (Keeps.readSlot hChild) fun leaf hLeaf => ?_
  refine .ite (fun _ => ?_) fun _ => ?_
  · refine .bind (keeps_setFields hChild (fun _ => ⟨rfl, rfl⟩) fun _ => ⟨rfl, rfl⟩) fun _ _ => ?_
    refine .bind (keeps_setFields hChild (fun _ => ⟨rfl, rfl⟩) fun _ => ⟨rfl, rfl⟩) fun _ _ => ?_
    exact .ret hChild
  · refine .bind (keeps_createChild hCur (Nat.zero_le _) _ _ _ _) fun got hGot => ?_
    cases got with
    | none => exact .fail _
    | some internal =>
      have hNew := hGot internal rfl
      refine .bind (Keeps.readSlot hCur) fun g hg => ?_
      extract_lets finish link
      have hLink : ∀ u, Keeps T start (link u) fun ref => ref ∉ T := by
        intro _
        refine .bind (keeps_setFirst hNew hChild) fun _ _ => ?_
        refine .bind (keeps_setNext hNew hLeaf.2) fun _ _ => ?_
        refine .bind (keeps_setFields hNew (fun _ => ⟨rfl, rfl⟩) fun _ => ⟨rfl, rfl⟩) fun _ _ => ?_
        refine .ite (fun _ => ?_) fun _ => .bind (Q := fun _ => True) (.ret trivial) fun _ _ => .ret hNew
        refine .bind (Keeps.storeName hNew) fun _ _ => ?_
        refine .bind (keeps_setFields hNew (fun _ => ⟨rfl, rfl⟩) fun _ => ⟨rfl, rfl⟩) fun _ _ => ?_
        refine .bind (keeps_setFields hNew (fun _ => ⟨rfl, rfl⟩) fun _ => ⟨rfl, rfl⟩) fun _ _ => ?_
        exact .ret hNew
      refine .ite (fun _ => .bind (keeps_setFirst hCur hNew) fun u _ => hLink u) fun _ => ?_
      exact .bind (keeps_relink hNew _ hg.1) fun u _ => hLink u

theorem keeps_insertLoop {e : NewEntry} (hZero : 0 ∉ T) (hLen : e.name.length ≤ nameLen) :
    ∀ (rest : List UInt8) (pos : Nat) {cur : Nat}, cur ∉ T →
      Keeps T start (insertLoop e rest pos cur) fun _ => True := by
  intro rest
  induction rest with
  | nil => exact fun _ _ _ => .fail _
  | cons b rest ih =>
    intro pos cur hCur
    unfold insertLoop
    refine .ite (fun _ => ?_) fun _ => ?_
    · refine .bind (keeps_findChild hZero hCur b) fun existing hExisting => ?_
      refine .ite (fun _ => ?_) fun _ => keeps_newLeaf hCur hLen pos b
      refine .bind (Keeps.readSlot hExisting) fun n _ => ?_
      refine .bind (Keeps.view _) fun same _ => ?_
      refine .ite (fun _ => .ite (fun _ => .fail _) fun _ => keeps_nameInterm hExisting e) fun _ => ?_
      refine .ite (fun _ => .fail _) fun _ => ?_
      exact .bind (keeps_splitLeaf hCur hExisting e pos b) fun next hNext => ih (pos + 1) hNext
    · refine .bind (keeps_findOrCreateChild hZero hCur _ b _) fun got hGot => ?_
      cases got with
      | none => exact .fail _
      | some child =>
        have hChild := hGot child rfl
        refine .bind (Keeps.readSlot hChild) fun n _ => ?_
        refine .ite (fun _ => ih (pos + 1) hChild) fun _ => ?_
        exact .bind (keeps_splitLeaf hCur hChild e pos b) fun next hNext => ih (pos + 1) hNext

theorem keeps_trieInsert {root : Nat} (hZero : 0 ∉ T) (hRoot : root ∉ T) (name : List UInt8)
    (ino type : Nat) : Keeps T start (trieInsert root name ino type) fun _ => True := by
  unfold trieInsert
  have hCreate : Keeps T start createRoot fun ref => ref ∉ T := by
    unfold createRoot
    refine .bind (Keeps.pageInit 0 0 true) fun ref hRef => ?_
    exact .bind (Keeps.addPartial _ _) fun _ _ => .ret hRef
  refine .bind (Keeps.ite (fun _ => hCreate) fun _ => .ret hRoot).attempt fun got hGot => ?_
  cases got with
  | error e => exact .ret trivial
  | ok root =>
    have hInsert : Keeps T start (if nameLen < name.length then TrieM.fail .enametoolong
        else insertLoop ⟨name, ino, type, refBlock root⟩ name 0 root) fun _ => True :=
      .ite (fun _ => .fail _) fun hLong => keeps_insertLoop hZero (by simpa using hLong) _ _ (hGot root rfl)
    exact .bind hInsert.attempt fun _ _ => .ret trivial

--
-- Update and removal
--

theorem keeps_updateLoop (hZero : 0 ∉ T) (name : List UInt8) (ino type : Nat) :
    ∀ (rest : List UInt8) {cur : Nat}, cur ∉ T →
      Keeps T start (updateLoop name ino type rest cur) fun _ => True := by
  intro rest
  induction rest with
  | nil => exact fun _ => .fail _
  | cons b rest ih =>
    intro cur hCur
    unfold updateLoop
    refine .bind (keeps_findChild hZero hCur b) fun child hChild => ?_
    refine .ite (fun _ => .fail _) fun _ => ?_
    refine .bind (Keeps.readSlot hChild) fun n _ => ?_
    refine .ite (fun _ => ?_) fun _ => .ite (fun _ => ih hChild) fun _ => .fail _
    refine .bind (Keeps.view _) fun same _ => ?_
    refine .ite (fun _ => ?_) fun _ => .fail _
    refine .bind (keeps_setFields hChild (fun _ => ⟨rfl, rfl⟩) fun _ => ⟨rfl, rfl⟩) fun _ _ => ?_
    exact keeps_setFields hChild (fun _ => ⟨rfl, rfl⟩) fun _ => ⟨rfl, rfl⟩

/-- All nodes of the list are outside of `T`. -/
def Outside (T : Set Nat) (refs : List Nat) : Prop := ∀ ref ∈ refs, ref ∉ T

theorem Outside.cons {ref : Nat} {refs : List Nat} (hRef : ref ∉ T) (h : Outside T refs) :
    Outside T (ref :: refs) := by
  intro r hr
  rcases List.mem_cons.1 hr with rfl | hOld
  · exact hRef
  · exact h r hOld

theorem Outside.concat {ref : Nat} {refs : List Nat} (h : Outside T refs) (hRef : ref ∉ T) :
    Outside T (refs ++ [ref]) := by
  intro r hr
  rcases List.mem_append.1 hr with hOld | hNew
  · exact h r hOld
  · rw [List.mem_singleton.1 hNew]
    exact hRef

theorem keeps_removeLoop (hZero : 0 ∉ T) : ∀ (rest : List UInt8) {above : List Nat} {cur : Nat},
    Outside T above → cur ∉ T →
      Keeps T start (removeLoop above rest cur) fun r =>
        ∀ path, r = some path → Outside T path.1 ∧ Outside T path.2 := by
  intro rest
  induction rest with
  | nil => exact fun _ _ => .fail _
  | cons b rest ih =>
    intro above cur hAbove hCur
    unfold removeLoop
    refine .bind (keeps_findChildWithPrev hZero hCur b) fun found hFound => ?_
    obtain ⟨hChild, hPrev⟩ := hFound
    refine .ite (fun _ => ?_) fun _ => ih (hAbove.cons hCur) hChild
    refine .bind (Keeps.readSlot hChild) fun n _ => ?_
    refine .ite (fun _ => .fail _) fun _ => ?_
    extract_lets unlink
    have hUnlink : ∀ u, Keeps T start (unlink u) fun r =>
        ∀ path, r = some path → Outside T path.1 ∧ Outside T path.2 := by
      intro _
      refine .ite (fun _ => .ret nofun) fun _ => ?_
      refine .bind (keeps_unlinkChild hCur hPrev hChild) fun _ _ => .ret fun path hPath => ?_
      obtain rfl := Option.some.inj hPath
      exact ⟨hAbove.cons hCur, Outside.cons hChild nofun⟩
    refine .ite (fun _ => ?_) fun _ => ?_
    · exact .bind (keeps_setFields hChild (fun _ => ⟨rfl, rfl⟩) fun _ => ⟨rfl, rfl⟩) fun u _ => hUnlink u
    · exact .bind (Q := fun _ => True) (.ret trivial) fun u _ => hUnlink u

theorem keeps_collapse : ∀ (path : List Nat) {freed : List Nat}, Outside T path → Outside T freed →
    Keeps T start (collapse path freed) fun refs => Outside T refs
  | [], _, _, hFreed => .ret hFreed
  | [_], _, _, hFreed => .ret hFreed
  | check :: parent :: above, freed, hPath, hFreed => by
    have hCheck : check ∉ T := hPath check List.mem_cons_self
    have hParent : parent ∉ T := hPath parent (List.mem_cons_of_mem _ List.mem_cons_self)
    have hAbove : Outside T (parent :: above) := fun r hr => hPath r (List.mem_cons_of_mem _ hr)
    unfold collapse
    refine .bind (Keeps.readSlot hCheck).attempt fun got hGot => ?_
    cases got with
    | error e => exact .ret hFreed
    | ok n =>
      have hNext := (hGot n rfl).2
      refine .ite (fun _ => ?_) fun _ => .ret hFreed
      refine .bind (Keeps.readSlot hParent).attempt fun seen hSeen => ?_
      cases seen with
      | error e => exact .ret hFreed
      | ok p =>
        extract_lets up
        have hUp : ∀ u, Keeps T start (up u) fun refs => Outside T refs := by
          intro _
          refine .bind (keeps_setFields hParent (fun _ => ⟨rfl, rfl⟩) fun _ => ⟨rfl, rfl⟩) fun _ _ => ?_
          exact keeps_collapse (parent :: above) hAbove (hFreed.concat hCheck)
        refine .ite (fun _ => .bind (keeps_setFirst hParent hNext) fun u _ => hUp u) fun _ => ?_
        exact .bind (keeps_relink hNext _ (hSeen p rfl).1) fun u _ => hUp u

theorem keeps_trieRemove {root : Nat} (hZero : 0 ∉ T) (hRoot : root ∉ T) (name : List UInt8) :
    Keeps T start (trieRemove root name) fun r => Outside T r.2 := by
  unfold trieRemove
  refine .ite (fun _ => .fail _) fun _ => ?_
  refine .bind (keeps_removeLoop hZero name nofun hRoot) fun path hPath => ?_
  cases path with
  | none => exact .ret nofun
  | some path =>
    obtain ⟨hAbove, hFreed⟩ := hPath path rfl
    refine .bind (keeps_collapse path.1 hAbove hFreed) fun freed hFreed => ?_
    refine .bind (Keeps.readSlot hRoot).attempt fun got _ => ?_
    cases got with
    | ok n => exact .ite (fun _ => .ret (hFreed.concat hRoot)) fun _ => .ret hFreed
    | error e => exact .ret hFreed

theorem keeps_freeList : ∀ {refs : List Nat}, Outside T refs →
    Keeps T start (freeList refs) fun _ => True := by
  intro refs
  induction refs with
  | nil => exact fun _ => .ret trivial
  | cons ref rest ih =>
    intro hRefs
    unfold freeList
    refine .bind (Keeps.freeNode (hRefs ref List.mem_cons_self)) fun _ _ => ?_
    exact ih fun r hr => hRefs r (List.mem_cons_of_mem _ hr)

--
-- Isolation
--

/-- An operation on a directory whose root is not of `T`. -/
theorem Op.keeps {root : Nat} (hZero : 0 ∉ T) (hRoot : root ∉ T) (op : Op) :
    Keeps T start (op.run root) fun _ => True := by
  cases op with
  | insert name ino type =>
    exact .bind (keeps_trieInsert hZero hRoot name ino type) fun _ _ => .ret trivial
  | remove name =>
    exact .bind (keeps_trieRemove hZero hRoot name) fun r hr => keeps_freeList hr
  | update name ino type =>
    unfold Op.run trieUpdateEntry
    exact .ite (fun _ => .fail _) fun _ => keeps_updateLoop hZero name ino type name hRoot

/-- At the start, the nodes that are not of the directory satisfy the invariant. -/
theorem WellFormed.inv {w : World} (h : WellFormed w) (root : Nat) :
    Inv (others w.pages root) w.pages w.begin := by
  refine ⟨⟨h.counts, fun t ht => ht.1, ?_, fun t ht => h.taken t ht.1⟩, .inl ⟨?_, nofun, ?_⟩⟩
  · intro ref n hRef hn
    obtain ⟨hNe, p, hp, hSlot⟩ := Pages.slot?_eq_some.1 hn
    have hNull : (0 : Nat) ∉ others w.pages root := fun hMem => hMem.1.1 rfl
    cases hFree : p.free (refSlot ref) with
    | true =>
      -- A free slot has no links.
      rw [← hSlot, h.zeroed _ p hp _ (refSlot_lt ref) hFree]
      exact ⟨hNull, hNull⟩
    | false =>
      have hOwned : Owned w.pages root ref := by
        by_contra hNot
        exact hRef ⟨⟨hNe, p, hp, hFree⟩, hNot⟩
      refine ⟨fun hMem => ?_, fun hMem => ?_⟩
      · exact hMem.2 (.child hOwned hn fun hEq => hNull (hEq ▸ hMem))
      · exact hMem.2 (.sibling hOwned hn fun hEq => hNull (hEq ▸ hMem))
  · intro ps hps t ht
    rw [List.mem_singleton.1 hps]
    obtain ⟨_, p, hp, _⟩ := ht.1
    exact ⟨p, p, hp, hp, rfl, fun _ _ _ => rfl⟩
  · intro b p hp
    have hNames := h.names b p hp
    exact ⟨fun t ht _ => hNames.inside t ht trivial, fun t ht _ => hNames.below t ht trivial,
      fun t ht _ => hNames.apart t ht trivial⟩

/-- In every state of an operation on a directory, the nodes of all other directories have
the bytes they had, names included, if and only if each compaction of the operation finds
their names where it puts them. -/
theorem others_untouched_iff {w : World} (h : WellFormed w) (root : Nat) (op : Op) :
    (∀ ps ∈ (op.run root w.begin).2.history, ∀ ref ∈ others w.pages root,
      SameNode w.pages ps ref) ↔
    ∀ c ∈ (op.run root w.begin).2.compactions, Settled (others w.pages root) c := by
  have hStart := h.inv root
  have hRoot : root ∉ others w.pages root := fun hMem => hMem.2 (.root hMem.1.1)
  have hEnd := (op.keeps hStart.links.zero_notMem hRoot w.begin hStart).1
  rcases hEnd.told with hGood | hBroken
  · exact ⟨fun _ => hGood.settled, fun _ => hGood.untouched⟩
  · exact ⟨fun hAll => absurd hAll hBroken.touched, fun hAll => absurd hAll hBroken.unsettled⟩

--
-- Two directories on one page
--

/-- Directory A with the entry `ab` in the slots 0 to 2, and directory B with the entry `x`
in the slots 3 and 4. -/
def sharedSlot : Nat → Slot
  | 0 => { Slot.zero with firstChild := 705, interm := true, childCount := 1 }
  | 1 => { Slot.zero with
      firstChild := 706, depth := 1, byteVal := 97, interm := true, childCount := 1 }
  | 2 => { Slot.zero with
      inode := 5, nameLen := 4, nameOffset := 4, depth := 1, byteVal := 98, ftype := 8 }
  | 3 => { Slot.zero with firstChild := 708, interm := true, childCount := 1 }
  | 4 => { Slot.zero with inode := 6, nameLen := 3, nameOffset := 1772, byteVal := 120, ftype := 8 }
  | _ => Slot.zero

def sharedHeap : Nat → UInt8
  | 1 => 98
  | 2 => 97
  | 4 => 2
  | 1770 => 120
  | 1772 => 1
  | _ => 0

/-- The page they share. The names that lay between the two are gone, and the heap is full. -/
def sharedPage : Page where
  liveCount   := 5
  freeNameOff := 1772
  free        := fun s => decide (5 ≤ s)
  slots       := sharedSlot
  heap        := sharedHeap

/-- A device without free blocks. -/
def fullAlloc : Alloc where
  l0 := fun _ => 0#64
  l1 := fun _ => 0#64
  l2 := fun _ => 0#64
  l0Words := 1
  l1Words := 1
  l2Words := 1
  blockCount := 64
  freeCount := 0#64
  metaShield := 0#64
  roverW0 := 0
  roverW2High := 0
  firstFreeW2 := 1
  l2Dirty := fun _ => false
  hL2 := by decide
  hL1 := Alloc.one_le_word
  hL0 := Alloc.one_le_word

def sharedWorld : World where
  pages       := fun b => if b = 11 then some sharedPage else none
  alloc       := fullAlloc
  dataStart   := 10
  partials    := [(11, 11)]
  hotBlock    := 0
  hotHint     := 0
  noScratch   := false
  trace       := []
  compactions := []

theorem sharedWorld_pages {b : Nat} {p : Page} (h : sharedWorld.pages b = some p) :
    b = 11 ∧ p = sharedPage := by
  unfold sharedWorld at h
  dsimp only at h
  split at h
  · exact ⟨by assumption, (Option.some.inj h).symm⟩
  · cases h

theorem sharedWorld_wellFormed : WellFormed sharedWorld := by
  have hCounts : sharedPage.Counts := ⟨by decide +kernel, by decide +kernel⟩
  have hNames : sharedPage.NamesApart fun _ => True := by
    refine ⟨?_, ?_, ?_⟩
    · have hAll : ∀ t < 64, (sharedPage.slots t).nameLen ≤ (sharedPage.slots t).nameOffset := by
        decide +kernel
      exact fun t ht _ => hAll t ht
    · have hAll : ∀ t < 64, (sharedPage.slots t).nameOffset ≤ sharedPage.freeNameOff := by
        decide +kernel
      exact fun t ht _ _ => hAll t ht
    · have hTwo : ∀ t < 64, (sharedPage.slots t).nameLen = 0 ∨ t = 2 ∨ t = 4 := by
        decide +kernel
      intro t ht _ s hs hNe hLen hLen'
      unfold Slot.Apart
      rcases hTwo t ht with hNone | rfl | rfl
      · omega
      · rcases hTwo s hs with hNone | rfl | rfl
        · omega
        · exact absurd rfl hNe
        · exact .inr (by decide)
      · rcases hTwo s hs with hNone | rfl | rfl
        · omega
        · exact .inl (by decide)
        · exact absurd rfl hNe
  have hZeroed : ∀ s < 64, sharedPage.free s = true → sharedPage.slots s = Slot.zero := by
    decide +kernel
  refine ⟨?_, ?_, ?_, ?_⟩
  · intro b p hp
    rw [(sharedWorld_pages hp).2]
    exact hCounts
  · intro b p hp
    rw [(sharedWorld_pages hp).2]
    exact hNames
  · intro b p hp
    rw [(sharedWorld_pages hp).2]
    exact hZeroed
  · intro ref hLive
    obtain ⟨_, p, hp, _⟩ := hLive
    rw [(sharedWorld_pages hp).1]
    exact ⟨by decide, by decide +kernel⟩

theorem sharedWorld_owned {ref : Nat} (h : Owned sharedWorld.pages 704 ref) :
    ref = 704 ∨ ref = 705 ∨ ref = 706 := by
  induction h with
  | root => exact .inl rfl
  | child _ hSlot hNe ih =>
    rcases ih with rfl | rfl | rfl
    · obtain rfl := Option.some.inj hSlot
      exact .inr (.inl rfl)
    · obtain rfl := Option.some.inj hSlot
      exact .inr (.inr rfl)
    · obtain rfl := Option.some.inj hSlot
      exact absurd rfl hNe
  | sibling _ hSlot hNe ih =>
    rcases ih with rfl | rfl | rfl
    · obtain rfl := Option.some.inj hSlot
      exact absurd rfl hNe
    · obtain rfl := Option.some.inj hSlot
      exact absurd rfl hNe
    · obtain rfl := Option.some.inj hSlot
      exact absurd rfl hNe

/-- Removing the entry of A frees all nodes of A and leaves B alone. -/
theorem removal_spares_other :
    WellFormed sharedWorld ∧
      ∀ ps ∈ ((Op.remove [97, 98]).run 704 sharedWorld.begin).2.history,
        ∀ ref ∈ others sharedWorld.pages 704, SameNode sharedWorld.pages ps ref := by
  refine ⟨sharedWorld_wellFormed, ?_⟩
  refine (others_untouched_iff sharedWorld_wellFormed 704 (.remove [97, 98])).2 ?_
  have hNone : ((Op.remove [97, 98]).run 704 sharedWorld.begin).2.compactions.length = 0 := by
    decide +kernel
  rw [List.length_eq_zero_iff.1 hNone]
  exact nofun

/-- Inserting `a` into A names a node that has none yet. The heap is full, so the page is
compacted, and the entry `x` of B gets another offset. -/
theorem compaction_moves_other :
    WellFormed sharedWorld ∧ Owned sharedWorld.pages 707 708 ∧
      708 ∈ others sharedWorld.pages 704 ∧
      ¬ ∀ ps ∈ ((Op.insert [97] 9 8).run 704 sharedWorld.begin).2.history,
        ∀ ref ∈ others sharedWorld.pages 704, SameNode sharedWorld.pages ps ref := by
  have hOther : 708 ∈ others sharedWorld.pages 704 := by
    refine ⟨⟨by decide, sharedPage, rfl, by decide⟩, ?_⟩
    intro hOwned
    have hRef := sharedWorld_owned hOwned
    omega
  have hRoot : Owned sharedWorld.pages 707 707 := .root (by decide)
  refine ⟨sharedWorld_wellFormed, .child hRoot rfl (by decide), hOther, ?_⟩
  intro hAll
  have hMoved : (((Op.insert [97] 9 8).run 704 sharedWorld.begin).2.pages 11).map
      (fun q => (q.slots 4).nameOffset) = some 7 := by
    decide +kernel
  obtain ⟨p, q, hp, hq, hSlot, _⟩ := hAll _ List.mem_cons_self 708 hOther
  have hBlock : refBlock 708 = 11 := by decide
  have hIndex : refSlot 708 = 4 := by decide
  rw [hBlock] at hp hq
  rw [hIndex] at hSlot
  obtain rfl := (sharedWorld_pages hp).2
  rw [hq] at hMoved
  have hOff : (q.slots 4).nameOffset = 7 := Option.some.inj hMoved
  rw [hSlot] at hOff
  exact absurd hOff (by decide)

end Briefs.Trie
