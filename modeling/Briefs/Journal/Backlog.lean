import Briefs.Journal.Unmount

/-!
# BrieFS — the queue of snapshots at a sync

"Every sync entry flushes the whole queue before its own commit logic", says the header of the
journal. The drain is bounded: it takes eight rounds of 4096 snapshots at most, and leaves the
rest to the next sync. And a snapshot that has left the queue is not yet in the ring: it is in
the hands of a thread, of another sync that waits for room in the ring, of the sync further
down the same stack whose drain has run into a checkpoint, or of a flush of a single inode that
waits for the lock. It is dropped if its write fails.

A slot of the queue has a number: that of the call that put it there. A later snapshot of the
inode replaces the one in the slot, until a thread takes the slot from the queue.

## Results

* `Shared.step_passes` — what a step does with the snapshots of the queue and of the frame.
* `Sys.Backed.step` — the invariant: a snapshot is in the queue, in hand, appended or lost, or
  the one that replaced it is; and a drain has left at most what its rounds still take.
* `boundary_covers_queue` — in every run in which the rounds take the queues of the syncs, the
  boundary of a sync leaves out nothing that was queued before it, except what a thread has in
  hand and what was lost.
* `boundary_misses_snapshot` — one snapshot more than the rounds take.
-/

namespace Briefs.Journal

--
-- Snapshots in hand
--

/-- `y` is the snapshot `x`, or a later one that replaced it in its slot. -/
structure Snapshot.Covers (y x : Snapshot) : Prop where
  ino    : y.ino = x.ino
  origin : y.origin = x.origin
  stamp  : x.stamp ≤ y.stamp

theorem Snapshot.Covers.refl (x : Snapshot) : x.Covers x := ⟨rfl, rfl, Nat.le_refl _⟩

theorem Snapshot.Covers.trans {x y z : Snapshot} (h : z.Covers y) (h' : y.Covers x) : z.Covers x :=
  ⟨h.ino.trans h'.ino, h.origin.trans h'.origin, h'.stamp.trans h.stamp⟩

/-- The snapshots that a function has taken from the queue and not yet appended. -/
def Frame.hand : Frame → List Snapshot
  | .drain _ _ (.next batch _) => batch
  | .drain _ _ (.await snap batch _) => snap :: batch
  | .flushOne snap _ => [snap]
  | _ => []

def Act.hand : Act → List Snapshot
  | .goto f => f.hand
  | .call f callee => callee.hand ++ f.hand
  | .drop f => f.hand
  | .ret _ => []

def Thread.hand (th : Thread) : List Snapshot := th.stack.flatMap Frame.hand

/-- What a step takes from the front of the queue. -/
def Frame.takes : Frame → Nat
  | .drain _ _ (.take count) => count
  | _ => 0

/-- What becomes of the snapshots in one step. -/
structure Passes (sh sh' : Shared) (n : Nat) (before after : List Snapshot) : Prop where
  stamp    : sh'.stamp = sh.stamp
  history  : sh'.history = sh.history
  queue    : sh'.queue = sh.queue.drop n
  taken    : ∀ y ∈ sh.queue.take n, y ∈ after
  hand     : ∀ y ∈ before, y ∈ after ∨ y ∈ sh'.appended ∨ y ∈ sh'.lost
  appended : ∀ y ∈ sh.appended, y ∈ sh'.appended
  lost     : ∀ y ∈ sh.lost, y ∈ sh'.lost

variable {sh sh' : Shared} {ret : Option Errno} {fate : Fate}

/-- The snapshots stay where they are. -/
structure Steady (sh sh' : Shared) : Prop where
  stamp    : sh'.stamp = sh.stamp
  history  : sh'.history = sh.history
  queue    : sh'.queue = sh.queue
  appended : sh'.appended = sh.appended
  lost     : sh'.lost = sh.lost

theorem Steady.passes (h : Steady sh sh') {hand after : List Snapshot}
    (hHand : ∀ y ∈ hand, y ∈ after) : Passes sh sh' 0 hand after := by
  refine ⟨h.stamp, h.history, h.queue, fun y hy => absurd hy List.not_mem_nil,
    fun y hy => Or.inl (hHand y hy), ?_, ?_⟩
  · rw [h.appended]
    exact fun _ hy => hy
  · rw [h.lost]
    exact fun _ hy => hy

theorem Steady.refl (sh : Shared) : Steady sh sh := ⟨rfl, rfl, rfl, rfl, rfl⟩

/-- A place that says nothing about the snapshots. -/
def Frame.Plain : Frame → Prop
  | .write _ _ => True
  | .room _ => True
  | .checkpoint _ => True
  | .sync _ .entry => True
  | .sync _ .tail => True
  | .sync _ .last => True
  | _ => False

def Act.Plain : Act → Prop
  | .goto f => f.Plain
  | .call f callee => f.Plain ∧ callee.Plain
  | .drop f => f.Plain
  | .ret _ => True

/-- A step that leaves the snapshots alone and goes to plain places. -/
def Aside (sh : Shared) (x : Shared × Act) : Prop := Steady sh x.1 ∧ x.2.Plain

theorem writeStep_aside (rec : Record) (pc : WriteAt) :
    Aside sh (sh.writeStep ret fate rec pc) := by
  have hFlush : ∀ n, Aside sh (sh.flushFor fate rec n) := by
    intro n
    unfold Shared.flushFor
    cases fate.before with
    | some e => exact ⟨Steady.refl sh, trivial⟩
    | none =>
      dsimp only
      split
      · exact ⟨⟨rfl, rfl, rfl, rfl, rfl⟩, trivial, trivial⟩
      · exact ⟨⟨rfl, rfl, rfl, rfl, rfl⟩, trivial⟩
  unfold Shared.writeStep
  cases pc with
  | entry =>
    dsimp only
    split
    · exact ⟨Steady.refl sh, trivial⟩
    · split
      · exact hFlush 0
      · exact ⟨⟨rfl, rfl, rfl, rfl, rfl⟩, trivial⟩
  | await n =>
    cases ret with
    | some e => exact ⟨Steady.refl sh, trivial⟩
    | none => exact ⟨Steady.refl sh, trivial⟩
  | loop n =>
    dsimp only
    split
    · split
      · exact ⟨Steady.refl sh, trivial⟩
      · exact hFlush (n + 1)
    · exact ⟨⟨rfl, rfl, rfl, rfl, rfl⟩, trivial⟩

theorem roomStep_aside (pc : RoomAt) : Aside sh (sh.roomStep ret fate pc) := by
  unfold Shared.roomStep
  cases pc with
  | entry | test =>
    dsimp only
    split
    · exact ⟨Steady.refl sh, trivial⟩
    · split
      · exact ⟨Steady.refl sh, trivial⟩
      · exact ⟨Steady.refl sh, trivial⟩
  | top =>
    dsimp only
    split
    · exact ⟨Steady.refl sh, trivial⟩
    · exact ⟨Steady.refl sh, trivial, trivial⟩
  | await =>
    cases ret with
    | some e => exact ⟨Steady.refl sh, trivial⟩
    | none => exact ⟨Steady.refl sh, trivial⟩
  | slept =>
    dsimp only
    split
    · exact ⟨Steady.refl sh, trivial⟩
    · exact ⟨Steady.refl sh, trivial⟩

theorem checkpointStep_aside (pc : CheckAt) : Aside sh (sh.checkpointStep ret fate pc) := by
  unfold Shared.checkpointStep Shared.settle
  cases pc with
  | entry =>
    dsimp only
    split
    · exact ⟨Steady.refl sh, trivial⟩
    · exact ⟨⟨rfl, rfl, rfl, rfl, rfl⟩, trivial⟩
  | flushed =>
    cases fate.before with
    | some e => exact ⟨⟨rfl, rfl, rfl, rfl, rfl⟩, trivial⟩
    | none =>
      cases fate.after with
      | some e => exact ⟨⟨rfl, rfl, rfl, rfl, rfl⟩, trivial⟩
      | none =>
        dsimp only
        split
        · exact ⟨⟨rfl, rfl, rfl, rfl, rfl⟩, trivial, trivial⟩
        · exact ⟨⟨rfl, rfl, rfl, rfl, rfl⟩, trivial⟩
  | await =>
    cases ret with
    | some e => exact ⟨⟨rfl, rfl, rfl, rfl, rfl⟩, trivial⟩
    | none => exact ⟨⟨rfl, rfl, rfl, rfl, rfl⟩, trivial⟩

theorem syncStep_steady (checkpoint : Bool) (pc : SyncAt) :
    Steady sh (sh.syncStep ret fate checkpoint pc).1 := by
  unfold Shared.syncStep
  cases pc with
  | entry | last => exact Steady.refl sh
  | drained since =>
    cases ret with
    | some e => exact Steady.refl sh
    | none =>
      dsimp only
      split
      · exact Steady.refl sh
      · split
        · exact Steady.refl sh
        · exact Steady.refl sh
  | roomMade since =>
    cases ret with
    | some e => exact Steady.refl sh
    | none =>
      dsimp only
      split
      · exact Steady.refl sh
      · exact Steady.refl sh
  | capture since =>
    cases fate.before with
    | some e => exact Steady.refl sh
    | none => exact ⟨rfl, rfl, rfl, rfl, rfl⟩
  | forced since start own count =>
    cases fate.before with
    | some e => exact Steady.refl sh
    | none =>
      dsimp only
      split
      · cases fate.after with
        | some e => exact ⟨rfl, rfl, rfl, rfl, rfl⟩
        | none => exact ⟨rfl, rfl, rfl, rfl, rfl⟩
      · exact Steady.refl sh
  | flushed since start own =>
    cases fate.before with
    | some e => exact Steady.refl sh
    | none =>
      dsimp only
      split
      · exact ⟨rfl, rfl, rfl, rfl, rfl⟩
      · exact ⟨rfl, rfl, rfl, rfl, rfl⟩
  | tail =>
    dsimp only
    split
    · exact Steady.refl sh
    · exact Steady.refl sh

/-- A snapshot whose write has returned leaves the hand. -/
theorem noteWritten_passes (snap : Snapshot) (batch : List Snapshot) (res : Option Errno) :
    Passes sh (sh.noteWritten snap res) 0 (snap :: batch) batch := by
  unfold Shared.noteWritten
  cases res with
  | none =>
    refine ⟨rfl, rfl, rfl, fun y hy => absurd hy List.not_mem_nil, fun y hy => ?_,
      fun y hy => List.mem_cons_of_mem _ hy, fun _ hy => hy⟩
    rcases List.mem_cons.mp hy with rfl | hIn
    · exact Or.inr (Or.inl List.mem_cons_self)
    · exact Or.inl hIn
  | some e =>
    refine ⟨rfl, rfl, rfl, fun y hy => absurd hy List.not_mem_nil, fun y hy => ?_,
      fun _ hy => hy, fun y hy => List.mem_cons_of_mem _ hy⟩
    rcases List.mem_cons.mp hy with rfl | hIn
    · exact Or.inr (Or.inr List.mem_cons_self)
    · exact Or.inl hIn

/-- What a step of any function does with the snapshots. -/
theorem Shared.step_passes (sh : Shared) (ret : Option Errno) (fate : Fate) (f : Frame) :
    Passes sh (sh.step ret fate f).1 f.takes f.hand (sh.step ret fate f).2.hand := by
  cases f with
  | write rec pc => exact (writeStep_aside rec pc).1.passes fun y hy => absurd hy List.not_mem_nil
  | room pc => exact (roomStep_aside pc).1.passes fun y hy => absurd hy List.not_mem_nil
  | checkpoint pc => exact (checkpointStep_aside pc).1.passes fun y hy => absurd hy List.not_mem_nil
  | sync checkpoint pc =>
    exact (syncStep_steady checkpoint pc).passes fun y hy => absurd hy List.not_mem_nil
  | drain since round pc =>
    cases pc with
    | start =>
      have hSteady : Steady sh (sh.drainStep ret fate since round .start).1 := by
        unfold Shared.drainStep
        dsimp only
        split
        · exact Steady.refl sh
        · cases fate.before with
          | some e => exact Steady.refl sh
          | none => exact Steady.refl sh
      exact hSteady.passes fun y hy => absurd hy List.not_mem_nil
    | take count =>
      exact ⟨rfl, rfl, rfl, fun _ hy => hy, fun y hy => absurd hy List.not_mem_nil,
        fun _ hy => hy, fun _ hy => hy⟩
    | next batch err =>
      cases batch with
      | nil =>
        have hSteady : Steady sh (sh.drainStep ret fate since round (.next [] err)).1 := by
          cases err with
          | some e => exact Steady.refl sh
          | none => exact Steady.refl sh
        exact hSteady.passes fun y hy => absurd hy List.not_mem_nil
      | cons snap batch => exact (Steady.refl sh).passes fun _ hy => hy
    | await snap batch err => exact noteWritten_passes snap batch ret
  | flushOne snap called =>
    cases called with
    | true => exact noteWritten_passes snap [] ret
    | false =>
      show Passes sh (sh.flushOneStep ret fate snap false).1 0 [snap]
        (sh.flushOneStep ret fate snap false).2.hand
      unfold Shared.flushOneStep
      cases fate.before with
      | some e => exact noteWritten_passes snap [] (some e)
      | none => exact (Steady.refl sh).passes fun _ hy => hy
  | flushAll called =>
    cases called with
    | true => exact (Steady.refl sh).passes fun y hy => absurd hy List.not_mem_nil
    | false => exact (Steady.refl sh).passes fun y hy => absurd hy List.not_mem_nil

--
-- What is covered
--

/-- A thread has taken the snapshot from the queue. -/
def Sys.InHand (s : Sys) (y : Snapshot) : Prop := ∃ t, y ∈ (s.threads t).hand

/-- Where a snapshot can be; `k` entries of the queue count. -/
def Sys.Kept (s : Sys) (k : Nat) (y : Snapshot) : Prop :=
  y ∈ s.shared.queue.take k ∨ s.InHand y ∨ y ∈ s.shared.appended ∨ y ∈ s.shared.lost

/-- The snapshots before the stamp are somewhere, or those that replaced them are. -/
def Sys.Covered (s : Sys) (since k : Nat) : Prop :=
  ∀ x ∈ s.shared.history, x.stamp < since → ∃ y : Snapshot, y.Covers x ∧ s.Kept k y

/-- The snapshots before the stamp are in the ring, or those that replaced them are. -/
def Sys.Settled (s : Sys) (since : Nat) : Prop :=
  ∀ x ∈ s.shared.history, x.stamp < since → ∃ y ∈ s.shared.appended, y.Covers x

/-- A step that takes `n` snapshots from the front of the queue and loses sight of none. -/
structure Carries (n : Nat) (s s' : Sys) : Prop where
  stamp   : s.shared.stamp ≤ s'.shared.stamp
  history : ∀ x ∈ s'.shared.history, x ∈ s.shared.history ∨ s.shared.stamp ≤ x.stamp
  kept    : ∀ k y, s.Kept k y → ∃ z : Snapshot, z.Covers y ∧ s'.Kept (k - n) z

variable {s s' : Sys} {n since k : Nat}

theorem Carries.covered (h : Carries n s s') (hSince : since ≤ s.shared.stamp)
    (hCov : s.Covered since k) : s'.Covered since (k - n) := by
  intro x hx hStamp
  rcases h.history x hx with hOld | hNew
  · obtain ⟨y, hy, hKept⟩ := hCov x hOld hStamp
    obtain ⟨z, hz, hKept'⟩ := h.kept k y hKept
    exact ⟨z, hz.trans hy, hKept'⟩
  · omega

/-- The whole queue counts. -/
theorem Sys.Kept.all {y : Snapshot} (h : s.Kept k y) : s.Kept s.shared.queue.length y := by
  refine h.imp (fun hIn => ?_) id
  rw [List.take_length]
  exact List.mem_of_mem_take hIn

/-- What a drain of a sync has left, and what the sync then covers. -/
def Frame.Due (s : Sys) : Frame → Prop
  | .sync _ (.drained since) => since ≤ s.shared.stamp
  | .sync _ (.roomMade since) => since ≤ s.shared.stamp ∧ s.Covered since 0
  | .sync _ (.capture since) => since ≤ s.shared.stamp ∧ s.Covered since 0
  | .drain since round .start => since ≤ s.shared.stamp ∧
      ∃ k ≤ Shared.batchMax * (Shared.drainRounds - round), s.Covered since k
  | .drain since round (.take count) => since ≤ s.shared.stamp ∧
      ∃ k ≤ Shared.batchMax * (Shared.drainRounds - round), min k Shared.batchMax ≤ count ∧
        s.Covered since k
  | .drain since round (.next _ _) => since ≤ s.shared.stamp ∧
      ∃ k ≤ Shared.batchMax * (Shared.drainRounds - (round + 1)), s.Covered since k
  | .drain since round (.await _ _ _) => since ≤ s.shared.stamp ∧
      ∃ k ≤ Shared.batchMax * (Shared.drainRounds - (round + 1)), s.Covered since k
  | _ => True

theorem Frame.Plain.due {f : Frame} (h : f.Plain) : f.Due s := by
  cases f with
  | write | room | checkpoint | flushOne | flushAll => exact trivial
  | drain => exact h.elim
  | sync checkpoint pc =>
    cases pc with
    | entry | tail | last => exact trivial
    | drained | roomMade | capture | forced | flushed => exact h.elim

theorem Frame.Due.carry {f : Frame} (hDue : f.Due s) (h : Carries n s s') : f.Due s' := by
  have hLeft : ∀ {bound since : Nat}, since ≤ s.shared.stamp → (∃ k ≤ bound, s.Covered since k) →
      since ≤ s'.shared.stamp ∧ ∃ k ≤ bound, s'.Covered since k := by
    rintro bound since hSince ⟨k, hk, hCov⟩
    exact ⟨hSince.trans h.stamp, k - n, (Nat.sub_le k n).trans hk, h.covered hSince hCov⟩
  cases f with
  | write | room | checkpoint | flushOne | flushAll => exact trivial
  | sync checkpoint pc =>
    cases pc with
    | entry | forced | flushed | tail | last => exact trivial
    | drained since => exact Nat.le_trans hDue h.stamp
    | roomMade since | capture since =>
      obtain ⟨hSince, hCov⟩ := hDue
      have hCov' := h.covered hSince hCov
      rw [Nat.zero_sub] at hCov'
      exact ⟨hSince.trans h.stamp, hCov'⟩
  | drain since round pc =>
    cases pc with
    | start => exact hLeft hDue.1 hDue.2
    | take count =>
      obtain ⟨hSince, k, hk, hCount, hCov⟩ := hDue
      refine ⟨hSince.trans h.stamp, k - n, (Nat.sub_le k n).trans hk, ?_, h.covered hSince hCov⟩
      omega
    | next batch err => exact hLeft hDue.1 hDue.2
    | await snap batch err => exact hLeft hDue.1 hDue.2

--
-- Stacks
--

/-- A sync that waits for its drain has the drain above it. -/
def Above (f : Frame) (rest : List Frame) : Prop :=
  ∀ checkpoint since, rest.head? = some (.sync checkpoint (.drained since)) →
    ∃ round pc, f = .drain since round pc

def Linked : List Frame → Prop
  | [] => True
  | f :: rest => Above f rest ∧ Linked rest

/-- A drain that returned 0 has left nothing that its sync is waiting for. -/
def Thread.Ready (s : Sys) (th : Thread) : Prop :=
  ∀ checkpoint since rest, th.stack = .sync checkpoint (.drained since) :: rest → th.ret = none →
    s.Covered since 0

/-- The condition on a step: a sync begins with a queue that its rounds take. -/
def Frame.Bounded (s : Sys) : Frame → Prop
  | .sync _ .entry => s.shared.queue.length ≤ Shared.batchMax * Shared.drainRounds
  | _ => True

def Event.Bounded (s : Sys) : Event → Prop
  | .run _ => ∀ t f rest, s.holder = some t → (s.threads t).stack = f :: rest → f.Bounded s
  | _ => True

theorem Thread.Ready.carry {th : Thread} (hReady : th.Ready s) (hDue : ∀ f ∈ th.stack, f.Due s)
    (h : Carries n s s') : th.Ready s' := by
  intro checkpoint since rest hStack hRet
  have hSince : since ≤ s.shared.stamp := by
    have hTop := hDue (.sync checkpoint (.drained since))
    rw [hStack] at hTop
    exact hTop List.mem_cons_self
  have hCov := h.covered hSince (hReady checkpoint since rest hStack hRet)
  rw [Nat.zero_sub] at hCov
  exact hCov

/-- Where the function at the top of a stack goes on. -/
def Act.next : Act → Option Frame
  | .goto f => some f
  | .call f _ => some f
  | .drop f => some f
  | .ret _ => none

theorem Act.frames_hand (act : Act) : act.frames.flatMap Frame.hand = act.hand := by
  cases act with
  | goto f | drop f => exact List.append_nil f.hand
  | call f callee =>
    show callee.hand ++ (f.hand ++ []) = _
    rw [List.append_nil]
    rfl
  | ret r => rfl

theorem Act.Plain.frames {act : Act} (h : act.Plain) : ∀ g ∈ act.frames, g.Plain := by
  cases act with
  | goto f | drop f => exact List.forall_mem_singleton.mpr h
  | call f callee => exact List.forall_mem_cons.mpr ⟨h.2, List.forall_mem_singleton.mpr h.1⟩
  | ret r => exact fun _ hg => absurd hg List.not_mem_nil

/-- A place that no drain stands above. -/
def Frame.NotDrained (f : Frame) : Prop := ∀ checkpoint since, f ≠ .sync checkpoint (.drained since)

theorem Frame.Plain.notDrained {f : Frame} (h : f.Plain) : f.NotDrained := by
  rintro checkpoint since rfl
  exact h

theorem Frame.NotDrained.above {g : Frame} (h : g.NotDrained) (f : Frame) (rest : List Frame) :
    Above f (g :: rest) := by
  intro checkpoint since hHead
  exact absurd (Option.some.inj hHead) (h checkpoint since)

/-- How a step keeps the order of a stack: a drain goes on as the drain of the same sync, and a
sync that begins to wait calls its drain. -/
structure Act.Ordered (f : Frame) (act : Act) : Prop where
  same : ∀ since round pc, f = .drain since round pc → ∀ g, act.next = some g →
    ∃ round' pc', g = .drain since round' pc'
  call : ∀ g callee, act = .call g callee → g.NotDrained ∨ ∃ checkpoint since,
    g = .sync checkpoint (.drained since) ∧ callee = .drain since 0 .start
  top  : ∀ g, act.frames.head? = some g → g.NotDrained

theorem Act.Ordered.of_frames {f : Frame} {act : Act}
    (hf : ∀ since round pc, f ≠ .drain since round pc) (h : ∀ g ∈ act.frames, g.NotDrained) : act.Ordered f := by
  refine ⟨fun since round pc hEq => absurd hEq (hf since round pc), ?_, ?_⟩
  · rintro g callee rfl
    exact Or.inl (h g (List.mem_cons_of_mem _ List.mem_cons_self))
  · intro g hg
    exact h g (List.mem_of_mem_head? hg)

theorem Act.Ordered.of_drain {act : Act} (round : Nat) (pc : DrainAt)
    (hNext : ∀ g, act.next = some g → ∃ round' pc', g = .drain since round' pc')
    (h : ∀ g ∈ act.frames, g.NotDrained) : act.Ordered (.drain since round pc) := by
  refine ⟨?_, ?_, ?_⟩
  · intro since' round' pc' hEq g hg
    obtain ⟨rfl, -, -⟩ := Frame.drain.inj hEq
    exact hNext g hg
  · rintro g callee rfl
    exact Or.inl (h g (List.mem_cons_of_mem _ List.mem_cons_self))
  · intro g hg
    exact h g (List.mem_of_mem_head? hg)

theorem Linked.step {f : Frame} {rest : List Frame} {act : Act} (h : Linked (f :: rest))
    (hAct : act.Ordered f) (ret : Option Errno) : Linked (act.apply ret rest).1.stack := by
  obtain ⟨hAbove, hRest⟩ := h
  have hNext : ∀ g, act.next = some g → Above g rest := by
    intro g hg checkpoint since hHead
    obtain ⟨round, pc, hf⟩ := hAbove checkpoint since hHead
    exact hAct.same since round pc hf g hg
  cases act with
  | goto g => exact ⟨hNext g rfl, hRest⟩
  | drop g => exact ⟨hNext g rfl, hRest⟩
  | ret r => exact hRest
  | call g callee =>
    refine ⟨?_, hNext g rfl, hRest⟩
    rcases hAct.call g callee rfl with hNot | ⟨checkpoint, since, rfl, rfl⟩
    · exact hNot.above callee rest
    · intro checkpoint' since' hHead
      obtain ⟨-, hPc⟩ := Frame.sync.inj (Option.some.inj hHead)
      rw [SyncAt.drained.inj hPc]
      exact ⟨0, .start, rfl⟩

--
-- Where a step goes on
--

/-- A place to go on from a sync, with what it claims. -/
def Frame.Sound (s : Sys) (f : Frame) : Prop := f.NotDrained ∧ f.Due s

theorem Frame.Plain.sound {f : Frame} (h : f.Plain) : f.Sound s := ⟨h.notDrained, h.due⟩

theorem sound_ret (r : Option Errno) : ∀ g ∈ (Act.ret r).frames, g.Sound s :=
  fun _ hg => absurd hg List.not_mem_nil

theorem sound_sync {checkpoint : Bool} {pc : SyncAt} (hPc : ∀ since, pc ≠ .drained since)
    (hDue : (Frame.sync checkpoint pc).Due s) : (Frame.sync checkpoint pc).Sound s := by
  refine ⟨fun checkpoint' since hEq => ?_, hDue⟩
  exact hPc since (Frame.sync.inj hEq).2

/-- Nothing of the queue counts any more. -/
theorem Sys.Covered.placed (h : s.Covered since 0) {x : Snapshot} (hx : x ∈ s.shared.history)
    (hStamp : x.stamp < since) :
    ∃ y : Snapshot, y.Covers x ∧ (y ∈ s.shared.appended ∨ s.InHand y ∨ y ∈ s.shared.lost) := by
  obtain ⟨y, hCovers, hKept⟩ := h x hx hStamp
  refine ⟨y, hCovers, ?_⟩
  rcases hKept with hQueue | hHand | hDone | hLost
  · rw [List.take_zero] at hQueue
    exact absurd hQueue List.not_mem_nil
  · exact Or.inr (Or.inl hHand)
  · exact Or.inl hDone
  · exact Or.inr (Or.inr hLost)

/-- What is in the ring if no slot of before is in hand or was lost. -/
theorem Sys.Covered.settled (hCov : s.Covered since 0)
    (hSlots : ∀ x ∈ s.shared.history, x.origin ≤ x.stamp)
    (hClear : ∀ y, s.InHand y ∨ y ∈ s.shared.lost → since ≤ y.origin) : s.Settled since := by
  intro x hx hStamp
  obtain ⟨y, hCovers, hPlace⟩ := hCov.placed hx hStamp
  rcases hPlace with hDone | hElse
  · exact ⟨y, hDone, hCovers⟩
  · have hOld := hClear y hElse
    have hOrigin := hSlots x hx
    rw [hCovers.origin] at hOld
    omega

theorem syncStep_sound (ret : Option Errno) (fate : Fate) (checkpoint : Bool) {pc : SyncAt}
    (hPc : pc ≠ .entry) (hDue : (Frame.sync checkpoint pc).Due s)
    (hReady : ∀ since, pc = .drained since → ret = none → s.Covered since 0) :
    ∀ g ∈ (s.shared.syncStep ret fate checkpoint pc).2.frames, g.Sound s := by
  unfold Shared.syncStep
  cases pc with
  | entry => exact absurd rfl hPc
  | drained since =>
    cases ret with
    | some e => exact sound_ret _
    | none =>
      have hCov := hReady since rfl rfl
      dsimp only
      split
      · exact sound_ret _
      · split
        · exact List.forall_mem_cons.mpr ⟨Frame.Plain.sound trivial,
            List.forall_mem_singleton.mpr (sound_sync (fun _ => SyncAt.noConfusion) ⟨hDue, hCov⟩)⟩
        · exact List.forall_mem_singleton.mpr
            (sound_sync (fun _ => SyncAt.noConfusion) ⟨hDue, hCov⟩)
  | roomMade since =>
    cases ret with
    | some e => exact sound_ret _
    | none =>
      dsimp only
      split
      · exact sound_ret _
      · exact List.forall_mem_singleton.mpr (sound_sync (fun _ => SyncAt.noConfusion) hDue)
  | capture since =>
    cases fate.before with
    | some e => exact sound_ret _
    | none =>
      exact List.forall_mem_singleton.mpr (sound_sync (fun _ => SyncAt.noConfusion) trivial)
  | forced since start own count =>
    cases fate.before with
    | some e => exact sound_ret _
    | none =>
      dsimp only
      split
      · cases fate.after with
        | some e => exact sound_ret _
        | none =>
          exact List.forall_mem_singleton.mpr (sound_sync (fun _ => SyncAt.noConfusion) trivial)
      · exact List.forall_mem_singleton.mpr (sound_sync (fun _ => SyncAt.noConfusion) trivial)
  | flushed since start own =>
    cases fate.before with
    | some e => exact sound_ret _
    | none =>
      dsimp only
      split
      · exact List.forall_mem_cons.mpr ⟨Frame.Plain.sound trivial,
          List.forall_mem_singleton.mpr (Frame.Plain.sound trivial)⟩
      · exact List.forall_mem_singleton.mpr (Frame.Plain.sound trivial)
  | tail =>
    dsimp only
    split
    · exact List.forall_mem_cons.mpr ⟨Frame.Plain.sound trivial,
        List.forall_mem_singleton.mpr (Frame.Plain.sound trivial)⟩
    · exact sound_ret _
  | last => exact sound_ret _

theorem Sys.Covered.min_length (h : s.Covered since k) :
    s.Covered since (min k s.shared.queue.length) := by
  intro x hx hStamp
  obtain ⟨y, hCovers, hKept⟩ := h x hx hStamp
  refine ⟨y, hCovers, hKept.imp (fun hIn => ?_) id⟩
  rw [← List.take_eq_take_min]
  exact hIn

/-- A round takes a batch, or all that is left. -/
theorem drainStep_due {round : Nat} {pc : DrainAt} (hDue : (Frame.drain since round pc).Due s)
    (h : Carries (Frame.drain since round pc).takes s s') :
    ∀ g ∈ (s.shared.drainStep ret fate since round pc).2.frames, g.Due s' := by
  cases pc with
  | start =>
    unfold Shared.drainStep
    dsimp only
    split
    · exact fun _ hg => absurd hg List.not_mem_nil
    · cases fate.before with
      | some e => exact fun _ hg => absurd hg List.not_mem_nil
      | none =>
        obtain ⟨hSince, k, hk, hCov⟩ := hDue
        refine List.forall_mem_singleton.mpr (Frame.Due.carry (s := s) ?_ h)
        refine ⟨hSince, min k s.shared.queue.length, (Nat.min_le_left _ _).trans hk, ?_,
          hCov.min_length⟩
        omega
  | take count =>
    obtain ⟨hSince, k, hk, hCount, hCov⟩ := hDue
    refine List.forall_mem_singleton.mpr
      ⟨hSince.trans h.stamp, k - count, ?_, h.covered hSince hCov⟩
    unfold Shared.batchMax Shared.drainRounds at *
    omega
  | next batch err =>
    cases batch with
    | nil =>
      cases err with
      | some e => exact fun _ hg => absurd hg List.not_mem_nil
      | none => exact List.forall_mem_singleton.mpr (Frame.Due.carry (s := s) hDue h)
    | cons snap batch =>
      exact List.forall_mem_cons.mpr
        ⟨trivial, List.forall_mem_singleton.mpr (Frame.Due.carry (s := s) hDue h)⟩
  | await snap batch err => exact List.forall_mem_singleton.mpr (Frame.Due.carry (s := s) hDue h)

theorem notDrained_drain (since round : Nat) (pc : DrainAt) :
    (Frame.drain since round pc).NotDrained := fun _ _ => Frame.noConfusion

theorem Act.Ordered.goto_drain (since round round' : Nat) (pc pc' : DrainAt) :
    (Act.goto (.drain since round' pc')).Ordered (.drain since round pc) :=
  .of_drain round pc (fun _ hg => ⟨round', pc', (Option.some.inj hg).symm⟩)
    (List.forall_mem_singleton.mpr (notDrained_drain since round' pc'))

theorem Act.Ordered.ofRet (f : Frame) (r : Option Errno) : (Act.ret r).Ordered f :=
  ⟨fun _ _ _ _ g hg => absurd hg.symm (Option.some_ne_none g), fun _ _ hEq => Act.noConfusion hEq,
    fun g hg => absurd hg.symm (Option.some_ne_none g)⟩

theorem drainStep_ordered (since round : Nat) (pc : DrainAt) :
    (sh.drainStep ret fate since round pc).2.Ordered (.drain since round pc) := by
  cases pc with
  | start =>
    unfold Shared.drainStep
    dsimp only
    split
    · exact .ofRet _ _
    · cases fate.before with
      | some e => exact .ofRet _ _
      | none => exact .goto_drain since round round _ _
  | take count => exact .goto_drain since round round _ _
  | next batch err =>
    cases batch with
    | nil =>
      cases err with
      | some e => exact .ofRet _ _
      | none => exact .goto_drain since round (round + 1) _ _
    | cons snap batch =>
      refine .of_drain round _ (fun g hg => ⟨round, _, (Option.some.inj hg).symm⟩) ?_
      exact List.forall_mem_cons.mpr ⟨Frame.Plain.notDrained trivial,
        List.forall_mem_singleton.mpr (notDrained_drain since round _)⟩
  | await snap batch err => exact .goto_drain since round round _ _

theorem since_le {round : Nat} {pc : DrainAt} (h : (Frame.drain since round pc).Due s) :
    since ≤ s.shared.stamp := by
  cases pc with
  | start | take count | next batch err | await snap batch err => exact h.1

/-- A drain that returns 0 has left nothing of what was queued before it. -/
theorem drainStep_returns {round : Nat} {pc : DrainAt} (hDue : (Frame.drain since round pc).Due s)
    (hRet : (s.shared.drainStep ret fate since round pc).2 = .ret none) : s.Covered since 0 := by
  cases pc with
  | start =>
    obtain ⟨-, k, hk, hCov⟩ := hDue
    have hNone : min k s.shared.queue.length = 0 := by
      unfold Shared.drainStep at hRet
      dsimp only at hRet
      split at hRet
      · unfold Shared.batchMax Shared.drainRounds at *
        omega
      · cases hBefore : fate.before with
        | some e =>
          rw [hBefore] at hRet
          cases hRet
        | none =>
          rw [hBefore] at hRet
          cases hRet
    rw [← hNone]
    exact hCov.min_length
  | take count => cases hRet
  | next batch err =>
    cases batch with
    | nil =>
      cases err with
      | some e => cases hRet
      | none => cases hRet
    | cons snap batch => cases hRet
  | await snap batch err => cases hRet

/-- The slots of the queue: one for an inode, and each with the calls from its first to its last
one. -/
structure Shared.Orderly (sh : Shared) : Prop where
  stamps : ∀ y ∈ sh.queue, y.origin ≤ y.stamp ∧ y.stamp < sh.stamp
  slots  : ∀ x ∈ sh.history, x.origin ≤ x.stamp
  once   : (sh.queue.map Snapshot.ino).Nodup

/-- The invariant. -/
structure Sys.Backed (s : Sys) : Prop where
  orderly : s.shared.Orderly
  all     : ∀ x ∈ s.shared.history, ∃ y : Snapshot, y.Covers x ∧ s.Kept s.shared.queue.length y
  due     : ∀ t, ∀ f ∈ (s.threads t).stack, f.Due s
  linked  : ∀ t, Linked (s.threads t).stack
  ready   : ∀ t, (s.threads t).Ready s

/-- One step of the function at the top of a stack. -/
theorem Sys.Backed.step_top (hBacked : s.Backed) (fate : Fate) {f : Frame} (hDue : f.Due s)
    (hBounded : f.Bounded s)
    (hReady : ∀ checkpoint since, f = .sync checkpoint (.drained since) → ret = none →
      s.Covered since 0) (h : Carries f.takes s s') :
    (s.shared.step ret fate f).2.Ordered f ∧
      ∀ g ∈ (s.shared.step ret fate f).2.frames, g.Due s' := by
  have hAside : ∀ {x : Shared × Act}, Aside s.shared x →
      (∀ since round pc, f ≠ .drain since round pc) → x.2.Ordered f ∧ ∀ g ∈ x.2.frames, g.Due s' :=
    fun hx hf => ⟨.of_frames hf fun g hg => (hx.2.frames g hg).notDrained,
      fun g hg => (hx.2.frames g hg).due⟩
  cases f with
  | write rec pc => exact hAside (writeStep_aside rec pc) fun _ _ _ => Frame.noConfusion
  | room pc => exact hAside (roomStep_aside pc) fun _ _ _ => Frame.noConfusion
  | checkpoint pc => exact hAside (checkpointStep_aside pc) fun _ _ _ => Frame.noConfusion
  | sync checkpoint pc =>
    by_cases hPc : pc = .entry
    · subst hPc
      refine ⟨⟨fun _ _ _ hEq => Frame.noConfusion hEq, ?_, ?_⟩, ?_⟩
      · intro g callee hEq
        obtain ⟨rfl, rfl⟩ := Act.call.inj hEq
        exact Or.inr ⟨checkpoint, s.shared.stamp, rfl, rfl⟩
      · intro g hg
        obtain rfl := Option.some.inj hg
        exact notDrained_drain _ _ _
      · have hAll : s.Covered s.shared.stamp s.shared.queue.length :=
          fun x hx _ => hBacked.all x hx
        have hDrain : (Frame.drain s.shared.stamp 0 .start).Due s :=
          ⟨Nat.le_refl _, s.shared.queue.length, hBounded, hAll⟩
        exact List.forall_mem_cons.mpr ⟨hDrain.carry h, List.forall_mem_singleton.mpr h.stamp⟩
    · have hSound := syncStep_sound ret fate checkpoint hPc hDue
        fun since hEq => hReady checkpoint since (congrArg (Frame.sync checkpoint) hEq)
      exact ⟨.of_frames (fun _ _ _ => Frame.noConfusion) fun g hg => (hSound g hg).1,
        fun g hg => (hSound g hg).2.carry h⟩
  | drain since round pc => exact ⟨drainStep_ordered since round pc, drainStep_due hDue h⟩
  | flushOne snap called =>
    cases called with
    | true =>
      exact ⟨.ofRet _ _, fun _ hg => absurd hg List.not_mem_nil⟩
    | false =>
      show (s.shared.flushOneStep ret fate snap false).2.Ordered _ ∧
        ∀ g ∈ (s.shared.flushOneStep ret fate snap false).2.frames, g.Due s'
      unfold Shared.flushOneStep
      cases fate.before with
      | some e =>
        exact ⟨.ofRet _ _, fun _ hg => absurd hg List.not_mem_nil⟩
      | none =>
        refine ⟨.of_frames (fun _ _ _ => Frame.noConfusion) ?_, ?_⟩
        · exact List.forall_mem_cons.mpr ⟨Frame.Plain.notDrained trivial,
            List.forall_mem_singleton.mpr fun _ _ => Frame.noConfusion⟩
        · exact List.forall_mem_cons.mpr ⟨trivial, List.forall_mem_singleton.mpr trivial⟩
  | flushAll called =>
    cases called with
    | true =>
      exact ⟨.ofRet _ _, fun _ hg => absurd hg List.not_mem_nil⟩
    | false =>
      refine ⟨.of_frames (fun _ _ _ => Frame.noConfusion) ?_, ?_⟩
      · exact List.forall_mem_cons.mpr ⟨notDrained_drain _ _ _,
          List.forall_mem_singleton.mpr fun _ _ => Frame.noConfusion⟩
      · have hDrain : (Frame.drain 0 0 .start).Due s' :=
          ⟨Nat.zero_le _, 0, Nat.zero_le _, fun _ _ hStamp => absurd hStamp (Nat.not_lt_zero _)⟩
        exact List.forall_mem_cons.mpr ⟨hDrain, List.forall_mem_singleton.mpr trivial⟩

--
-- Steps of the threads
--

theorem mem_take_or_drop {α : Type} {y : α} {l : List α} {k : Nat} (h : y ∈ l.take k) (n : Nat) :
    y ∈ l.take n ∨ y ∈ (l.drop n).take (k - n) := by
  have hMore : y ∈ l.take (n + (k - n)) := List.take_subset_take_left l (by omega) h
  rw [List.take_add] at hMore
  exact List.mem_append.mp hMore

theorem Act.apply_hand (act : Act) (ret : Option Errno) (rest : List Frame) :
    (act.apply ret rest).1.hand = act.hand ++ rest.flatMap Frame.hand := by
  unfold Thread.hand
  rw [act.apply_stack, List.flatMap_append, act.frames_hand]

theorem Sys.runTop_carries (s : Sys) (fate : Fate) {t : Nat} {f : Frame} {rest : List Frame}
    (hStack : (s.threads t).stack = f :: rest) (ret : Option Errno) :
    Carries f.takes s (s.runTop fate t ret f rest) := by
  have hPasses := s.shared.step_passes ret fate f
  have hSame : ((s.runTop fate t ret f rest).threads t).hand =
      (s.shared.step ret fate f).2.hand ++ rest.flatMap Frame.hand := by
    rw [← Act.apply_hand _ ret]
    exact congrArg Thread.hand (s.setThread_same t _)
  have hNew : ∀ y ∈ (s.shared.step ret fate f).2.hand, (s.runTop fate t ret f rest).InHand y := by
    intro y hy
    refine ⟨t, ?_⟩
    rw [hSame]
    exact List.mem_append_left _ hy
  refine ⟨Nat.le_of_eq hPasses.stamp.symm, fun x hx => ?_, fun k y hKept => ⟨y, .refl y, ?_⟩⟩
  · rw [← hPasses.history]
    exact Or.inl hx
  · rcases hKept with hQueue | ⟨t', hHand⟩ | hDone | hLost
    · rcases mem_take_or_drop hQueue f.takes with hTaken | hLeft
      · exact Or.inr (Or.inl (hNew y (hPasses.taken y hTaken)))
      · rw [← hPasses.queue] at hLeft
        exact Or.inl hLeft
    · by_cases hEq : t' = t
      · subst hEq
        unfold Thread.hand at hHand
        rw [hStack, List.flatMap_cons] at hHand
        rcases List.mem_append.mp hHand with hTop | hRest
        · rcases hPasses.hand y hTop with hStill | hOut
          · exact Or.inr (Or.inl (hNew y hStill))
          · exact Or.inr (Or.inr hOut)
        · refine Or.inr (Or.inl ⟨t', ?_⟩)
          rw [hSame]
          exact List.mem_append_right _ hRest
      · refine Or.inr (Or.inl ⟨t', ?_⟩)
        have hOther : (s.runTop fate t ret f rest).threads t' = s.threads t' :=
          s.setThread_other hEq _
        rw [hOther]
        exact hHand
    · exact Or.inr (Or.inr (Or.inl (hPasses.appended y hDone)))
    · exact Or.inr (Or.inr (Or.inr (hPasses.lost y hLost)))

theorem Shared.Orderly.sublist (h : sh.Orderly) (hQueue : sh'.queue.Sublist sh.queue)
    (hStamp : sh'.stamp = sh.stamp) (hHistory : sh'.history = sh.history) : sh'.Orderly := by
  refine ⟨fun y hy => ?_, fun x hx => ?_, h.once.sublist (hQueue.map _)⟩
  · rw [hStamp]
    exact h.stamps y (hQueue.subset hy)
  · rw [hHistory] at hx
    exact h.slots x hx

theorem Shared.Orderly.enqueue (h : sh.Orderly) (ino : Nat) (data : List UInt8) :
    (sh.enqueue ino data).Orderly := by
  unfold Shared.enqueue
  cases hFind : sh.queue.find? fun x => x.ino == ino with
  | some slot =>
    have hSlot := h.stamps slot (List.mem_of_find?_eq_some hFind)
    have hSnap : slot.origin ≤ sh.stamp := hSlot.1.trans (Nat.le_of_lt hSlot.2)
    refine ⟨?_, List.forall_mem_cons.mpr ⟨hSnap, h.slots⟩, ?_⟩
    · intro y hy
      obtain ⟨x, hx, rfl⟩ := List.mem_map.mp hy
      split
      · exact ⟨hSnap, Nat.lt_succ_self _⟩
      · exact ⟨(h.stamps x hx).1, Nat.lt_succ_of_lt (h.stamps x hx).2⟩
    · rw [List.map_map]
      have hSame : sh.queue.map (Snapshot.ino ∘ fun x =>
          if x.ino = ino then ⟨ino, slot.origin, sh.stamp, data⟩ else x) =
          sh.queue.map Snapshot.ino := by
        refine List.map_congr_left fun x _ => ?_
        show Snapshot.ino (if x.ino = ino then _ else x) = x.ino
        split
        · exact Eq.symm ‹_›
        · rfl
      rw [hSame]
      exact h.once
  | none =>
    refine ⟨?_, List.forall_mem_cons.mpr ⟨Nat.le_refl _, h.slots⟩, ?_⟩
    · intro y hy
      rcases List.mem_append.mp hy with hOld | hLast
      · exact ⟨(h.stamps y hOld).1, Nat.lt_succ_of_lt (h.stamps y hOld).2⟩
      · rw [List.mem_singleton.mp hLast]
        exact ⟨Nat.le_refl _, Nat.lt_succ_self _⟩
    · rw [List.map_append]
      refine h.once.append (List.nodup_singleton _) (List.disjoint_singleton.mpr fun hIn => ?_)
      obtain ⟨x, hx, hIno⟩ := List.mem_map.mp hIn
      exact List.find?_eq_none.mp hFind x hx (beq_iff_eq.mpr hIno)

theorem Shared.Orderly.eq_of_find (h : sh.Orderly) {ino : Nat} {snap y : Snapshot}
    (hFind : sh.queue.find? (fun x => x.ino == ino) = some snap) (hy : y ∈ sh.queue)
    (hIno : y.ino = ino) : y = snap := by
  have hFound := List.find?_some hFind
  have hSnap : snap.ino = ino := beq_iff_eq.mp hFound
  exact List.inj_on_of_nodup_map h.once hy (List.mem_of_find?_eq_some hFind) (hIno.trans hSnap.symm)

/-- A queued snapshot takes the place of the one that its slot had. -/
theorem Sys.Backed.queue_carries (h : s.Backed) (ino : Nat) (data : List UInt8) :
    Carries 0 s { s with shared := s.shared.enqueue ino data } := by
  unfold Shared.enqueue
  cases hFind : s.shared.queue.find? fun x => x.ino == ino with
  | some slot =>
    refine ⟨Nat.le_succ _, ?_, fun k y hKept => ?_⟩
    · intro x hx
      rcases List.mem_cons.mp hx with rfl | hOld
      · exact Or.inr (Nat.le_refl _)
      · exact Or.inl hOld
    · rcases hKept with hQueue | hElse
      · have hIn := List.mem_of_mem_take hQueue
        refine ⟨if y.ino = ino then ⟨ino, slot.origin, s.shared.stamp, data⟩ else y, ?_, Or.inl ?_⟩
        · split
          · rename_i hIno
            obtain rfl := h.orderly.eq_of_find hFind hIn hIno
            exact ⟨hIno.symm, rfl, Nat.le_of_lt (h.orderly.stamps y hIn).2⟩
          · exact .refl y
        · show _ ∈ (s.shared.queue.map _).take _
          rw [← List.map_take]
          exact List.mem_map_of_mem hQueue
      · exact ⟨y, .refl y, Or.inr hElse⟩
  | none =>
    refine ⟨Nat.le_succ _, ?_, fun k y hKept => ⟨y, .refl y, ?_⟩⟩
    · intro x hx
      rcases List.mem_cons.mp hx with rfl | hOld
      · exact Or.inr (Nat.le_refl _)
      · exact Or.inl hOld
    · refine hKept.imp (fun hQueue => ?_) id
      show y ∈ (s.shared.queue ++ _).take _
      rw [List.take_append]
      exact List.mem_append_left _ hQueue

/-- The snapshot of an inode goes from the queue into the hand of a thread. -/
theorem Sys.Backed.grab_carries (h : s.Backed) {t ino : Nat} {snap : Snapshot}
    (hIdle : (s.threads t).stack = [])
    (hFind : s.shared.queue.find? (fun x => x.ino == ino) = some snap) :
    Carries 0 s { (s.setThread t ⟨none, [.flushOne snap false]⟩) with
      shared := { s.shared with queue := s.shared.queue.filter fun x => x.ino != ino } } := by
  refine ⟨Nat.le_refl _, fun x hx => Or.inl hx, fun k y hKept => ⟨y, .refl y, ?_⟩⟩
  rcases hKept with hQueue | ⟨t', hHand⟩ | hElse
  · by_cases hIno : y.ino = ino
    · obtain rfl := h.orderly.eq_of_find hFind (List.mem_of_mem_take hQueue) hIno
      refine Or.inr (Or.inl ⟨t, ?_⟩)
      show y ∈ ((s.setThread t _).threads t).hand
      rw [s.setThread_same]
      exact List.mem_cons_self
    · have hLeft : y ∈ (s.shared.queue.take k).filter fun x => x.ino != ino :=
        List.mem_filter.mpr ⟨hQueue, bne_iff_ne.mpr hIno⟩
      have hFront := (List.take_prefix k s.shared.queue).filter fun x => x.ino != ino
      rw [List.prefix_iff_eq_take.mp hFront] at hLeft
      refine Or.inl (List.take_subset_take_left _ ?_ hLeft)
      exact (List.length_filter_le _ _).trans (List.length_take_le _ _)
  · refine Or.inr (Or.inl ⟨t', ?_⟩)
    have hOther : t' ≠ t := by
      rintro rfl
      unfold Thread.hand at hHand
      rw [hIdle] at hHand
      exact absurd hHand List.not_mem_nil
    show y ∈ ((s.setThread t _).threads t').hand
    rw [s.setThread_other hOther]
    exact hHand
  · exact Or.inr (Or.inr hElse)

theorem Sys.start_carries {t : Nat} (q : Request) (hIdle : (s.threads t).stack = []) :
    Carries 0 s (s.setThread t ⟨none, [q.frame]⟩) := by
  refine ⟨Nat.le_refl _, fun x hx => Or.inl hx, fun k y hKept => ⟨y, .refl y, ?_⟩⟩
  rcases hKept with hQueue | ⟨t', hHand⟩ | hElse
  · exact Or.inl hQueue
  · refine Or.inr (Or.inl ⟨t', ?_⟩)
    have hOther : t' ≠ t := by
      rintro rfl
      unfold Thread.hand at hHand
      rw [hIdle] at hHand
      exact absurd hHand List.not_mem_nil
    rw [s.setThread_other hOther]
    exact hHand
  · exact Or.inr (Or.inr hElse)

/-- A step of one thread keeps what holds of the stacks of the others. -/
theorem Sys.Backed.of_carries (h : s.Backed) (hCarry : Carries n s s') {t : Nat}
    (hOther : ∀ t', t' ≠ t → s'.threads t' = s.threads t') (hOrderly : s'.shared.Orderly)
    (hAll : ∀ x ∈ s'.shared.history, x ∈ s.shared.history ∨
      ∃ y : Snapshot, y.Covers x ∧ s'.Kept s'.shared.queue.length y)
    (hDue : ∀ f ∈ (s'.threads t).stack, f.Due s') (hLinked : Linked (s'.threads t).stack)
    (hReady : (s'.threads t).Ready s') : s'.Backed := by
  refine ⟨hOrderly, fun x hx => ?_, fun t' => ?_, fun t' => ?_, fun t' => ?_⟩
  · rcases hAll x hx with hOld | hNew
    · obtain ⟨y, hCovers, hKept⟩ := h.all x hOld
      obtain ⟨z, hz, hKept'⟩ := hCarry.kept _ y hKept
      exact ⟨z, hz.trans hCovers, hKept'.all⟩
    · exact hNew
  · by_cases hEq : t' = t
    · rw [hEq]
      exact hDue
    · rw [hOther t' hEq]
      exact fun f hf => (h.due t' f hf).carry hCarry
  · by_cases hEq : t' = t
    · rw [hEq]
      exact hLinked
    · rw [hOther t' hEq]
      exact h.linked t'
  · by_cases hEq : t' = t
    · rw [hEq]
      exact hReady
    · rw [hOther t' hEq]
      exact (h.ready t').carry (h.due t') hCarry

theorem Sys.Backed.of_threads (h : s.Backed) (hCarry : Carries n s s')
    (hThreads : s'.threads = s.threads) (hOrderly : s'.shared.Orderly)
    (hAll : ∀ x ∈ s'.shared.history, x ∈ s.shared.history ∨
      ∃ y : Snapshot, y.Covers x ∧ s'.Kept s'.shared.queue.length y) : s'.Backed := by
  refine h.of_carries hCarry (t := 0) (fun t' _ => congrFun hThreads t') hOrderly hAll ?_ ?_ ?_
  · rw [hThreads]
    exact fun f hf => (h.due 0 f hf).carry hCarry
  · rw [hThreads]
    exact h.linked 0
  · rw [hThreads]
    exact (h.ready 0).carry (h.due 0) hCarry

theorem Sys.Backed.queue (h : s.Backed) (ino : Nat) (data : List UInt8) :
    Sys.Backed { s with shared := s.shared.enqueue ino data } := by
  refine h.of_threads (h.queue_carries ino data) rfl (h.orderly.enqueue ino data) fun x hx => ?_
  have hNew : ∀ snap ∈ (s.shared.enqueue ino data).queue,
      ∃ y : Snapshot, y.Covers snap ∧ Sys.Kept { s with shared := s.shared.enqueue ino data }
        (s.shared.enqueue ino data).queue.length y := by
    intro snap hSnap
    refine ⟨snap, .refl snap, Or.inl ?_⟩
    rw [List.take_length]
    exact hSnap
  unfold Shared.enqueue at hx hNew ⊢
  cases hFind : s.shared.queue.find? fun x => x.ino == ino with
  | some slot =>
    rw [hFind] at hx hNew
    rcases List.mem_cons.mp hx with rfl | hOld
    · refine Or.inr (hNew _ (List.mem_map.mpr ⟨slot, List.mem_of_find?_eq_some hFind, if_pos ?_⟩))
      have hFound := List.find?_some hFind
      exact beq_iff_eq.mp hFound
    · exact Or.inl hOld
  | none =>
    rw [hFind] at hx hNew
    rcases List.mem_cons.mp hx with rfl | hOld
    · exact Or.inr (hNew _ (List.mem_append_right _ List.mem_cons_self))
    · exact Or.inl hOld

theorem linked_singleton (f : Frame) : Linked [f] :=
  ⟨fun _ _ hHead => absurd hHead.symm (Option.some_ne_none _), trivial⟩

theorem Frame.NotDrained.ready {f : Frame} (h : f.NotDrained) (ret : Option Errno)
    (rest : List Frame) : Thread.Ready s ⟨ret, f :: rest⟩ := by
  intro checkpoint since rest' hStack
  exact absurd (List.cons.inj hStack).1 (h checkpoint since)

theorem Sys.Backed.grab (h : s.Backed) {t ino : Nat} {snap : Snapshot}
    (hIdle : (s.threads t).stack = [])
    (hFind : s.shared.queue.find? (fun x => x.ino == ino) = some snap) :
    Sys.Backed { (s.setThread t ⟨none, [.flushOne snap false]⟩) with
      shared := { s.shared with queue := s.shared.queue.filter fun x => x.ino != ino } } := by
  have hThread := s.setThread_same t ⟨none, [.flushOne snap false]⟩
  refine h.of_carries (h.grab_carries hIdle hFind) (fun t' hNe => s.setThread_other hNe _)
    (h.orderly.sublist List.filter_sublist rfl rfl) (fun x hx => Or.inl hx) ?_ ?_ ?_
  · show ∀ f ∈ ((s.setThread t _).threads t).stack, _
    rw [hThread]
    exact List.forall_mem_singleton.mpr trivial
  · show Linked ((s.setThread t _).threads t).stack
    rw [hThread]
    exact linked_singleton _
  · show Thread.Ready _ ((s.setThread t _).threads t)
    rw [hThread]
    exact Frame.NotDrained.ready (fun _ _ => Frame.noConfusion) none []

theorem Sys.Backed.start (h : s.Backed) {t : Nat} (q : Request) (hIdle : (s.threads t).stack = []) :
    (s.setThread t ⟨none, [q.frame]⟩).Backed := by
  have hThread := s.setThread_same t ⟨none, [q.frame]⟩
  refine h.of_carries (s.start_carries q hIdle) (fun t' hNe => s.setThread_other hNe _) h.orderly
    (fun x hx => Or.inl hx) ?_ ?_ ?_
  · rw [hThread]
    refine List.forall_mem_singleton.mpr ?_
    cases q with
    | write c | sync periodic | checkpoint | flushAll => exact trivial
  · rw [hThread]
    exact linked_singleton _
  · rw [hThread]
    refine Frame.NotDrained.ready (fun checkpoint since hEq => ?_) none []
    cases q with
    | write c | sync periodic | checkpoint | flushAll => cases hEq

/-- A sync that goes on after its drain. -/
theorem ready_after {f : Frame} {rest : List Frame} {act : Act} (hAct : act.Ordered f)
    (hLinked : Linked (f :: rest))
    (hDrain : ∀ since round pc, f = .drain since round pc → act = .ret none → s.Covered since 0)
    (ret : Option Errno) : (act.apply ret rest).1.Ready s := by
  cases act with
  | goto g => exact (hAct.top g rfl).ready ret rest
  | drop g => exact (hAct.top g rfl).ready ret rest
  | call g callee => exact (hAct.top callee rfl).ready ret (g :: rest)
  | ret r =>
    intro checkpoint since rest' hStack hRet
    have hHead : rest.head? = some (.sync checkpoint (.drained since)) := congrArg List.head? hStack
    obtain ⟨round, pc, hf⟩ := hLinked.1 checkpoint since hHead
    exact hDrain since round pc hf (congrArg Act.ret hRet)

/-- A step of the thread with the lock. -/
theorem Sys.Backed.run (h : s.Backed) (fate : Fate) {t : Nat} {f : Frame} {rest : List Frame}
    (hStack : (s.threads t).stack = f :: rest) (hBounded : f.Bounded s) :
    (s.runTop fate t (s.threads t).ret f rest).Backed := by
  have hCarry := s.runTop_carries fate hStack (s.threads t).ret
  have hPasses := s.shared.step_passes (s.threads t).ret fate f
  have hThread : (s.runTop fate t (s.threads t).ret f rest).threads t =
      ((s.shared.step (s.threads t).ret fate f).2.apply (s.threads t).ret rest).1 :=
    s.setThread_same t _
  have hFrames := h.due t
  have hLinked := h.linked t
  rw [hStack] at hFrames hLinked
  obtain ⟨hDue, hRest⟩ := List.forall_mem_cons.mp hFrames
  have hTop := h.step_top fate hDue hBounded (fun checkpoint since hEq hRet =>
    h.ready t checkpoint since rest (by rw [hStack, hEq]) hRet) hCarry
  refine h.of_carries hCarry (fun t' hNe => s.setThread_other hNe _)
    (h.orderly.sublist ?_ hPasses.stamp hPasses.history) (fun x hx => ?_) ?_ ?_ ?_
  · show (s.shared.step (s.threads t).ret fate f).1.queue.Sublist _
    rw [hPasses.queue]
    exact List.drop_sublist _ _
  · rw [← hPasses.history]
    exact Or.inl hx
  · rw [hThread, Act.apply_stack]
    intro g hg
    rcases List.mem_append.mp hg with hNew | hOld
    · exact hTop.2 g hNew
    · exact (hRest g hOld).carry hCarry
  · rw [hThread]
    exact hLinked.step hTop.1 _
  · rw [hThread]
    refine ready_after hTop.1 hLinked ?_ _
    rintro since round pc rfl hRet
    have hCov := hCarry.covered (since_le hDue) (drainStep_returns hDue hRet)
    rw [Nat.zero_sub] at hCov
    exact hCov

theorem Sys.Backed.step (h : s.Backed) {e : Event} (hBounded : e.Bounded s)
    (hStep : s.step e = some s') : s'.Backed := by
  cases e with
  | queue ino data =>
    obtain rfl := Option.some.inj hStep
    exact h.queue ino data
  | grab t ino =>
    obtain ⟨snap, hIdle, hFind, rfl⟩ := Sys.step_grab hStep
    exact h.grab hIdle hFind
  | start t q =>
    obtain ⟨hIdle, rfl⟩ := Sys.step_start hStep
    exact h.start q hIdle
  | take t =>
    obtain ⟨-, rfl⟩ := Sys.step_take hStep
    exact ⟨h.orderly, h.all, h.due, h.linked, h.ready⟩
  | run fate =>
    obtain ⟨t, f, rest, hHolder, hStack, rfl⟩ := Sys.step_run hStep
    exact h.run fate hStack (hBounded t f rest hHolder hStack)

/-- A journal whose queue has not been used, and that no thread has entered. -/
structure Sys.Unused (s : Sys) : Prop where
  queue   : s.shared.queue = []
  history : s.shared.history = []
  idle    : ∀ t, (s.threads t).stack = []

theorem Sys.Unused.backed (h : s.Unused) : s.Backed := by
  refine ⟨⟨?_, ?_, ?_⟩, ?_, ?_, ?_, ?_⟩
  · rw [h.queue]
    exact fun _ hy => absurd hy List.not_mem_nil
  · rw [h.history]
    exact fun _ hx => absurd hx List.not_mem_nil
  · rw [h.queue]
    exact List.nodup_nil
  · rw [h.history]
    exact fun _ hx => absurd hx List.not_mem_nil
  · intro t
    rw [h.idle t]
    exact fun _ hf => absurd hf List.not_mem_nil
  · intro t
    rw [h.idle t]
    exact trivial
  · intro t checkpoint since rest hStack
    rw [h.idle t] at hStack
    exact absurd hStack.symm (List.cons_ne_nil _ _)

theorem Sys.Backed.reach (h : s.Backed) (hReach : Sys.Reach (fun s e => e.Bounded s) s s') :
    s'.Backed := by
  induction hReach with
  | refl => exact h
  | step _ hBounded hStep ih => exact ih.step hBounded hStep

--
-- A thread alone
--

theorem Sys.Reach.trans {P : Sys → Event → Prop} {s₀ s₁ s₂ : Sys} (h : Sys.Reach P s₀ s₁)
    (h' : Sys.Reach P s₁ s₂) : Sys.Reach P s₀ s₂ := by
  induction h' with
  | refl => exact h
  | step _ hP hStep ih => exact .step ih hP hStep

theorem Sys.Reach.mono {P Q : Sys → Event → Prop} (h : ∀ s e, P s e → Q s e)
    (hReach : Sys.Reach P s s') : Sys.Reach Q s s' := by
  induction hReach with
  | refl => exact .refl
  | step _ hP hStep ih => exact .step ih (h _ _ hP) hStep

/-- The threads run only while the queue is not longer than `n`. -/
def Event.Within (n : Nat) (s : Sys) (e : Event) : Prop :=
  e.Allowed ∧ ∀ fate, e = .run fate → s.shared.queue.length ≤ n

theorem Event.Within.bounded {e : Event} (h : e.Within n s)
    (hMost : n ≤ Shared.batchMax * Shared.drainRounds) : e.Bounded s := by
  cases e with
  | queue | grab | start | take => exact trivial
  | run fate =>
    intro t f rest _ _
    cases f with
    | write | room | checkpoint | drain | flushOne | flushAll => exact trivial
    | sync checkpoint pc =>
      cases pc with
      | entry => exact (h.2 fate rfl).trans hMost
      | drained | roomMade | capture | forced | flushed | tail | last => exact trivial

/-- The steps of a thread that is alone are steps of the threads. -/
theorem Solo.reach {sh sh' : Shared} {th th' : Thread} (h : Solo sh th sh' th') (t n : Nat) :
    ∀ s : Sys, s.shared = sh → s.threads t = th → (s.holder = none ∨ s.holder = some t) →
      s.shared.queue.length ≤ n →
      ∃ s', Sys.Reach (fun s e => e.Within n s) s s' ∧ s'.shared = sh' ∧ s'.threads t = th' ∧
        (s'.holder = none ∨ s'.holder = some t) := by
  induction h with
  | refl sh th => exact fun s hShared hThread hHolder _ => ⟨s, .refl, hShared, hThread, hHolder⟩
  | @step sh sh' ret f rest th' _ ih =>
    rintro s rfl hThread hHolder hLength
    have hStack : (s.threads t).stack = f :: rest := congrArg Thread.stack hThread
    have hRet : (s.threads t).ret = ret := congrArg Thread.ret hThread
    have hTake : Sys.Reach (fun s e => e.Within n s) s { s with holder := some t } := by
      rcases hHolder with hNone | hSome
      · refine .step (e := .take t) .refl ⟨trivial, fun _ hEq => Event.noConfusion hEq⟩ ?_
        simp only [Sys.step, hNone, hStack]
      · rw [← hSome]
        exact .refl
    have hRun : Sys.step { s with holder := some t } (.run .calm) =
        some (Sys.runTop { s with holder := some t } .calm t ret f rest) := by
      simp only [Sys.step, hStack, hRet]
    have hKeeps : ∀ keeps : Bool, (if keeps = true then some t else none) = none ∨
        (if keeps = true then some t else none) = some t := by
      intro keeps
      cases keeps with
      | true => exact Or.inr rfl
      | false => exact Or.inl rfl
    have hShorter : (s.shared.step ret .calm f).1.queue.length ≤ n := by
      rw [(s.shared.step_passes ret .calm f).queue, List.length_drop]
      omega
    obtain ⟨s', hReach, hRest⟩ := ih (Sys.runTop { s with holder := some t } .calm t ret f rest) rfl
      (Sys.setThread_same _ t _) (hKeeps _) hShorter
    have hStep := hTake.step (e := .run .calm) ⟨trivial, fun _ _ => hLength⟩ hRun
    exact ⟨s', hStep.trans hReach, hRest⟩

theorem Solo.request {t : Nat} {q : Request} {sh' : Shared} {th' : Thread}
    (h : Solo s.shared ⟨none, [q.frame]⟩ sh' th') (hAllowed : Event.Allowed (.start t q))
    (hIdle : (s.threads t).stack = []) (hHolder : s.holder = none ∨ s.holder = some t)
    (hLength : s.shared.queue.length ≤ n) :
    ∃ s', Sys.Reach (fun s e => e.Within n s) s s' ∧ s'.shared = sh' ∧ s'.threads t = th' ∧
      (s'.holder = none ∨ s'.holder = some t) := by
  have hStart : s.step (.start t q) = some (s.setThread t ⟨none, [q.frame]⟩) := by
    simp only [Sys.step, hIdle]
  obtain ⟨s', hReach, hRest⟩ := h.reach t n (s.setThread t ⟨none, [q.frame]⟩) rfl
    (s.setThread_same t _) hHolder hLength
  have hFirst : Event.Within n s (.start t q) := ⟨hAllowed, fun _ hEq => Event.noConfusion hEq⟩
  exact ⟨s', (Sys.Reach.refl.step hFirst hStart).trans hReach, hRest⟩

variable {r : Ring} {base : Nat}

theorem flushesFor_le (n : Nat) : ∀ off, flushesFor off n ≤ n := by
  induction n with
  | zero => exact fun _ => Nat.le_refl _
  | succ n ih =>
    intro off
    rw [flushesFor]
    split
    · exact Nat.succ_le_succ (ih _)
    · exact Nat.le_succ_of_le (ih _)

/-- A sync that is alone, up to its boundary, in a ring with room. -/
theorem solo_capture (hBase : r.Data base) (h : Roomy r base k sh.queue.length sh)
    (hWhole : ∀ snap ∈ sh.queue, snap.Whole) (hDirty : sh.journal.dirty = true)
    (hWindow : sh.journal.logEnd = base) :
    ∃ sh₁, Solo sh ⟨none, [.sync false .entry]⟩ sh₁ ⟨none, [.sync false (.capture sh.stamp)]⟩ ∧
      Onward sh sh₁ ∧ Drained Shared.drainRounds sh sh₁ := by
  obtain ⟨sh₁, k₁, hDrain, hRoomy, hOn, hDrained⟩ :=
    returns_drain hBase sh.stamp Shared.drainRounds 0 none (Nat.zero_add _) hWhole h
  have hStep : sh₁.step none .calm (.sync false (.drained sh.stamp)) =
      (sh₁, .goto (.sync false (.capture sh.stamp))) := by
    have hDirty₁ : ¬sh₁.journal.dirty = false := by
      rw [hOn.dirty hDirty]
      decide
    have hNext : sh₁.journal.ring.advance sh₁.journal.writePos ≠ sh₁.journal.logStart := by
      have hRoom := hRoomy.room
      rw [hRoomy.ring, hRoomy.pos, ← r.nth_succ, hRoomy.start]
      exact hBase.nth_ne_self (Nat.succ_pos k₁) (by omega)
    have hRoom : sh₁.journal.needsRoom = false := by
      unfold BriefsJournal.needsRoom
      rw [hOn.logEnd, hWindow, hRoomy.start, bne_self_eq_false, Bool.and_false, Bool.false_or,
        ← hRoomy.start]
      exact beq_eq_false_iff_ne.mpr hNext
    show sh₁.syncStep none .calm false (.drained sh.stamp) = _
    unfold Shared.syncStep
    dsimp only
    rw [if_neg hDirty₁, if_neg fun hBoth => Bool.false_ne_true (hRoom.symm.trans hBoth.2)]
  exact ⟨sh₁, .of_step rfl ((hDrain _).trans (.of_step hStep (.refl _ _))), hOn, hDrained⟩

/-- Snapshots of the inodes from 0 on, each queued once. -/
def queued (n : Nat) : List Snapshot :=
  (List.range n).map fun i => ⟨i, i, i, List.replicate 512 0⟩

theorem queued_succ (n : Nat) : queued (n + 1) = queued n ++ [⟨n, n, n, List.replicate 512 0⟩] := by
  unfold queued
  rw [List.range_succ, List.map_append]
  rfl

theorem queued_ino {n : Nat} {y : Snapshot} (h : y ∈ queued n) : y.ino < n := by
  obtain ⟨i, hi, rfl⟩ := List.mem_map.mp h
  exact List.mem_range.mp hi

def Shared.withQueued (sh : Shared) (n : Nat) : Shared :=
  { sh with queue := queued n, stamp := n, history := (queued n).reverse }

theorem queued_length (n : Nat) : (queued n).length = n := by
  unfold queued
  rw [List.length_map, List.length_range]

theorem queued_take (n : Nat) : (queued (n + 1)).take n = queued n := by
  rw [queued_succ]
  exact List.take_left' (queued_length n)

theorem Shared.withQueued_enqueue (sh : Shared) (n : Nat) :
    (sh.withQueued n).enqueue n (List.replicate 512 0) = sh.withQueued (n + 1) := by
  have hNone : (queued n).find? (fun x => x.ino == n) = none := by
    refine List.find?_eq_none.mpr fun x hx hEq => ?_
    exact absurd (queued_ino hx) (Nat.not_lt.mpr (Nat.le_of_eq (beq_iff_eq.mp hEq).symm))
  unfold Shared.enqueue Shared.withQueued
  dsimp only
  rw [hNone, queued_succ, List.reverse_append]
  rfl

theorem reach_queued (h : s.shared.withQueued 0 = s.shared) (most n : Nat) :
    Sys.Reach (fun s e => e.Within most s) s { s with shared := s.shared.withQueued n } := by
  induction n with
  | zero =>
    rw [h]
    exact .refl
  | succ n ih =>
    refine ih.step (e := .queue n (List.replicate 512 0))
      ⟨List.length_replicate, fun _ hEq => Event.noConfusion hEq⟩ ?_
    rw [← s.shared.withQueued_enqueue]
    rfl

/-- A journal of the largest size that was just mounted. -/
def largeSys : Sys :=
  ⟨⟨{ smallJournal 0 with ring := ⟨100, 65536, by decide, by decide⟩ }, false, [], 0, [], [], []⟩,
    none, fun _ => ⟨none, []⟩⟩

theorem largeSys_unused : largeSys.Unused := ⟨rfl, rfl, fun _ => rfl⟩

/-- A record is appended, and `n` snapshots are queued. -/
def largeQueued (n : Nat) : Shared :=
  (largeSys.shared.append (Call.inodeFree 7).record).withQueued n

theorem largeQueued_roomy {n : Nat} (hLarge : n + 1 < 65535) :
    Roomy largeSys.shared.journal.ring 106 0 (largeQueued n).queue.length (largeQueued n) := by
  refine ⟨rfl, rfl, rfl, ?_⟩
  have hFlushes := flushesFor_le n (largeQueued n).journal.writeOffset
  show 0 + flushesFor (largeQueued n).journal.writeOffset (queued n).length + 1 < 65535
  rw [queued_length]
  omega

theorem largeQueued_whole (n : Nat) : ∀ snap ∈ (largeQueued n).queue, snap.Whole := by
  intro snap hIn
  obtain ⟨i, -, rfl⟩ := List.mem_map.mp hIn
  exact List.length_replicate

theorem largeSys_reach (n : Nat) :
    ∃ s, Sys.Reach (fun s e => e.Within n s) largeSys s ∧ s.shared = largeQueued n ∧
      (s.threads 0).stack = [] ∧ (s.holder = none ∨ s.holder = some 0) := by
  have hShort : ¬largeSys.shared.Short (Call.inodeFree 7).record := by decide
  have hWrite : Returns largeSys.shared none (.write (Call.inodeFree 7).record .entry)
      (largeSys.shared.append (Call.inodeFree 7).record) none :=
    returns_write (Call.record_fits (c := .inodeFree 7) trivial) fun hIs => absurd hIs hShort
  obtain ⟨s, hReach, hShared, hThread, hHolder⟩ := Solo.request (t := 0) (n := n)
    (q := .write (.inodeFree 7)) (hWrite []) trivial rfl (Or.inl rfl) (Nat.zero_le n)
  have hZero : s.shared.withQueued 0 = s.shared := by
    rw [hShared]
    rfl
  refine ⟨{ s with shared := s.shared.withQueued n }, hReach.trans (reach_queued hZero n n), ?_,
    congrArg Thread.stack hThread, hHolder⟩
  rw [hShared]
  rfl

/-- A sync that is alone runs up to its boundary. -/
theorem reach_capture (n : Nat) (hLarge : n + 1 < 65535) :
    ∃ s, Sys.Reach (fun s e => e.Within n s) largeSys s ∧
      s.threads 0 = ⟨none, [.sync false (.capture n)]⟩ ∧ s.shared.history = (queued n).reverse ∧
      ∀ y ∈ s.shared.appended, y ∈ (queued n).take (Shared.batchMax * Shared.drainRounds) := by
  have hBase : largeSys.shared.journal.ring.Data 106 :=
    ⟨by show 100 ≤ 106 ∧ 106 < 65636; omega, by show 106 ≠ 65635; omega⟩
  obtain ⟨s₁, hReach₁, hShared₁, hIdle, hHolder⟩ := largeSys_reach n
  obtain ⟨sh, hSync, hOn, hDrained⟩ :=
    solo_capture hBase (largeQueued_roomy hLarge) (largeQueued_whole n) rfl rfl
  have hLength : s₁.shared.queue.length ≤ n := by
    rw [hShared₁]
    exact Nat.le_of_eq (queued_length n)
  rw [← hShared₁] at hSync
  obtain ⟨s₂, hReach₂, hShared₂, hThread, -⟩ :=
    Solo.request (t := 0) (q := .sync false) hSync trivial hIdle hHolder hLength
  refine ⟨s₂, hReach₁.trans hReach₂, ?_, ?_, ?_⟩
  · rw [hThread, hShared₁]
    rfl
  · rw [hShared₂]
    exact hOn.history
  · rw [hShared₂]
    intro y hy
    rcases hDrained.appended y hy with hOld | hTaken
    · exact absurd hOld List.not_mem_nil
    · exact hTaken

--
-- The boundary of a sync
--

/-- In every run in which the syncs begin with queues that their rounds take: when a sync
captures its boundary, each snapshot that was queued before the sync, or the one that replaced
it in its slot, has been appended to the ring, or a thread has it in hand, or it was lost with
a failed write. So if no slot of before is in hand or was lost, the ring has them all. -/
theorem boundary_covers_queue {start s : Sys} (hStart : start.Unused)
    (hReach : Sys.Reach (fun s e => e.Bounded s) start s) {t : Nat} {checkpoint : Bool}
    {since : Nat} (hSync : .sync checkpoint (.capture since) ∈ (s.threads t).stack) :
    (∀ x ∈ s.shared.history, x.stamp < since → ∃ y : Snapshot, y.Covers x ∧
      (y ∈ s.shared.appended ∨ s.InHand y ∨ y ∈ s.shared.lost)) ∧
    ((∀ y, s.InHand y ∨ y ∈ s.shared.lost → since ≤ y.origin) → s.Settled since) := by
  have hBacked := hStart.backed.reach hReach
  obtain ⟨-, hCov⟩ : since ≤ s.shared.stamp ∧ s.Covered since 0 := hBacked.due t _ hSync
  exact ⟨fun x hx hStamp => hCov.placed hx hStamp, hCov.settled hBacked.orderly.slots⟩

/-- Three snapshots and a sync. -/
theorem boundary_covers_three :
    largeSys.Unused ∧ ∃ s, Sys.Reach (fun s e => e.Bounded s) largeSys s ∧
      s.shared.history = (queued 3).reverse ∧
      ∀ x ∈ s.shared.history, x.stamp < 3 → ∃ y : Snapshot, y.Covers x ∧
        (y ∈ s.shared.appended ∨ s.InHand y ∨ y ∈ s.shared.lost) := by
  obtain ⟨s, hReach, hThread, hHistory, -⟩ := reach_capture 3 (by decide)
  have hBounded : Sys.Reach (fun s e => e.Bounded s) largeSys s :=
    hReach.mono fun _ _ h => h.bounded (by decide)
  have hSync : .sync false (.capture 3) ∈ (s.threads 0).stack := by
    rw [hThread]
    exact List.mem_cons_self
  exact ⟨largeSys_unused, s, hBounded, hHistory,
    (boundary_covers_queue largeSys_unused hBounded hSync).1⟩

/-- With one snapshot more than the rounds take, a sync captures its boundary without the last. -/
theorem boundary_misses_snapshot :
    largeSys.Unused ∧ ∃ s since, Sys.Reach (fun _ e => e.Allowed) largeSys s ∧
      s.threads 0 = ⟨none, [.sync false (.capture since)]⟩ ∧
      ∃ x ∈ s.shared.history, x.stamp < since ∧ ∀ y ∈ s.shared.appended, ¬y.Covers x := by
  obtain ⟨s, hReach, hThread, hHistory, hAppended⟩ := reach_capture (32768 + 1) (by decide)
  refine ⟨largeSys_unused, s, 32769, hReach.mono fun _ _ h => h.1, hThread,
    ⟨32768, 32768, 32768, List.replicate 512 0⟩, ?_, Nat.lt_succ_self 32768, ?_⟩
  · rw [hHistory, List.mem_reverse, queued_succ]
    exact List.mem_append_right _ List.mem_cons_self
  · intro y hy hCovers
    have hFront : y ∈ queued 32768 := by
      rw [← queued_take]
      exact hAppended y hy
    have hIno := queued_ino hFront
    rw [hCovers.ino] at hIno
    exact absurd hIno (Nat.lt_irrefl 32768)

end Briefs.Journal
