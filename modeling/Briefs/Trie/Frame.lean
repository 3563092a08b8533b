import Briefs.Trie.Ops
import Briefs.Replay.Rederive

/-!
# BrieFS — directories on shared trie pages

An operation on a directory runs under the lock of that directory, but the pages it stores
into also hold nodes of other directories. `T` is the set of those nodes. The operation
meets a page as a whole in three places only: it takes a free slot, it appends to the name
heap, and it compacts the name heap.

The first two leave `T` alone. The compaction moves every name of the page, whoever owns
it, and stores the new offset before the bytes. It is harmless for `T` only if the names
of `T` happen to lie where it puts them.

## Results

* `Links.put` — a store keeps `T` out of reach of the directory.
* `Packing` — what the page looks like while its names are compacted.
* `others_untouched_iff` — the nodes of other directories keep every byte throughout the
  operation iff no compaction finds one of their names out of place.
-/

namespace Briefs.Trie

open TrieM

--
-- Nodes of other directories
--

/-- The slot of the node is in use. -/
def Pages.live (ps : Pages) (ref : Nat) : Prop :=
  ref ≠ 0 ∧ ∃ p, ps (refBlock ref) = some p ∧ p.free (refSlot ref) = false

/-- The nodes of the trie with the root. -/
inductive Owned (ps : Pages) (root : Nat) : Nat → Prop where
  | root : root ≠ 0 → Owned ps root root
  | child {ref : Nat} {n : Slot} : Owned ps root ref → ps.slot? ref = some n →
      n.firstChild ≠ 0 → Owned ps root n.firstChild
  | sibling {ref : Nat} {n : Slot} : Owned ps root ref → ps.slot? ref = some n →
      n.nextSibling ≠ 0 → Owned ps root n.nextSibling

/-- The live nodes that are not of the directory. -/
def others (ps : Pages) (root : Nat) : Set Nat :=
  {ref | ps.live ref ∧ ¬ Owned ps root ref}

/-- The node has the bytes it had: the slot, and the name at its offset. -/
def SameNode (ps qs : Pages) (ref : Nat) : Prop :=
  ∃ p q, ps (refBlock ref) = some p ∧ qs (refBlock ref) = some q ∧
    q.slots (refSlot ref) = p.slots (refSlot ref) ∧
    ∀ d, (p.slots (refSlot ref)).nameOffset < d + (p.slots (refSlot ref)).nameLen →
      d ≤ (p.slots (refSlot ref)).nameOffset → q.heap d = p.heap d

/-- All states of the pages since the history began. -/
def World.history (w : World) : List Pages := w.pages :: w.trace

/-- The history begins. -/
def World.begin (w : World) : World := { w with trace := [], compactions := [] }

/-- The names of `T` on the page lie where a compaction puts them. -/
def Settled (T : Set Nat) (c : Nat × Page) : Prop :=
  ∀ s < 64, makeRef c.1 s ∈ T → c.2.named s = true →
    (c.2.slots s).nameOffset = c.2.packed (s + 1)

--
-- Well-formed pages
--

/-- The names of two nodes do not overlap. -/
def Slot.Apart (m n : Slot) : Prop :=
  m.nameOffset + n.nameLen ≤ n.nameOffset ∨ n.nameOffset + m.nameLen ≤ m.nameOffset

/-- The header of the page: live slots are counted, and the heap ends above the slots. -/
structure Page.Counts (p : Page) : Prop where
  count : p.liveCount = ((Finset.range 64).filter fun s => p.free s = false).card
  room  : p.freeNameOff ≤ heapSize

/-- The names of the slots in `K` lie in the heap and overlap no other name. -/
structure Page.NamesApart (K : Nat → Prop) (p : Page) : Prop where
  inside : ∀ t < 64, K t → (p.slots t).nameLen ≤ (p.slots t).nameOffset
  below  : ∀ t < 64, K t → 0 < (p.slots t).nameLen → (p.slots t).nameOffset ≤ p.freeNameOff
  apart  : ∀ t < 64, K t → ∀ s < 64, s ≠ t → 0 < (p.slots t).nameLen →
    0 < (p.slots s).nameLen → (p.slots s).Apart (p.slots t)

/-- The pages of all directories between two operations. -/
structure WellFormed (w : World) : Prop where
  counts : ∀ b p, w.pages b = some p → p.Counts
  names  : ∀ b p, w.pages b = some p → p.NamesApart fun _ => True
  zeroed : ∀ b p, w.pages b = some p → ∀ s < 64, p.free s = true → p.slots s = Slot.zero
  taken  : ∀ ref, w.pages.live ref →
    w.dataStart < refBlock ref ∧ w.alloc.isFree (refBlock ref - w.dataStart) = false

--
-- References
--

theorem refSlot_lt (ref : Nat) : refSlot ref < 64 := Nat.mod_lt _ (by decide)

@[simp] theorem makeRef_refBlock (ref : Nat) : makeRef (refBlock ref) (refSlot ref) = ref := by
  unfold makeRef refBlock refSlot
  omega

theorem refBlock_makeRef (b s : Nat) : refBlock (makeRef b s) = b := by
  unfold makeRef refBlock
  omega

theorem refSlot_makeRef {b s : Nat} (hs : s < 64) : refSlot (makeRef b s) = s := by
  unfold makeRef refSlot
  omega

theorem Pages.slot?_eq_some {ps : Pages} {ref : Nat} {n : Slot} :
    ps.slot? ref = some n ↔
      ref ≠ 0 ∧ ∃ p, ps (refBlock ref) = some p ∧ p.slots (refSlot ref) = n := by
  unfold Pages.slot?
  by_cases hRef : ref = 0
  · simp [hRef]
  · simp [hRef]

variable {T : Set Nat} {start : Pages} {w : World} {b : Nat} {p q : Page}

--
-- What no operation changes
--

/-- The nodes of `T` stay in use, their blocks taken, and no other node links to them. -/
structure Links (T : Set Nat) (w : World) : Prop where
  counts : ∀ b p, w.pages b = some p → p.Counts
  live   : ∀ t ∈ T, w.pages.live t
  closed : ∀ ref n, ref ∉ T → w.pages.slot? ref = some n →
    n.firstChild ∉ T ∧ n.nextSibling ∉ T
  taken  : ∀ t ∈ T, w.dataStart < refBlock t ∧ w.alloc.isFree (refBlock t - w.dataStart) = false

theorem Links.zero_notMem (h : Links T w) : 0 ∉ T := fun hMem => (h.live 0 hMem).1 rfl

/-- The links of a slot that is not of `T`. -/
theorem Links.slot_links (h : Links T w) (hp : w.pages b = some p) {s : Nat} (hs : s < 64)
    (hRef : makeRef b s ≠ 0) (hT : makeRef b s ∉ T) :
    (p.slots s).firstChild ∉ T ∧ (p.slots s).nextSibling ∉ T := by
  refine h.closed (makeRef b s) (p.slots s) hT (Pages.slot?_eq_some.2 ⟨hRef, p, ?_, ?_⟩)
  · rw [refBlock_makeRef, hp]
  · rw [refSlot_makeRef hs]

theorem Links.put (h : Links T w) (hp : w.pages b = some p) (hCounts : q.Counts)
    (hFree : ∀ s < 64, makeRef b s ∈ T → q.free s = p.free s)
    (hLinks : ∀ s < 64, makeRef b s ≠ 0 → makeRef b s ∉ T →
      (q.slots s).firstChild ∉ T ∧ (q.slots s).nextSibling ∉ T) :
    Links T (w.put b q) := by
  refine ⟨?_, ?_, ?_, h.taken⟩
  · intro b' p' hp'
    simp only [World.put, Function.update_apply] at hp'
    by_cases hb : b' = b
    · rw [if_pos hb] at hp'
      obtain rfl := Option.some.inj hp'
      exact hCounts
    · rw [if_neg hb] at hp'
      exact h.counts b' p' hp'
  · intro t ht
    obtain ⟨hNe, p', hp', hLive⟩ := h.live t ht
    refine ⟨hNe, ?_⟩
    simp only [World.put, Function.update_apply]
    by_cases hb : refBlock t = b
    · refine ⟨q, if_pos hb, ?_⟩
      rw [hb, hp] at hp'
      obtain rfl := Option.some.inj hp'
      have hRef : makeRef b (refSlot t) = t := by rw [← hb, makeRef_refBlock]
      rw [hFree _ (refSlot_lt t) (by rwa [hRef])]
      exact hLive
    · exact ⟨p', by rw [if_neg hb]; exact hp', hLive⟩
  · intro ref n hRef hn
    obtain ⟨hNe, p', hp', hEq⟩ := Pages.slot?_eq_some.1 hn
    simp only [World.put, Function.update_apply] at hp'
    by_cases hb : refBlock ref = b
    · rw [if_pos hb] at hp'
      obtain rfl := Option.some.inj hp'
      have hMake : makeRef b (refSlot ref) = ref := by rw [← hb, makeRef_refBlock]
      have hSlot := hLinks (refSlot ref) (refSlot_lt ref) (by rwa [hMake]) (by rwa [hMake])
      rwa [hEq] at hSlot
    · rw [if_neg hb] at hp'
      exact h.closed ref n hRef (Pages.slot?_eq_some.2 ⟨hNe, p', hp', hEq⟩)

--
-- What a store leaves alone
--

/-- The slots in `K` and their names are the same in both pages. -/
structure Page.Spares (K : Nat → Prop) (p q : Page) : Prop where
  slot : ∀ t < 64, K t → q.slots t = p.slots t
  name : ∀ t < 64, K t → ∀ d, (p.slots t).nameOffset < d + (p.slots t).nameLen →
    d ≤ (p.slots t).nameOffset → q.heap d = p.heap d

theorem Page.Spares.refl (K : Nat → Prop) (p : Page) : p.Spares K p :=
  ⟨fun _ _ _ => rfl, fun _ _ _ _ _ _ => rfl⟩

/-- The nodes of `T` have kept their bytes in all states since `start`. -/
def Untouched (T : Set Nat) (start : Pages) (w : World) : Prop :=
  ∀ ps ∈ w.history, ∀ t ∈ T, SameNode start ps t

theorem Untouched.of_put (h : Untouched T start (w.put b q)) : Untouched T start w := by
  intro ps hps
  exact h ps (List.mem_cons_of_mem _ hps)

theorem Untouched.put (h : Untouched T start w) (hp : w.pages b = some p)
    (hSpares : p.Spares (fun s => makeRef b s ∈ T) q) : Untouched T start (w.put b q) := by
  intro ps hps t ht
  rcases List.mem_cons.1 hps with rfl | hOld
  · obtain ⟨p₀, p', hp₀, hp', hSlot, hName⟩ := h _ List.mem_cons_self t ht
    simp only [World.put, SameNode, Function.update_apply]
    by_cases hb : refBlock t = b
    · rw [hb, hp] at hp'
      obtain rfl := Option.some.inj hp'
      have hRef : makeRef b (refSlot t) = t := by rw [← hb, makeRef_refBlock]
      have hK : makeRef b (refSlot t) ∈ T := by rwa [hRef]
      have hKept := hSpares.slot _ (refSlot_lt t) hK
      refine ⟨p₀, q, hp₀, if_pos hb, hKept.trans hSlot, ?_⟩
      intro d hLow hHigh
      have hHeap := hSpares.name _ (refSlot_lt t) hK d
      rw [hSlot] at hHeap
      rw [hHeap hLow hHigh]
      exact hName d hLow hHigh
    · exact ⟨p₀, p', hp₀, by rw [if_neg hb]; exact hp', hSlot, hName⟩
  · exact h ps hOld t ht

/-- Nothing of `T` has been touched, and the names of `T` are apart from all others. -/
structure Good (T : Set Nat) (start : Pages) (w : World) : Prop where
  untouched : Untouched T start w
  settled   : ∀ c ∈ w.compactions, Settled T c
  names     : ∀ b p, w.pages b = some p → p.NamesApart fun s => makeRef b s ∈ T

/-- A compaction has found a name of `T` out of place, and `T` has been touched. -/
structure Broken (T : Set Nat) (start : Pages) (w : World) : Prop where
  touched   : ¬ Untouched T start w
  unsettled : ¬ ∀ c ∈ w.compactions, Settled T c

/-- The invariant of an operation. -/
structure Inv (T : Set Nat) (start : Pages) (w : World) : Prop where
  links : Links T w
  told  : Good T start w ∨ Broken T start w

theorem Good.put (h : Good T start w) (hp : w.pages b = some p)
    (hSpares : p.Spares (fun s => makeRef b s ∈ T) q)
    (hNames : q.NamesApart fun s => makeRef b s ∈ T) : Good T start (w.put b q) := by
  refine ⟨h.untouched.put hp hSpares, h.settled, ?_⟩
  intro b' p' hp'
  simp only [World.put, Function.update_apply] at hp'
  by_cases hb : b' = b
  · subst hb
    rw [if_pos rfl] at hp'
    obtain rfl := Option.some.inj hp'
    exact hNames
  · rw [if_neg hb] at hp'
    exact h.names b' p' hp'

theorem Broken.put (h : Broken T start w) (b : Nat) (q : Page) : Broken T start (w.put b q) :=
  ⟨fun hAll => h.touched hAll.of_put, h.unsettled⟩

/-- The rule for one store. -/
theorem Inv.put (h : Inv T start w) (hp : w.pages b = some p) (hCounts : q.Counts)
    (hFree : ∀ s < 64, makeRef b s ∈ T → q.free s = p.free s)
    (hLinks : ∀ s < 64, makeRef b s ≠ 0 → makeRef b s ∉ T →
      (q.slots s).firstChild ∉ T ∧ (q.slots s).nextSibling ∉ T)
    (hNames : (p.NamesApart fun s => makeRef b s ∈ T) →
      p.Spares (fun s => makeRef b s ∈ T) q ∧ q.NamesApart fun s => makeRef b s ∈ T) :
    Inv T start (w.put b q) := by
  refine ⟨h.links.put hp hCounts hFree hLinks, ?_⟩
  rcases h.told with hGood | hBroken
  · obtain ⟨hSpares, hApart⟩ := hNames (hGood.names b p hp)
    exact .inl (hGood.put hp hSpares hApart)
  · exact .inr (hBroken.put b q)

/-- Only the pages, their history and the blocks taken matter. -/
theorem Inv.congr (h : Inv T start w) {w' : World} (hPages : w'.pages = w.pages)
    (hTrace : w'.trace = w.trace) (hLog : w'.compactions = w.compactions)
    (hTaken : ∀ t ∈ T, w'.dataStart < refBlock t ∧
      w'.alloc.isFree (refBlock t - w'.dataStart) = false) : Inv T start w' := by
  have hHistory : w'.history = w.history := by unfold World.history; rw [hPages, hTrace]
  have hSame : Untouched T start w' ↔ Untouched T start w := by unfold Untouched; rw [hHistory]
  refine ⟨⟨?_, ?_, ?_, hTaken⟩, ?_⟩
  · rw [hPages]
    exact h.links.counts
  · rw [hPages]
    exact h.links.live
  · rw [hPages]
    exact h.links.closed
  · rcases h.told with hGood | hBroken
    · exact .inl ⟨hSame.2 hGood.untouched, by rw [hLog]; exact hGood.settled,
        by rw [hPages]; exact hGood.names⟩
    · exact .inr ⟨fun hAll => hBroken.touched (hSame.1 hAll), by rw [hLog]; exact hBroken.unsettled⟩

--
-- Changes of one node
--

/-- A new name of the slot overlaps no other one: there is none, it lies inside the old
one, or it lies past the end of the heap. -/
def Slot.Fits (m : Slot) (p : Page) (slot : Nat) : Prop :=
  m.nameLen = 0 ∨
    (m.nameOffset = (p.slots slot).nameOffset ∧ m.nameLen ≤ (p.slots slot).nameLen) ∨
    p.freeNameOff + m.nameLen ≤ m.nameOffset

/-- `q` is `p` with another node in the slot. -/
structure Page.Differs (p q : Page) (slot : Nat) : Prop where
  slots : ∀ s, s ≠ slot → q.slots s = p.slots s
  free  : ∀ s, s ≠ slot → q.free s = p.free s
  heap  : q.heap = p.heap
  grows : p.freeNameOff ≤ q.freeNameOff
  fits  : (q.slots slot).Fits p slot

theorem Page.Differs.spares {K : Nat → Prop} {slot : Nat} (h : p.Differs q slot) (hK : ¬ K slot) :
    p.Spares K q := by
  refine ⟨?_, fun _ _ _ d _ _ => by rw [h.heap]⟩
  intro t _ ht
  exact h.slots t fun hEq => hK (hEq ▸ ht)

theorem Page.Differs.names {K : Nat → Prop} {slot : Nat} (h : p.Differs q slot) (hK : ¬ K slot)
    (hNames : p.NamesApart K) : q.NamesApart K := by
  have hSame : ∀ t, K t → q.slots t = p.slots t := fun t ht => h.slots t fun hEq => hK (hEq ▸ ht)
  refine ⟨?_, ?_, ?_⟩
  · intro t hLt ht
    rw [hSame t ht]
    exact hNames.inside t hLt ht
  · intro t hLt ht hLen
    rw [hSame t ht] at hLen ⊢
    exact (hNames.below t hLt ht hLen).trans h.grows
  · intro t hLt ht s hs hNe hLen hLen'
    rw [hSame t ht] at hLen ⊢
    by_cases hSlot : s = slot
    · -- The new name against a name of `K`, for each way it may fit.
      subst hSlot
      have hBelow := hNames.below t hLt ht hLen
      unfold Slot.Apart
      rcases h.fits with hNone | ⟨hOff, hShort⟩ | hPast
      · omega
      · have hOld : 0 < (p.slots s).nameLen := by omega
        have hApart := hNames.apart t hLt ht s hs hNe hLen hOld
        unfold Slot.Apart at hApart
        omega
      · right
        omega
    · rw [h.slots s hSlot] at hLen' ⊢
      exact hNames.apart t hLt ht s hs hNe hLen hLen'

/-- The rule for a store that changes one node, not of `T`. -/
theorem Inv.change (h : Inv T start w) {slot : Nat} (hp : w.pages b = some p)
    (hRef : makeRef b slot ∉ T) (hDiffers : p.Differs q slot) (hCounts : q.Counts)
    (hLinks : makeRef b slot ≠ 0 →
      (q.slots slot).firstChild ∉ T ∧ (q.slots slot).nextSibling ∉ T) :
    Inv T start (w.put b q) := by
  refine h.put hp hCounts ?_ ?_ ?_
  · intro s _ hs
    exact hDiffers.free s fun hEq => hRef (hEq ▸ hs)
  · intro s hs hNe hT
    by_cases hSlot : s = slot
    · subst hSlot
      exact hLinks hNe
    · rw [hDiffers.slots s hSlot]
      exact h.links.slot_links hp hs hNe hT
  · intro hNames
    exact ⟨hDiffers.spares hRef, hDiffers.names hRef hNames⟩

--
-- Rules for steps
--

/-- The step keeps the invariant, and what it returns has the property. -/
def Keeps {α : Type} (T : Set Nat) (start : Pages) (x : TrieM α) (Q : α → Prop) : Prop :=
  ∀ w, Inv T start w → Inv T start (x w).2 ∧ ∀ a, (x w).1 = .ok a → Q a

namespace Keeps

variable {α β : Type} {x : TrieM α} {Q : α → Prop} {R : β → Prop}

theorem ret {a : α} (h : Q a) : Keeps T start (TrieM.ret a) Q := by
  intro w hw
  refine ⟨hw, ?_⟩
  intro a' ha
  obtain rfl := Except.ok.inj ha
  exact h

theorem fail (e : Errno) : Keeps T start (TrieM.fail e : TrieM α) Q :=
  fun _ hw => ⟨hw, nofun⟩

theorem bind {f : α → TrieM β} (hx : Keeps T start x Q)
    (hf : ∀ a, Q a → Keeps T start (f a) R) : Keeps T start (x >>= f) R := by
  intro w hw
  obtain ⟨hInv, hVal⟩ := hx w hw
  have hBind : (x >>= f) w = seq x f w := rfl
  rw [hBind]
  unfold seq
  cases hEq : x w with
  | mk r w' =>
    rw [hEq] at hInv hVal
    cases r with
    | ok a => exact hf a (hVal a rfl) w' hInv
    | error e => exact ⟨hInv, nofun⟩

theorem attempt (hx : Keeps T start x Q) :
    Keeps T start (TrieM.attempt x) fun r => ∀ a, r = .ok a → Q a := by
  intro w hw
  obtain ⟨hInv, hVal⟩ := hx w hw
  refine ⟨hInv, ?_⟩
  intro r hr a ha
  obtain rfl := Except.ok.inj hr
  exact hVal a ha

theorem view (f : World → α) : Keeps T start (TrieM.view f) fun _ => True :=
  fun _ hw => ⟨hw, fun _ _ => trivial⟩

theorem ite {c : Prop} [Decidable c] {y : TrieM α} (hThen : c → Keeps T start x Q)
    (hElse : ¬ c → Keeps T start y Q) : Keeps T start (if c then x else y) Q := by
  by_cases hc : c
  · rw [if_pos hc]
    exact hThen hc
  · rw [if_neg hc]
    exact hElse hc

/-- A step that leaves pages and blocks alone. -/
theorem change {f : World → World}
    (hf : ∀ w, (f w).pages = w.pages ∧ (f w).trace = w.trace ∧
      (f w).compactions = w.compactions ∧ (f w).alloc = w.alloc ∧ (f w).dataStart = w.dataStart) :
    Keeps T start (TrieM.change f) fun _ => True := by
  intro w hw
  obtain ⟨hPages, hTrace, hLog, hAlloc, hData⟩ := hf w
  refine ⟨hw.congr hPages hTrace hLog ?_, fun _ _ => trivial⟩
  intro t ht
  show (f w).dataStart < _ ∧ (f w).alloc.isFree (_ - (f w).dataStart) = false
  rw [hAlloc, hData]
  exact hw.links.taken t ht

end Keeps

--
-- Nodes
--

/-- A node that is read outside of `T` leads to no node of `T`. -/
theorem Keeps.readSlot {ref : Nat} (hRef : ref ∉ T) :
    Keeps T start (Trie.readSlot ref) fun n => n.firstChild ∉ T ∧ n.nextSibling ∉ T := by
  intro w hw
  unfold Trie.readSlot
  cases hSlot : w.pages.slot? ref with
  | none => exact ⟨hw, nofun⟩
  | some n =>
    refine ⟨hw, ?_⟩
    intro a ha
    obtain rfl := Except.ok.inj ha
    exact hw.links.closed ref n hRef hSlot

theorem makeRef_refBlock_notMem {ref : Nat} (hRef : ref ∉ T) :
    makeRef (refBlock ref) (refSlot ref) ∉ T := by rwa [makeRef_refBlock]

theorem Page.setSlot_slots_self (p : Page) (slot : Nat) (n : Slot) :
    (p.setSlot slot n).slots slot = n := if_pos rfl

theorem Page.setSlot_slots_of_ne (p : Page) {slot s : Nat} (n : Slot) (h : s ≠ slot) :
    (p.setSlot slot n).slots s = p.slots s := if_neg h

theorem Page.differs_setSlot {slot : Nat} {n : Slot} (hFits : n.Fits p slot) :
    p.Differs (p.setSlot slot n) slot := by
  refine ⟨fun s hs => p.setSlot_slots_of_ne n hs, fun _ _ => rfl, rfl, Nat.le_refl _, ?_⟩
  rw [p.setSlot_slots_self]
  exact hFits

/-- Stores into the fields of a node outside of `T`: its name may go, and its links stay
outside. -/
theorem Keeps.setSlot {ref : Nat} {f : Slot → Slot} (hRef : ref ∉ T)
    (hLinks : ∀ n : Slot, n.firstChild ∉ T → n.nextSibling ∉ T →
      (f n).firstChild ∉ T ∧ (f n).nextSibling ∉ T)
    (hName : ∀ n, (f n).nameLen = 0 ∨
      ((f n).nameOffset = n.nameOffset ∧ (f n).nameLen = n.nameLen)) :
    Keeps T start (Trie.setSlot ref f) fun _ => True := by
  intro w hw
  unfold Trie.setSlot
  cases hPage : w.pages (refBlock ref) with
  | none => exact ⟨hw, fun _ _ => trivial⟩
  | some p =>
    refine ⟨?_, fun _ _ => trivial⟩
    have hFits : (f (p.slots (refSlot ref))).Fits p (refSlot ref) := by
      rcases hName (p.slots (refSlot ref)) with hNone | ⟨hOff, hLen⟩
      · exact .inl hNone
      · exact .inr (.inl ⟨hOff, hLen.le⟩)
    have hCounts := hw.links.counts _ p hPage
    refine hw.change hPage (makeRef_refBlock_notMem hRef) (p.differs_setSlot hFits)
      ⟨hCounts.count, hCounts.room⟩ ?_
    intro hNull
    rw [p.setSlot_slots_self]
    have hOld := hw.links.slot_links hPage (refSlot_lt ref) hNull (makeRef_refBlock_notMem hRef)
    exact hLinks _ hOld.1 hOld.2

--
-- Compaction
--

theorem Page.packed_succ (p : Page) (s : Nat) :
    p.packed (s + 1) = p.packed s + if p.named s then (p.slots s).nameLen else 0 := by
  unfold Page.packed
  rw [List.range_succ, List.map_append, List.sum_append]
  simp

theorem Page.packed_mono (p : Page) {s t : Nat} (h : s ≤ t) : p.packed s ≤ p.packed t := by
  induction t, h using Nat.le_induction with
  | base => exact Nat.le_refl _
  | succ t _ ih =>
    rw [p.packed_succ t]
    omega

theorem Page.packed_named (p : Page) {s : Nat} (h : p.named s = true) :
    p.packed (s + 1) = p.packed s + (p.slots s).nameLen := by
  rw [p.packed_succ, if_pos h]

theorem Page.named_iff (p : Page) (s : Nat) :
    p.named s = true ↔
      p.free s = false ∧ (p.slots s).nameOffset ≠ 0 ∧ (p.slots s).nameLen ≠ 0 := by
  simp [Page.named, and_assoc]

/-- The packed names do not reach past the end of the heap. -/
theorem Page.packed_le (hSane : p.sane = true) {k : Nat} (hk : k ≤ 64) :
    p.packed k ≤ p.freeNameOff := by
  induction k with
  | zero => exact Nat.zero_le _
  | succ k ih =>
    have hBefore := ih (by omega)
    rw [p.packed_succ]
    by_cases hNamed : p.named k = true
    · unfold Page.sane at hSane
      have hSlot := List.all_eq_true.1 hSane k (List.mem_range.2 (by omega))
      simp only [hNamed, Bool.not_true, Bool.false_or, Bool.and_eq_true,
        decide_eq_true_eq] at hSlot
      rw [if_pos hNamed]
      exact hSlot.2
    · rw [if_neg hNamed]
      exact hBefore

/-- A slot after pass 2 has reached slot `k`. -/
def Page.packedSlot (old : Page) (k s : Nat) : Slot :=
  if s < k ∧ old.named s = true
  then { old.slots s with nameOffset := old.packed (s + 1) } else old.slots s

@[simp] theorem Page.packedSlot_nameLen (old : Page) (k s : Nat) :
    (old.packedSlot k s).nameLen = (old.slots s).nameLen := by
  unfold Page.packedSlot
  split <;> rfl

/-- What a compaction of the page may rely on: the slots of `K` are live, their names are
apart from all others and lie where the compaction puts them. -/
structure Page.InPlace (K : Nat → Prop) (old : Page) : Prop where
  live    : ∀ t < 64, K t → old.free t = false
  names   : old.NamesApart K
  settled : ∀ t < 64, K t → old.named t = true → (old.slots t).nameOffset = old.packed (t + 1)

namespace Page.InPlace

variable {K : Nat → Prop} {old : Page} {k s t : Nat}

theorem named (h : old.InPlace K) (ht : t < 64) (hK : K t) (hLen : 0 < (old.slots t).nameLen) :
    old.named t = true := by
  have hInside := h.names.inside t ht hK
  exact (old.named_iff t).2 ⟨h.live t ht hK, by omega, by omega⟩

theorem packedSlot_eq (h : old.InPlace K) (ht : t < 64) (hK : K t) :
    old.packedSlot k t = old.slots t := by
  unfold Page.packedSlot
  split
  · rename_i hPacked
    rw [← h.settled t ht hK hPacked.2]
  · rfl

/-- The place of another name is apart from the name of `K`. -/
theorem apart (h : old.InPlace K) (ht : t < 64) (hK : K t) (hLen : 0 < (old.slots t).nameLen)
    (hNe : s ≠ t) (hs : old.named s = true) :
    old.packed (s + 1) + (old.slots t).nameLen ≤ (old.slots t).nameOffset ∨
      (old.slots t).nameOffset + (old.slots s).nameLen ≤ old.packed (s + 1) := by
  have hNamed := h.named ht hK hLen
  rw [h.settled t ht hK hNamed, old.packed_named hs, old.packed_named hNamed]
  rcases Nat.lt_or_gt_of_ne hNe with hLt | hGt
  · left
    have hMono := old.packed_mono (show s + 1 ≤ t from hLt)
    rw [old.packed_named hs] at hMono
    omega
  · right
    have hMono := old.packed_mono (show t + 1 ≤ s from hGt)
    rw [old.packed_named hNamed] at hMono
    omega

/-- The names of `K` are apart from all others during pass 2 also. -/
theorem names_packed (h : old.InPlace K) (hSlots : ∀ s, q.slots s = old.packedSlot k s)
    (hBelow : ∀ t < 64, K t → 0 < (old.slots t).nameLen →
      (old.slots t).nameOffset ≤ q.freeNameOff) : q.NamesApart K := by
  refine ⟨?_, ?_, ?_⟩
  · intro t ht hK
    rw [hSlots, h.packedSlot_eq ht hK]
    exact h.names.inside t ht hK
  · intro t ht hK
    rw [hSlots, h.packedSlot_eq ht hK]
    exact hBelow t ht hK
  · intro t ht hK s hs hNe hLen hLen'
    rw [hSlots t, h.packedSlot_eq ht hK] at hLen ⊢
    rw [hSlots s] at hLen' ⊢
    rw [packedSlot_nameLen] at hLen'
    by_cases hPacked : s < k ∧ old.named s = true
    · have hApart := h.apart ht hK hLen hNe hPacked.2
      unfold Slot.Apart Page.packedSlot
      rw [if_pos hPacked]
      exact hApart
    · have hOld := h.names.apart t ht hK s hs hNe hLen hLen'
      unfold Page.packedSlot
      rw [if_neg hPacked]
      exact hOld

end Page.InPlace

theorem Page.length_nameRegion (p : Page) (s : Nat) :
    (p.nameRegion s).length = (p.slots s).nameLen := by
  simp [Page.nameRegion]

theorem Page.store_heap_of_outside (p : Page) {off d : Nat} {bytes : List UInt8}
    (hOut : ¬ (off < d + bytes.length ∧ d ≤ off)) :
    (p.store off bytes).heap d = p.heap d := if_neg hOut

/-- A name that is stored where it lies. -/
theorem Page.store_nameRegion_heap (p old : Page) {s d : Nat}
    (hLow : (old.slots s).nameOffset < d + (old.slots s).nameLen)
    (hHigh : d ≤ (old.slots s).nameOffset) :
    (p.store (old.slots s).nameOffset (old.nameRegion s)).heap d = old.heap d := by
  have hIn : (old.slots s).nameOffset < d + (old.nameRegion s).length ∧
      d ≤ (old.slots s).nameOffset := by
    rw [old.length_nameRegion]
    exact ⟨hLow, hHigh⟩
  have hLt : (old.slots s).nameOffset - d < (old.slots s).nameLen := by omega
  have hIndex : (old.slots s).nameOffset - ((old.slots s).nameOffset - d) = d := by omega
  refine (if_pos hIn).trans ?_
  unfold Page.nameRegion
  rw [List.getD_eq_getElem?_getD, List.getElem?_map, List.getElem?_range hLt]
  simp [hIndex]

theorem Page.packedSlot_self (old : Page) (k : Nat) : old.packedSlot k k = old.slots k :=
  if_neg fun h => absurd h.1 (Nat.lt_irrefl k)

theorem Page.packedSlot_succ_of_ne (old : Page) {k s : Nat} (h : s ≠ k) :
    old.packedSlot (k + 1) s = old.packedSlot k s := by
  have hIff : (s < k + 1 ∧ old.named s = true) ↔ (s < k ∧ old.named s = true) := by
    constructor
    · intro hNamed
      exact ⟨by omega, hNamed.2⟩
    · intro hNamed
      exact ⟨by omega, hNamed.2⟩
  unfold Page.packedSlot
  simp only [hIff]

/-- The state when pass 2 on the page `old` has reached slot `k`. -/
structure Packing (T : Set Nat) (start : Pages) (block : Nat) (old : Page) (before : World)
    (k : Nat) (w : World) : Prop where
  links : Links T w
  page  : ∃ p, w.pages block = some p ∧ p.free = old.free ∧ p.liveCount = old.liveCount ∧
    p.freeNameOff = old.freeNameOff ∧ ∀ s, p.slots s = old.packedSlot k s
  past  : Untouched T start w → Untouched T start before
  log   : w.compactions = before.compactions
  good  : old.InPlace (fun s => makeRef block s ∈ T) → Good T start before →
    Good T start w ∧ ∀ p, w.pages block = some p → old.Spares (fun s => makeRef block s ∈ T) p

namespace Packing

variable {old : Page} {before : World} {k : Nat}

theorem skip (h : Packing T start b old before k w) (hNamed : old.named k ≠ true) :
    Packing T start b old before (k + 1) w := by
  obtain ⟨p, hp, hFree, hCount, hOff, hSlots⟩ := h.page
  refine ⟨h.links, ⟨p, hp, hFree, hCount, hOff, ?_⟩, h.past, h.log, h.good⟩
  intro s
  by_cases hs : s = k
  · rw [hSlots s, hs, old.packedSlot_self]
    exact (if_neg fun hBoth => hNamed hBoth.2).symm
  · rw [hSlots s, old.packedSlot_succ_of_ne hs]

theorem step (h : Packing T start b old before k w) (hk : k < 64) (hCounts : old.Counts) :
    Packing T start b old before (k + 1) (packSlot b old k w) := by
  unfold packSlot
  by_cases hNamed : old.named k = true
  · rw [if_pos hNamed]
    obtain ⟨p, hp, hFree, hCount, hOff, hSlots⟩ := h.page
    simp only [hp]
    generalize hFirst : p.setSlot k { p.slots k with nameOffset := old.packed (k + 1) } = p₁
    generalize hSecond : p₁.store (old.packed (k + 1)) (old.nameRegion k) = p₂
    have hSlots₁ : ∀ s, p₁.slots s = old.packedSlot (k + 1) s := by
      intro s
      rw [← hFirst]
      by_cases hs : s = k
      · rw [hs, Page.setSlot_slots_self, hSlots, old.packedSlot_self]
        exact (if_pos ⟨Nat.lt_succ_self k, hNamed⟩).symm
      · rw [Page.setSlot_slots_of_ne _ _ hs, hSlots, old.packedSlot_succ_of_ne hs]
    have hSlots₂ : ∀ s, p₂.slots s = old.packedSlot (k + 1) s := by
      intro s
      rw [← hSecond, ← hSlots₁ s]
      rfl
    have hp₁ : (w.put b p₁).pages b = some p₁ := by simp [World.put]
    have hCounts₁ : p₁.Counts := by
      rw [← hFirst]
      refine ⟨?_, ?_⟩
      · show p.liveCount = ((Finset.range 64).filter fun s => p.free s = false).card
        rw [hFree, hCount]
        exact hCounts.count
      · show p.freeNameOff ≤ heapSize
        rw [hOff]
        exact hCounts.room
    have hCounts₂ : p₂.Counts := by
      rw [← hSecond]
      exact ⟨hCounts₁.count, hCounts₁.room⟩
    -- Both stores keep the links of all slots.
    have hLinks : ∀ s < 64, makeRef b s ≠ 0 → makeRef b s ∉ T →
        (p₁.slots s).firstChild ∉ T ∧ (p₁.slots s).nextSibling ∉ T := by
      intro s hs hNe hT
      have hOld := h.links.slot_links hp hs hNe hT
      rw [← hFirst]
      by_cases hEq : s = k
      · rw [hEq, Page.setSlot_slots_self]
        rwa [hEq] at hOld
      · rwa [Page.setSlot_slots_of_ne _ _ hEq]
    have hLinks₁ := h.links.put hp hCounts₁ (fun s _ _ => by rw [← hFirst]; rfl) hLinks
    refine ⟨hLinks₁.put hp₁ hCounts₂ (fun s _ _ => by rw [← hSecond]; rfl) ?_, ?_, ?_, h.log, ?_⟩
    · rw [← hSecond]
      exact hLinks
    · refine ⟨p₂, Function.update_self _ _ _, ?_, ?_, ?_, hSlots₂⟩
      · rw [← hFree, ← hSecond, ← hFirst]
        rfl
      · rw [← hCount, ← hSecond, ← hFirst]
        rfl
      · rw [← hOff, ← hSecond, ← hFirst]
        rfl
    · intro hAll
      exact h.past hAll.of_put.of_put
    · intro hPlace hGood
      obtain ⟨hGood, hSpares⟩ := h.good hPlace hGood
      have hOld := hSpares p hp
      have hBelow : ∀ t < 64, makeRef b t ∈ T → 0 < (old.slots t).nameLen →
          (old.slots t).nameOffset ≤ p.freeNameOff := by
        rw [hOff]
        exact hPlace.names.below
      have hSpares₁ : p.Spares (fun s => makeRef b s ∈ T) p₁ := by
        refine ⟨?_, fun _ _ _ d _ _ => by rw [← hFirst]; rfl⟩
        intro t ht hK
        rw [hSlots₁ t, hSlots t, hPlace.packedSlot_eq ht hK, hPlace.packedSlot_eq ht hK]
      have hNames₁ := hPlace.names_packed hSlots₁ (by rw [← hFirst]; exact hBelow)
      have hGood₁ := hGood.put hp hSpares₁ hNames₁
      have hSpares₂ : old.Spares (fun s => makeRef b s ∈ T) p₂ := by
        refine ⟨fun t ht hK => by rw [hSlots₂ t, hPlace.packedSlot_eq ht hK], ?_⟩
        intro t ht hK d hLow hHigh
        rw [← hSecond]
        by_cases hEq : t = k
        · -- The name of `K` is written where it lies.
          subst hEq
          rw [← hPlace.settled t ht hK hNamed]
          exact p₁.store_nameRegion_heap old hLow hHigh
        · have hLen : 0 < (old.slots t).nameLen := by omega
          have hApart := hPlace.apart ht hK hLen (Ne.symm hEq) hNamed
          have hOut : ¬ (old.packed (k + 1) < d + (old.nameRegion k).length ∧
              d ≤ old.packed (k + 1)) := by
            rw [old.length_nameRegion]
            omega
          rw [p₁.store_heap_of_outside hOut, ← hFirst]
          exact hOld.name t ht hK d hLow hHigh
      refine ⟨hGood₁.put hp₁ ?_ ?_, ?_⟩
      · refine ⟨fun t _ _ => by rw [hSlots₁, hSlots₂], ?_⟩
        intro t ht hK d hLow hHigh
        rw [hSlots₁, hPlace.packedSlot_eq ht hK] at hLow hHigh
        rw [hSpares₂.name t ht hK d hLow hHigh, ← hFirst]
        exact (hOld.name t ht hK d hLow hHigh).symm
      · exact hPlace.names_packed hSlots₂ (by rw [← hSecond, ← hFirst]; exact hBelow)
      · intro p' hp'
        simp only [World.put, Function.update_self] at hp'
        obtain rfl := Option.some.inj hp'
        exact hSpares₂
  · rw [if_neg hNamed]
    exact h.skip hNamed

theorem foldl (hCounts : old.Counts) (h : Packing T start b old before 0 before) :
    ∀ k, k ≤ 64 → Packing T start b old before k
      ((List.range k).foldl (fun w slot => packSlot b old slot w) before) := by
  intro k
  induction k with
  | zero => exact fun _ => h
  | succ k ih =>
    intro hk
    rw [List.range_succ, List.foldl_append]
    exact (ih (by omega)).step (by omega) hCounts

end Packing

/-- What a whole compaction of the page `old` does. -/
structure Compacted (T : Set Nat) (start : Pages) (block : Nat) (old : Page) (before w : World) :
    Prop where
  links : Links T w
  page  : ∃ p, w.pages block = some p ∧ ∀ s, p.slots s = old.packedSlot 64 s
  past  : Untouched T start w → Untouched T start before
  log   : w.compactions = before.compactions
  good  : old.InPlace (fun s => makeRef block s ∈ T) → Good T start before → Good T start w

theorem Packing.packNames {old : Page} {before : World}
    (h : Packing T start b old before 0 before) (hCounts : old.Counts) (hSane : old.sane = true) :
    Compacted T start b old before (Trie.packNames b old before) := by
  have hPacked := h.foldl hCounts 64 (Nat.le_refl _)
  have hRoom : old.packed 64 ≤ heapSize :=
    (Page.packed_le hSane (Nat.le_refl _)).trans hCounts.room
  have hStop : ∀ t < 64, old.packed (t + 1) ≤ old.packed 64 := fun t ht => old.packed_mono ht
  unfold Trie.packNames
  generalize (List.range 64).foldl (fun w slot => packSlot b old slot w) before = w at hPacked ⊢
  generalize old.packed 64 = stop at hRoom hStop ⊢
  obtain ⟨p, hp, hFree, hCount, hOff, hSlots⟩ := hPacked.page
  simp only [hp]
  have hCounts' : ({ p with freeNameOff := stop } : Page).Counts := by
    refine ⟨?_, hRoom⟩
    show p.liveCount = ((Finset.range 64).filter fun s => p.free s = false).card
    rw [hFree, hCount]
    exact hCounts.count
  refine ⟨hPacked.links.put hp hCounts' (fun _ _ _ => rfl) ?_, ?_, ?_, hPacked.log, ?_⟩
  · intro s hs hNe hT
    exact hPacked.links.slot_links hp hs hNe hT
  · exact ⟨{ p with freeNameOff := stop }, Function.update_self _ _ _, hSlots⟩
  · intro hAll
    exact hPacked.past hAll.of_put
  · intro hPlace hGood
    obtain ⟨hGood', _⟩ := hPacked.good hPlace hGood
    refine hGood'.put hp ⟨fun _ _ _ => rfl, fun _ _ _ _ _ _ => rfl⟩ ?_
    refine hPlace.names_packed hSlots ?_
    intro t ht hK hLen
    rw [hPlace.settled t ht hK (hPlace.named ht hK hLen)]
    exact hStop t ht

/-- A name of `T` that is out of place gets another offset. -/
theorem Compacted.touched {before : World} (h : Compacted T start b p before w)
    (hp : before.pages b = some p) (hBefore : Untouched T start before)
    (hOut : ¬ Settled T (b, p)) : ¬ Untouched T start w := by
  intro hAll
  apply hOut
  intro t ht hK hNamed
  obtain ⟨q, hq, hSlots⟩ := h.page
  obtain ⟨p₀, p', hp₀, hp', hSlot, _⟩ := hBefore _ List.mem_cons_self _ hK
  obtain ⟨p₁, q', hp₁, hq', hSlot', _⟩ := hAll _ List.mem_cons_self _ hK
  rw [refBlock_makeRef] at hp₀ hp' hp₁ hq'
  rw [refSlot_makeRef ht] at hSlot hSlot'
  obtain rfl := Option.some.inj (hp.symm.trans hp')
  obtain rfl := Option.some.inj (hq.symm.trans hq')
  obtain rfl := Option.some.inj (hp₀.symm.trans hp₁)
  have hKept : p.packedSlot 64 t = p.slots t := by rw [← hSlots t, hSlot', hSlot]
  have hMoved : p.packedSlot 64 t = { p.slots t with nameOffset := p.packed (t + 1) } :=
    if_pos ⟨ht, hNamed⟩
  rw [hMoved] at hKept
  exact (congrArg Slot.nameOffset hKept).symm

/-- The compaction of a page that is in place for `T` touches nothing of `T`; that of any
other page does. -/
theorem Inv.packNames (h : Inv T start w) (hp : w.pages b = some p) (hSane : p.sane = true) :
    Inv T start (Trie.packNames b p { w with compactions := (b, p) :: w.compactions }) := by
  generalize hBefore : { w with compactions := (b, p) :: w.compactions } = before
  have hp' : before.pages b = some p := by rw [← hBefore]; exact hp
  have hLog : before.compactions = (b, p) :: w.compactions := by rw [← hBefore]
  have hSame : Untouched T start before ↔ Untouched T start w := by rw [← hBefore]; rfl
  have hLinks : Links T before := by
    rw [← hBefore]
    exact ⟨h.links.counts, h.links.live, h.links.closed, h.links.taken⟩
  have hStart : Packing T start b p before 0 before := by
    refine ⟨hLinks, ⟨p, hp', rfl, rfl, rfl, fun s => ?_⟩, id, rfl, ?_⟩
    · exact (if_neg fun hBoth => absurd hBoth.1 (Nat.not_lt_zero s)).symm
    · intro _ hGood
      refine ⟨hGood, ?_⟩
      intro q hq
      obtain rfl := Option.some.inj (hp'.symm.trans hq)
      exact Page.Spares.refl _ p
  have hDone := hStart.packNames (h.links.counts b p hp) hSane
  refine ⟨hDone.links, ?_⟩
  rcases h.told with hGood | hBroken
  · by_cases hSettled : Settled T (b, p)
    · left
      refine hDone.good ⟨?_, hGood.names b p hp, hSettled⟩ ⟨hSame.2 hGood.untouched, ?_, ?_⟩
      · intro t ht hK
        obtain ⟨_, q, hq, hLive⟩ := h.links.live _ hK
        rw [refBlock_makeRef] at hq
        obtain rfl := Option.some.inj (hp.symm.trans hq)
        rwa [refSlot_makeRef ht] at hLive
      · rw [hLog]
        intro c hc
        rcases List.mem_cons.1 hc with rfl | hOld
        · exact hSettled
        · exact hGood.settled c hOld
      · rw [← hBefore]
        exact hGood.names
    · right
      refine ⟨hDone.touched hp' (hSame.2 hGood.untouched) hSettled, ?_⟩
      intro hAll
      rw [hDone.log, hLog] at hAll
      exact hSettled (hAll _ List.mem_cons_self)
  · right
    refine ⟨fun hAll => hBroken.touched (hSame.1 (hDone.past hAll)), ?_⟩
    intro hAll
    rw [hDone.log, hLog] at hAll
    exact hBroken.unsettled fun c hc => hAll c (List.mem_cons_of_mem _ hc)

theorem Keeps.compactNames (block : Nat) :
    Keeps T start (Trie.compactNames block) fun _ => True := by
  intro w hw
  refine ⟨?_, fun _ _ => trivial⟩
  unfold Trie.compactNames TrieM.change
  cases hPage : w.pages block with
  | none => simpa only [hPage] using hw
  | some p =>
    simp only [hPage]
    by_cases hSkip : p.freeNameOff = 0 ∨ w.noScratch = true ∨ p.sane = false
    · rw [if_pos hSkip]
      exact hw
    · rw [if_neg hSkip]
      refine hw.packNames hPage ?_
      by_contra hSane
      exact hSkip (.inr (.inr (by simpa using hSane)))

--
-- Storing a name
--

/-- `Keeps` for a step that needs `P` of the state before and gives `Q` of the state after. -/
def KeepsAt {α : Type} (T : Set Nat) (start : Pages) (P : World → Prop) (x : TrieM α)
    (Q : α → World → Prop) : Prop :=
  ∀ w, Inv T start w → P w → Inv T start (x w).2 ∧ ∀ a, (x w).1 = .ok a → Q a (x w).2

namespace KeepsAt

variable {α β : Type} {P : World → Prop} {x : TrieM α} {Q : α → World → Prop}
  {R : β → World → Prop}

theorem of_keeps (h : Keeps T start x fun _ => True) : KeepsAt T start P x fun _ _ => True :=
  fun w hw _ => ⟨(h w hw).1, fun _ _ => trivial⟩

theorem ret {a : α} (h : ∀ w, P w → Q a w) : KeepsAt T start P (TrieM.ret a) Q := by
  intro w hw hP
  refine ⟨hw, ?_⟩
  intro a' ha
  obtain rfl := Except.ok.inj ha
  exact h w hP

theorem fail (e : Errno) : KeepsAt T start P (TrieM.fail e : TrieM α) Q :=
  fun _ hw _ => ⟨hw, nofun⟩

theorem bind {f : α → TrieM β} (hx : KeepsAt T start P x Q)
    (hf : ∀ a, KeepsAt T start (Q a) (f a) R) : KeepsAt T start P (x >>= f) R := by
  intro w hw hP
  obtain ⟨hInv, hVal⟩ := hx w hw hP
  have hBind : (x >>= f) w = seq x f w := rfl
  rw [hBind]
  unfold seq
  cases hEq : x w with
  | mk r w' =>
    rw [hEq] at hInv hVal
    cases r with
    | ok a => exact hf a w' hInv (hVal a rfl)
    | error e => exact ⟨hInv, nofun⟩

theorem attempt (hx : KeepsAt T start P x Q) :
    KeepsAt T start P (TrieM.attempt x) fun r w => ∀ a, r = .ok a → Q a w := by
  intro w hw hP
  obtain ⟨hInv, hVal⟩ := hx w hw hP
  refine ⟨hInv, ?_⟩
  intro r hr a ha
  obtain rfl := Except.ok.inj hr
  exact hVal a ha

/-- A step after which only what it returns matters. -/
theorem keeps {Q : α → Prop} (h : KeepsAt T start (fun _ => True) x fun a _ => Q a) :
    Keeps T start x Q :=
  fun w hw => h w hw trivial

theorem always (h : KeepsAt T start (fun _ => True) x Q) : KeepsAt T start P x Q :=
  fun w hw _ => h w hw trivial

theorem of_value {Q : α → Prop} (h : Keeps T start x Q) : KeepsAt T start P x fun a _ => Q a :=
  fun w hw _ => h w hw

end KeepsAt

/-- The node has room for a name of `len` bytes. -/
def HasRoom (ref len : Nat) (w : World) : Prop :=
  ∀ p, w.pages (refBlock ref) = some p → len + 2 ≤ (p.slots (refSlot ref)).nameLen

/-- The heap of the node's page can grow by a name of `len` bytes. -/
def CanGrow (ref len : Nat) (w : World) : Prop :=
  ∀ p, w.pages (refBlock ref) = some p → p.freeNameOff + (len + 2) ≤ heapSize

theorem heapFull_of_page {w : World} {p : Page} {block : Nat} (size : Nat)
    (h : w.pages block = some p) :
    heapFull block size w = (.ok (decide (heapSize < p.freeNameOff + size)), w) := by
  unfold heapFull view
  simp only [h]

theorem keepsAt_heapFull {P : World → Prop} (ref len : Nat) :
    KeepsAt T start P (heapFull (refBlock ref) (len + 2)) fun full w =>
      full = false → CanGrow ref len w := by
  intro w hw _
  refine ⟨hw, ?_⟩
  intro full hFull hFalse p hp
  have hPage : w.pages (refBlock ref) = some p := hp
  rw [heapFull_of_page (len + 2) hPage, hFalse] at hFull
  have hLe : ¬ heapSize < p.freeNameOff + (len + 2) :=
    of_decide_eq_false (Except.ok.inj hFull)
  omega

theorem keepsAt_growName {ref len : Nat} (hRef : ref ∉ T) :
    KeepsAt T start (CanGrow ref len) (growName ref len) fun _ w => HasRoom ref len w := by
  intro w hw hRoom
  unfold growName
  cases hPage : w.pages (refBlock ref) with
  | none => exact ⟨hw, fun _ _ p hp => absurd (hPage.symm.trans hp) nofun⟩
  | some p =>
    dsimp only
    have hCounts := hw.links.counts _ p hPage
    refine ⟨?_, ?_⟩
    · refine hw.change hPage (makeRef_refBlock_notMem hRef) ?_ ⟨hCounts.count, hRoom p hPage⟩ ?_
      · refine ⟨fun s hs => if_neg hs, fun _ _ => rfl, rfl, Nat.le_add_right _ _, ?_⟩
        rw [Page.setSlot_slots_self]
        exact .inr (.inr (Nat.le_refl _))
      · intro hNull
        rw [Page.setSlot_slots_self]
        exact hw.links.slot_links hPage (refSlot_lt ref) hNull (makeRef_refBlock_notMem hRef)
    · intro _ _ p' hp'
      simp only [World.put, Function.update_self] at hp'
      obtain rfl := Option.some.inj hp'
      rw [Page.setSlot_slots_self]

theorem keepsAt_readSlot {P : World → Prop} (ref : Nat) :
    KeepsAt T start P (readSlot ref) fun n w =>
      ∀ p, w.pages (refBlock ref) = some p → p.slots (refSlot ref) = n := by
  intro w hw _
  unfold readSlot
  cases hSlot : w.pages.slot? ref with
  | none => exact ⟨hw, nofun⟩
  | some n =>
    refine ⟨hw, ?_⟩
    intro n' hn p hp
    obtain rfl := Except.ok.inj hn
    obtain ⟨_, p', hp', hEq⟩ := Pages.slot?_eq_some.1 hSlot
    obtain rfl := Option.some.inj (hp'.symm.trans hp)
    exact hEq

theorem keepsAt_allocName {ref len : Nat} (hRef : ref ∉ T) (hLen : len ≠ 0) :
    KeepsAt T start (fun _ => True) (allocName ref len) fun _ w => HasRoom ref len w := by
  unfold allocName
  rw [if_neg hLen]
  split
  · exact .fail _
  · refine .bind (keepsAt_readSlot ref) fun n => ?_
    split
    · rename_i hFits
      refine .ret fun w hn p hp => ?_
      rw [hn p hp]
      exact hFits.2
    · refine .bind (keepsAt_heapFull ref len) fun full => ?_
      cases full with
      | true =>
        rw [if_pos rfl]
        refine .bind (.of_keeps (Keeps.compactNames _)) fun _ => ?_
        refine .bind (keepsAt_heapFull ref len) fun full => ?_
        cases full with
        | true => exact .fail _
        | false =>
          intro w hw hGrow
          exact keepsAt_growName hRef w hw (hGrow rfl)
      | false =>
        intro w hw hGrow
        exact keepsAt_growName hRef w hw (hGrow rfl)

theorem length_nameRecord (name : List UInt8) : (nameRecord name).length = name.length + 2 := rfl

/-- Bytes that lie inside the name of a slot outside of `K`. -/
theorem Page.NamesApart.store {K : Nat → Prop} {slot : Nat} {bytes : List UInt8}
    (h : p.NamesApart K) (hSlot : slot < 64) (hK : ¬ K slot)
    (hRoom : bytes.length ≤ (p.slots slot).nameLen) (hSome : bytes ≠ []) :
    p.Spares K (p.store (p.slots slot).nameOffset bytes) := by
  refine ⟨fun _ _ _ => rfl, ?_⟩
  intro t ht hKt d hLow hHigh
  have hPos : 0 < bytes.length := List.length_pos_of_ne_nil hSome
  have hNe : slot ≠ t := fun hEq => hK (hEq ▸ hKt)
  have hApart := h.apart t ht hKt slot hSlot hNe (by omega) (by omega)
  unfold Slot.Apart at hApart
  refine p.store_heap_of_outside ?_
  omega

theorem keepsAt_writeName {ref : Nat} {name : List UInt8} (hRef : ref ∉ T) :
    KeepsAt T start (HasRoom ref name.length) (writeName ref name) fun _ _ => True := by
  intro w hw hRoom
  refine ⟨?_, fun _ _ => trivial⟩
  unfold writeName
  cases hPage : w.pages (refBlock ref) with
  | none => exact hw
  | some p =>
    have hCounts := hw.links.counts _ p hPage
    have hT := makeRef_refBlock_notMem hRef
    have hLinks := fun hNull => hw.links.slot_links hPage (refSlot_lt ref) hNull hT
    have hFits := hRoom p hPage
    dsimp only
    generalize hStored : p.store (p.slots (refSlot ref)).nameOffset (nameRecord name) = p₁
    have hSlots : p₁.slots = p.slots := by rw [← hStored]; rfl
    have hCounts₁ : p₁.Counts := by
      rw [← hStored]
      exact ⟨hCounts.count, hCounts.room⟩
    have hInv₁ : Inv T start (w.put (refBlock ref) p₁) := by
      refine hw.put hPage hCounts₁ (fun _ _ _ => by rw [← hStored]; rfl) ?_ ?_
      · rw [hSlots]
        exact fun s hs hNe hOut => hw.links.slot_links hPage hs hNe hOut
      · intro hNames
        rw [← hStored]
        exact ⟨hNames.store (refSlot_lt ref) hT hFits nofun,
          hNames.inside, hNames.below, hNames.apart⟩
    refine hInv₁.change (by simp [World.put]) hT (p₁.differs_setSlot (.inr (.inl ⟨?_, ?_⟩)))
      ⟨hCounts₁.count, hCounts₁.room⟩ ?_
    · rw [hSlots]
    · rw [hSlots]
      exact hFits
    · rw [Page.setSlot_slots_self]
      exact hLinks

theorem Keeps.storeName {ref : Nat} {name : List UInt8} (hRef : ref ∉ T) :
    Keeps T start (Trie.storeName ref name) fun _ => True := by
  unfold Trie.storeName
  refine .ite (fun _ => .fail _) fun _ => ?_
  refine .bind (Keeps.readSlot hRef) fun _ _ => ?_
  by_cases hLen : name.length = 0
  · have hSkip : allocName ref name.length = TrieM.ret () := by
      unfold allocName
      rw [if_pos hLen]
    rw [hSkip]
    refine .bind (Q := fun _ => True) (.ret trivial) fun _ _ => ?_
    rw [if_pos hLen]
    exact Keeps.setSlot hRef (fun n hFirst hNext => ⟨hFirst, hNext⟩) fun n => .inl rfl
  · simp only [if_neg hLen]
    intro w hw
    have hStored : KeepsAt T start (fun _ => True)
        (allocName ref name.length >>= fun _ => writeName ref name) fun _ _ => True :=
      .bind (keepsAt_allocName hRef hLen) fun _ => keepsAt_writeName hRef
    exact hStored w hw trivial

--
-- Taking a slot
--

theorem card_live_take {free : Nat → Bool} {slot : Nat} (hs : slot < 64) (hFree : free slot = true) :
    ((Finset.range 64).filter fun s => (if s = slot then false else free s) = false).card =
      ((Finset.range 64).filter fun s => free s = false).card + 1 := by
  have hEq : ((Finset.range 64).filter fun s => (if s = slot then false else free s) = false) =
      insert slot ((Finset.range 64).filter fun s => free s = false) := by
    ext s
    by_cases h : s = slot
    · simp [h, hs]
    · simp [h]
  rw [hEq, Finset.card_insert_of_notMem (by simp [hFree])]

theorem card_live_drop {free : Nat → Bool} {slot : Nat} (hs : slot < 64)
    (hLive : free slot = false) :
    ((Finset.range 64).filter fun s => (if s = slot then true else free s) = false).card =
      ((Finset.range 64).filter fun s => free s = false).card - 1 := by
  have hEq : ((Finset.range 64).filter fun s => (if s = slot then true else free s) = false) =
      ((Finset.range 64).filter fun s => free s = false).erase slot := by
    ext s
    by_cases h : s = slot
    · simp [h]
    · simp [h]
  rw [hEq, Finset.card_erase_of_mem (by simp [hs, hLive])]

theorem Page.freeSlot_spec {slot : Nat} (h : p.freeSlot = some slot) :
    slot < 64 ∧ p.free slot = true :=
  ⟨List.mem_range.1 (List.mem_of_find?_eq_some h), List.find?_some h⟩

/-- A free slot is not of `T`. -/
theorem Links.free_notMem (h : Links T w) (hp : w.pages b = some p) {slot : Nat} (hs : slot < 64)
    (hFree : p.free slot = true) : makeRef b slot ∉ T := by
  intro hMem
  obtain ⟨_, p', hp', hLive⟩ := h.live _ hMem
  rw [refBlock_makeRef] at hp'
  obtain rfl := Option.some.inj (hp.symm.trans hp')
  rw [refSlot_makeRef hs, hFree] at hLive
  cases hLive

theorem Page.takeSlot_spec (p : Page) (slot size : Nat) :
    (p.takeSlot slot size).liveCount = p.liveCount + 1 ∧
    (p.takeSlot slot size).free = (fun s => if s = slot then false else p.free s) ∧
    (p.takeSlot slot size).freeNameOff = p.freeNameOff + size ∧
    p.Differs (p.takeSlot slot size) slot ∧
    ((p.takeSlot slot size).slots slot).firstChild = 0 ∧
    ((p.takeSlot slot size).slots slot).nextSibling = 0 := by
  unfold Page.takeSlot
  by_cases hSize : size = 0
  · subst hSize
    simp only [if_true]
    refine ⟨rfl, rfl, rfl, ⟨fun s hs => if_neg hs, fun s hs => if_neg hs, rfl, Nat.le_refl _, ?_⟩,
      ?_, ?_⟩
    · rw [Page.setSlot_slots_self]
      exact .inl rfl
    · rw [Page.setSlot_slots_self]
      rfl
    · rw [Page.setSlot_slots_self]
      rfl
  · simp only [if_neg hSize]
    refine ⟨rfl, rfl, rfl, ⟨fun s hs => if_neg hs, fun s hs => if_neg hs, rfl,
      Nat.le_add_right _ _, ?_⟩, ?_, ?_⟩
    · rw [Page.setSlot_slots_self]
      exact .inr (.inr (Nat.le_refl _))
    · rw [Page.setSlot_slots_self]
      rfl
    · rw [Page.setSlot_slots_self]
      rfl

theorem Keeps.allocFromBlock (block size : Nat) :
    Keeps T start (Trie.allocFromBlock block size) fun r => ∀ e, r = some e → e.1 ∉ T := by
  intro w hw
  unfold Trie.allocFromBlock
  cases hPage : w.pages block with
  | none => exact ⟨hw, fun _ hr e he => absurd ((Except.ok.inj hr).trans he) nofun⟩
  | some p =>
    dsimp only
    by_cases hFull : heapSize < p.freeNameOff + size ∧ size ≠ 0
    · rw [if_pos hFull]
      exact ⟨hw, fun _ hr e he => absurd ((Except.ok.inj hr).trans he) nofun⟩
    · rw [if_neg hFull]
      cases hSlot : p.freeSlot with
      | none => exact ⟨hw, fun _ hr e he => absurd ((Except.ok.inj hr).trans he) nofun⟩
      | some slot =>
        obtain ⟨hs, hFree⟩ := Page.freeSlot_spec hSlot
        obtain ⟨hCount, hBits, hOff, hDiffers, hFirst, hNext⟩ := p.takeSlot_spec slot size
        have hT := hw.links.free_notMem hPage hs hFree
        have hCounts := hw.links.counts _ p hPage
        have hZero := hw.links.zero_notMem
        dsimp only
        refine ⟨hw.change hPage hT hDiffers ⟨?_, ?_⟩ ?_, ?_⟩
        · rw [hCount, hBits, card_live_take hs hFree, hCounts.count]
        · rw [hOff]
          have hRoom := hCounts.room
          by_cases hSize : size = 0
          · omega
          · have hLe : ¬ heapSize < p.freeNameOff + size := fun hLt => hFull ⟨hLt, hSize⟩
            omega
        · intro _
          rw [hFirst, hNext]
          exact ⟨hZero, hZero⟩
        · intro r hr e he
          have hEq := (Except.ok.inj hr).trans he
          obtain rfl := Option.some.inj hEq
          exact hT

--
-- New pages
--

/-- The rule for a store into a block that holds nothing of `T`. -/
theorem Inv.putElsewhere (h : Inv T start w) (hOut : ∀ t ∈ T, refBlock t ≠ b) (hCounts : q.Counts)
    (hLinks : ∀ s < 64, (q.slots s).firstChild ∉ T ∧ (q.slots s).nextSibling ∉ T) :
    Inv T start (w.put b q) := by
  have hPages : ∀ b', b' ≠ b → (w.put b q).pages b' = w.pages b' :=
    fun b' hb => Function.update_of_ne hb _ _
  refine ⟨⟨?_, ?_, ?_, h.links.taken⟩, ?_⟩
  · intro b' p' hp'
    by_cases hb : b' = b
    · subst hb
      simp only [World.put, Function.update_self] at hp'
      obtain rfl := Option.some.inj hp'
      exact hCounts
    · rw [hPages b' hb] at hp'
      exact h.links.counts b' p' hp'
  · intro t ht
    obtain ⟨hNe, p', hp', hLive⟩ := h.links.live t ht
    exact ⟨hNe, p', by rw [hPages _ (hOut t ht)]; exact hp', hLive⟩
  · intro ref n hRef hn
    obtain ⟨hNe, p', hp', hEq⟩ := Pages.slot?_eq_some.1 hn
    by_cases hb : refBlock ref = b
    · rw [hb] at hp'
      simp only [World.put, Function.update_self] at hp'
      obtain rfl := Option.some.inj hp'
      rw [← hEq]
      exact hLinks _ (refSlot_lt ref)
    · rw [hPages _ hb] at hp'
      exact h.links.closed ref n hRef (Pages.slot?_eq_some.2 ⟨hNe, p', hp', hEq⟩)
  · rcases h.told with hGood | hBroken
    · refine .inl ⟨?_, hGood.settled, ?_⟩
      · intro ps hps t ht
        rcases List.mem_cons.1 hps with rfl | hOld
        · obtain ⟨p₀, p', hp₀, hp', hSame⟩ := hGood.untouched _ List.mem_cons_self t ht
          exact ⟨p₀, p', hp₀, by rw [hPages _ (hOut t ht)]; exact hp', hSame⟩
        · exact hGood.untouched ps hOld t ht
      · intro b' p' hp'
        by_cases hb : b' = b
        · have hNone : ∀ s, ¬ makeRef b' s ∈ T := fun s hMem =>
            hOut _ hMem (by rw [refBlock_makeRef, hb])
          exact ⟨fun t _ ht => absurd ht (hNone t), fun t _ ht => absurd ht (hNone t),
            fun t _ ht => absurd ht (hNone t)⟩
        · rw [hPages b' hb] at hp'
          exact hGood.names b' p' hp'
    · exact .inr (hBroken.put b q)

theorem Page.fresh_counts (depth : Nat) (byteVal : UInt8) (interm : Bool) :
    (Page.fresh depth byteVal interm).Counts := by
  refine ⟨?_, Nat.zero_le _⟩
  show 1 = ((Finset.range 64).filter fun s => decide (s ≠ 0) = false).card
  decide

theorem Page.fresh_links (depth : Nat) (byteVal : UInt8) (interm : Bool) (s : Nat) :
    ((Page.fresh depth byteVal interm).slots s).firstChild = 0 ∧
      ((Page.fresh depth byteVal interm).slots s).nextSibling = 0 := by
  unfold Page.fresh
  dsimp only
  split
  · exact ⟨rfl, rfl⟩
  · exact ⟨rfl, rfl⟩

/-- A new page lies in a block that was free, so not in one of `T`. -/
theorem keepsAt_pageInit (depth : Nat) (byteVal : UInt8) (interm : Bool) :
    KeepsAt T start (fun _ => True) (pageInit depth byteVal interm) fun ref w =>
      ref ∉ T ∧ w.pages (refBlock ref) = some (Page.fresh depth byteVal interm) := by
  intro w hw _
  have hTook := Replay.allocTrieBlock_spec w.alloc
  unfold pageInit
  cases hAlloc : Replay.allocTrieBlock w.alloc with
  | mk rel a =>
    rw [hAlloc] at hTook
    dsimp only
    have hTaken : ∀ t ∈ T, w.dataStart < refBlock t ∧ a.isFree (refBlock t - w.dataStart) = false := by
      intro t ht
      obtain ⟨hPast, hUsed⟩ := hw.links.taken t ht
      refine ⟨hPast, ?_⟩
      rw [hTook.frame _ (by omega), hUsed]
      rfl
    have hInv : Inv T start { w with alloc := a } := hw.congr rfl rfl rfl hTaken
    by_cases hRel : rel = 0
    · rw [if_pos hRel]
      exact ⟨hInv, nofun⟩
    · rw [if_neg hRel]
      have hOut : ∀ t ∈ T, refBlock t ≠ w.dataStart + rel := by
        intro t ht hEq
        obtain ⟨hPast, hUsed⟩ := hw.links.taken t ht
        have hRelEq : refBlock t - w.dataStart = rel := by omega
        rw [hRelEq, hTook.wasFree hRel] at hUsed
        cases hUsed
      have hZero := hw.links.zero_notMem
      refine ⟨hInv.putElsewhere hOut (Page.fresh_counts depth byteVal interm) ?_, ?_⟩
      · intro s _
        obtain ⟨hFirst, hNext⟩ := Page.fresh_links depth byteVal interm s
        rw [hFirst, hNext]
        exact ⟨hZero, hZero⟩
      · intro ref hRef
        obtain rfl := Except.ok.inj hRef
        refine ⟨fun hMem => hOut _ hMem (refBlock_makeRef _ _), ?_⟩
        rw [refBlock_makeRef]
        exact Function.update_self _ _ _

theorem Keeps.pageInit (depth : Nat) (byteVal : UInt8) (interm : Bool) :
    Keeps T start (Trie.pageInit depth byteVal interm) fun ref => ref ∉ T :=
  fun w hw => ⟨(keepsAt_pageInit depth byteVal interm w hw trivial).1,
    fun ref hRef => ((keepsAt_pageInit depth byteVal interm w hw trivial).2 ref hRef).1⟩

theorem Keeps.addPartial (block hint : Nat) :
    Keeps T start (Trie.addPartial block hint) fun _ => True := by
  refine .change fun w => ?_
  unfold World.listPage
  dsimp only
  split <;> split <;> exact ⟨rfl, rfl, rfl, rfl, rfl⟩

theorem keeps_setHot (block hint : Nat) :
    Keeps T start (TrieM.change fun w => w.setHot block hint) fun _ => True :=
  .change fun _ => ⟨rfl, rfl, rfl, rfl, rfl⟩

theorem Keeps.scanPool (size : Nat) (mine : Nat → Bool) : ∀ pool : List (Nat × Nat),
    Keeps T start (Trie.scanPool size mine pool) fun r => ∀ ref, r = some ref → ref ∉ T
  | [] => .ret nofun
  | (block, hint) :: rest => by
    unfold Trie.scanPool
    extract_lets rest'
    have hRest : ∀ got, (∀ e, got = some e → e.1 ∉ T) →
        Keeps T start (rest' got) fun r => ∀ ref, r = some ref → ref ∉ T := by
      intro got hGot
      cases got with
      | none => exact Keeps.scanPool size mine rest
      | some e =>
        have hFound : Keeps T start (TrieM.ret (some e.1)) fun r => ∀ ref, r = some ref → ref ∉ T := by
          refine .ret fun ref hRef => ?_
          obtain rfl := Option.some.inj hRef
          exact hGot e rfl
        refine .ite (fun _ => ?_) fun _ => ?_
        · exact .bind (.change fun w => ⟨rfl, rfl, rfl, rfl, rfl⟩) fun _ _ => hFound
        · exact .bind (keeps_setHot _ _) fun _ _ => hFound
    refine .ite (fun _ => .bind (Keeps.allocFromBlock block size) hRest) fun _ => ?_
    exact .bind (.ret nofun) hRest

theorem Keeps.allocHot (size hint : Nat) :
    Keeps T start (Trie.allocHot size hint) fun r => ∀ ref, r = some ref → ref ∉ T := by
  unfold Trie.allocHot
  refine .bind (Keeps.view _) fun e _ => ?_
  refine .ite (fun _ => ?_) fun _ => .ret nofun
  refine .bind (Keeps.allocFromBlock _ _) fun got hGot => ?_
  cases got with
  | none => exact .bind (keeps_setHot 0 0) fun _ _ => .ret nofun
  | some e =>
    have hFound : Keeps T start (TrieM.ret (some e.1)) fun r => ∀ ref, r = some ref → ref ∉ T := by
      refine .ret fun ref hRef => ?_
      obtain rfl := Option.some.inj hRef
      exact hGot e rfl
    refine .ite (fun _ => .bind (keeps_setHot 0 0) fun _ _ => hFound) fun _ => ?_
    exact .bind (Q := fun _ => True) (.ret trivial) fun _ _ => hFound

theorem Keeps.allocPage {size : Nat} (hSize : size ≤ nameLen + 2) (hint : Nat) :
    Keeps T start (Trie.allocPage size hint) fun r => ∀ ref, r = some ref → ref ∉ T := by
  unfold Trie.allocPage
  refine KeepsAt.keeps (.bind (keepsAt_pageInit 0 0 false).attempt fun got => ?_)
  cases got with
  | error e => exact .ret fun _ _ => nofun
  | ok ref =>
    have hRest : ref ∉ T → KeepsAt T start (fun _ => True) (do
        Trie.addPartial (refBlock ref) hint
        TrieM.change fun w => w.setHot (refBlock ref) hint
        TrieM.ret (some ref)) fun r _ => ∀ ref, r = some ref → ref ∉ T := by
      intro hRef
      refine .of_value (.bind (Keeps.addPartial _ _) fun _ _ => ?_)
      refine .bind (keeps_setHot _ _) fun _ _ => .ret fun r hr => ?_
      obtain rfl := Option.some.inj hr
      exact hRef
    intro w hw hNew
    obtain ⟨hRef, hPage⟩ := hNew ref rfl
    dsimp only
    by_cases hNone : size = 0
    · rw [if_pos hNone]
      exact hRest hRef w hw trivial
    · rw [if_neg hNone]
      have hGrow : CanGrow ref (size - 2) w := by
        intro p hp
        obtain rfl := Option.some.inj (hPage.symm.trans hp)
        show 0 + (size - 2 + 2) ≤ heapSize
        have hHeap : nameLen + 2 + 2 ≤ heapSize := by decide
        omega
      exact KeepsAt.bind (keepsAt_growName hRef) (fun _ => (hRest hRef).always) w hw hGrow

theorem Keeps.allocNode {len : Nat} (hLen : len ≤ nameLen) (hint : Nat) :
    Keeps T start (Trie.allocNode len hint) fun r => ∀ ref, r = some ref → ref ∉ T := by
  have hSize : (if len = 0 then 0 else len + 2) ≤ nameLen + 2 := by
    split <;> omega
  unfold Trie.allocNode
  refine .bind (Keeps.allocHot _ _) fun hot hHot => ?_
  cases hot with
  | some ref => exact .ret hHot
  | none =>
    refine .bind (Keeps.view _) fun pool _ => ?_
    refine .bind (Keeps.scanPool _ _ _) fun own hOwn => ?_
    cases own with
    | some ref => exact .ret hOwn
    | none =>
      refine .bind (Keeps.view _) fun pool _ => ?_
      refine .bind (Keeps.scanPool _ _ _) fun any hAny => ?_
      cases any with
      | some ref => exact .ret hAny
      | none => exact Keeps.allocPage hSize hint

--
-- Freeing a node
--

theorem Page.dropSlot_counts {slot : Nat} (h : p.Counts) (hs : slot < 64)
    (hLive : p.free slot = false) : (p.dropSlot slot).Counts := by
  refine ⟨?_, h.room⟩
  show p.liveCount - 1 =
    ((Finset.range 64).filter fun s => (if s = slot then true else p.free s) = false).card
  rw [card_live_drop hs hLive, h.count]

/-- A page with a node of `T` is never given back. -/
theorem Links.liveCount_ne_zero (h : Links T w) (hp : w.pages b = some p) {t : Nat} (ht : t ∈ T)
    (hb : refBlock t = b) : p.liveCount ≠ 0 := by
  obtain ⟨_, p', hp', hLive⟩ := h.live t ht
  rw [hb] at hp'
  obtain rfl := Option.some.inj (hp.symm.trans hp')
  rw [(h.counts b p hp).count]
  exact Finset.card_ne_zero_of_mem
    (Finset.mem_filter.2 ⟨Finset.mem_range.2 (refSlot_lt t), hLive⟩)

theorem Inv.giveBack (h : Inv T start w) (hp : w.pages b = some p) (hNone : p.liveCount = 0)
    (partials : List (Nat × Nat)) (hotBlock hotHint : Nat) :
    Inv T start { w with
      partials := partials
      hotBlock := hotBlock
      hotHint := hotHint
      alloc := w.alloc.freeBlock (b - w.dataStart) } := by
  refine h.congr rfl rfl rfl fun t ht => ?_
  obtain ⟨hPast, hUsed⟩ := h.links.taken t ht
  refine ⟨hPast, ?_⟩
  have hNe : refBlock t ≠ b := fun hb => h.links.liveCount_ne_zero hp ht hb hNone
  show (w.alloc.freeBlock (b - w.dataStart)).isFree (refBlock t - w.dataStart) = false
  rw [Alloc.isFree_freeBlock, hUsed]
  simp only [Bool.false_or, decide_eq_false_iff_not]
  omega

theorem Keeps.freeNode {ref : Nat} (hRef : ref ∉ T) :
    Keeps T start (Trie.freeNode ref) fun _ => True := by
  intro w hw
  unfold Trie.freeNode
  cases hPage : w.pages (refBlock ref) with
  | none => exact ⟨hw, fun _ _ => trivial⟩
  | some p =>
    dsimp only
    by_cases hNull : ref = 0
    · rw [if_pos hNull]
      exact ⟨hw, fun _ _ => trivial⟩
    · rw [if_neg hNull]
      -- The page and the state after the slot is dropped, or as they were.
      have hDrop : ∃ q w', (if p.free (refSlot ref) then p else p.dropSlot (refSlot ref)) = q ∧
          (if p.free (refSlot ref) then w else w.put (refBlock ref) q) = w' ∧
          Inv T start w' ∧ w'.pages (refBlock ref) = some q := by
        cases hFree : p.free (refSlot ref) with
        | true => exact ⟨p, w, rfl, rfl, hw, hPage⟩
        | false =>
          refine ⟨p.dropSlot (refSlot ref), _, rfl, rfl, ?_, Function.update_self _ _ _⟩
          have hZero := hw.links.zero_notMem
          refine hw.change hPage (makeRef_refBlock_notMem hRef) ?_
            (Page.dropSlot_counts (hw.links.counts _ p hPage) (refSlot_lt ref) hFree) ?_
          · refine ⟨fun s hs => if_neg hs, fun s hs => if_neg hs, rfl, Nat.le_refl _, ?_⟩
            unfold Page.dropSlot
            rw [Page.setSlot_slots_self]
            exact .inl rfl
          · intro _
            unfold Page.dropSlot
            rw [Page.setSlot_slots_self]
            exact ⟨hZero, hZero⟩
      obtain ⟨q, w', hq, hw', hInv, hPage'⟩ := hDrop
      simp only [hq, hw']
      by_cases hNone : q.liveCount = 0
      · rw [if_pos hNone]
        exact ⟨hInv.giveBack hPage' hNone _ _ _, fun _ _ => trivial⟩
      · rw [if_neg hNone]
        by_cases hSome : q.freeSlot.isSome = true
        · rw [if_pos hSome]
          refine ⟨?_, fun _ _ => trivial⟩
          dsimp only
          unfold World.listPage
          split
          · exact hInv
          · exact hInv.congr rfl rfl rfl hInv.links.taken
        · rw [if_neg hSome]
          exact ⟨hInv, fun _ _ => trivial⟩

end Briefs.Trie
