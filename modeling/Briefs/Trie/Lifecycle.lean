import Briefs.Trie.Heap

/-!
# BrieFS — the life of a trie page

Directories share trie pages: a node of one directory lies beside those of others. A page comes
into being with its first node (`briefs_trie_page_init`), gives slots to later ones while it is in
the partial-page pool or is the hot page (`briefs_trie_alloc_node`), and its block goes back to the
allocator with its last node (`briefs_trie_free_node`), where a file may take it.

Nothing on the page tells a page that is in use from one that is not: the pool and the hot page are
block numbers. What excludes a stale one is that `briefs_trie_free_node` takes the block out of
both before it is freed.

## Results

* `Hands` — what an allocation of a node does.
* `page_lifecycle` — pool, nodes and blocks in every state that is reached.
-/

namespace Briefs.Trie

open TrieM

--
-- The state
--

/-- The trie pages with those who use them: which directory holds which node, and the blocks that
are in use as something else. -/
structure Commons where
  world : World
  held  : List (Nat × Nat)
  taken : List Nat

namespace Commons

/-- A directory holds a node of the block. -/
def Housing (s : Commons) (b : Nat) : Prop := ∃ e ∈ s.held, refBlock e.2 = b

/-- The block is allocated, not as something else, and holds a trie page with a node of a
directory. -/
def LivePage (s : Commons) (b : Nat) : Prop :=
  s.world.Taken b ∧ b ∉ s.taken ∧ ∃ p, s.world.pages b = some p ∧
    ∃ slot < 64, p.free slot = false ∧ ∃ dir, (dir, makeRef b slot) ∈ s.held

/-- The pages as they are on the device: the nodes that are in use are those of the directories,
each of one, and the blocks of pages and of others are allocated. -/
structure Disk (s : Commons) : Prop where
  once   : (s.held.map Prod.snd).Nodup
  page   : ∀ b, s.Housing b → ∃ p, s.world.pages b = some p ∧ p.Counts ∧
    ∀ slot < 64, p.free slot = false ↔ ∃ dir, (dir, makeRef b slot) ∈ s.held
  taken  : ∀ b, s.Housing b → s.world.Taken b ∧ b - s.world.dataStart < s.world.alloc.blockCount
  apart  : ∀ b ∈ s.taken, (s.world.Taken b ∧
    b - s.world.dataStart < s.world.alloc.blockCount) ∧ ¬ s.Housing b
  inside : ∀ n, s.world.alloc.isFree n = true → n < s.world.alloc.blockCount

/-- The entries of the pool and the hot page have nodes. -/
structure Pooled (s : Commons) : Prop where
  partials : ∀ e ∈ s.world.partials, s.Housing e.1
  hot      : s.world.hotBlock ≠ 0 → s.Housing s.world.hotBlock

end Commons

/-- What happens to the pages: the three functions, the listing of a page by those who made it, the
stores into the nodes, and what others do. -/
inductive CommonsOp where
  | allocNode (dir len hint : Nat)
  | pageInit (dir depth : Nat) (byteVal : UInt8) (interm : Bool)
  | addPartial (ref hint : Nat)
  | freeNode (dir ref : Nat)
  -- names and fields of nodes are stored
  | store (b : Nat) (p : Page)
  -- no memory for an entry, or no pool yet
  | forget (partials : List (Nat × Nat)) (hotBlock : Nat)
  -- others take blocks, write them and give them back
  | others (pages : Pages) (alloc : Alloc) (taken : List Nat)

namespace CommonsOp

/-- A node that was handed out is the directory's. -/
def grant (dir : Nat) (held : List (Nat × Nat)) : Except Errno (Option Nat) → List (Nat × Nat)
  | .ok (some ref) => (dir, ref) :: held
  | _ => held

def run (s : Commons) : CommonsOp → Commons
  | allocNode dir len hint =>
    let r := Trie.allocNode len hint s.world
    { s with world := r.2, held := grant dir s.held r.1 }
  | pageInit dir depth byteVal interm =>
    let r := Trie.pageInit depth byteVal interm s.world
    { s with world := r.2, held := grant dir s.held (r.1.map some) }
  | addPartial ref hint => { s with world := (Trie.addPartial (refBlock ref) hint s.world).2 }
  | freeNode dir ref =>
    { s with world := (Trie.freeNode ref s.world).2, held := s.held.erase (dir, ref) }
  | store b p => { s with world := s.world.put b p }
  | forget partials hotBlock =>
    { s with world := { s.world with partials := partials, hotBlock := hotBlock } }
  | others pages alloc taken =>
    { s with world := { s.world with pages := pages, alloc := alloc }, taken := taken }

/-- What the callers see to: a directory lists, stores into and frees nodes of its own, and the
others keep to free blocks and their own. -/
def Enabled (s : Commons) : CommonsOp → Prop
  | allocNode _ len _ => len ≤ nameLen
  | pageInit _ _ _ _ => True
  | addPartial ref _ => ∃ dir, (dir, ref) ∈ s.held
  | freeNode dir ref => (dir, ref) ∈ s.held
  | store b q => s.Housing b ∧ ∃ p, s.world.pages b = some p ∧ q.free = p.free ∧
      q.liveCount = p.liveCount ∧ q.freeNameOff ≤ heapSize
  | forget partials hotBlock => (∀ e ∈ partials, e ∈ s.world.partials) ∧
      (hotBlock = 0 ∨ hotBlock = s.world.hotBlock)
  | others pages alloc taken => alloc.blockCount = s.world.alloc.blockCount ∧
      (∀ b ∈ taken, s.world.dataStart < b ∧ alloc.isFree (b - s.world.dataStart) = false ∧
        (b ∈ s.taken ∨ s.world.alloc.isFree (b - s.world.dataStart) = true)) ∧
      (∀ n, alloc.isFree n = true →
        s.world.alloc.isFree n = true ∨ s.world.dataStart + n ∈ s.taken) ∧
      ∀ b, b ∉ s.taken → b ∉ taken → pages b = s.world.pages b

/-- The states after sequences of operations. -/
inductive Reach (start : Commons) : Commons → Prop where
  | refl : Reach start start
  | step {s : Commons} (op : CommonsOp) : Reach start s → op.Enabled s → Reach start (op.run s)

end CommonsOp

--
-- What an allocation does
--

section Alloc

variable {P : Nat → Prop} {w v : World} {ref b : Nat}

/-- The pages in `P` can be allocated from, and the pool and the hot page are among them. -/
structure Stocked (P : Nat → Prop) (w : World) : Prop where
  page     : ∀ b, P b → ∃ p, w.pages b = some p ∧ p.Counts
  taken    : ∀ b, P b → w.Taken b
  partials : ∀ e ∈ w.partials, P e.1
  hot      : w.hotBlock ≠ 0 → P w.hotBlock

/-- Nothing was allocated. -/
structure Idle (w v : World) : Prop where
  pages     : v.pages = w.pages
  dataStart : v.dataStart = w.dataStart
  size      : v.alloc.blockCount = w.alloc.blockCount
  bits      : ∀ n, n ≠ 0 → v.alloc.isFree n = w.alloc.isFree n
  zero      : v.alloc.isFree 0 = true → w.alloc.isFree 0 = true
  partials  : ∀ e ∈ v.partials, e ∈ w.partials
  hot       : v.hotBlock = 0 ∨ v.hotBlock = w.hotBlock

/-- The node `ref` was allocated, on a page of `P` or on a new one. -/
structure Gives (P : Nat → Prop) (w : World) (ref : Nat) (v : World) : Prop where
  page      : ∃ q, v.pages (refBlock ref) = some q ∧ q.Counts ∧ ∀ slot < 64, q.free slot = false ↔
    slot = refSlot ref ∨ (P (refBlock ref) ∧ ∃ p, w.pages (refBlock ref) = some p ∧
      p.free slot = false)
  unused    : P (refBlock ref) → ∃ p, w.pages (refBlock ref) = some p ∧ p.free (refSlot ref) = true
  others    : ∀ b, b ≠ refBlock ref → v.pages b = w.pages b
  above     : w.dataStart < refBlock ref
  block     : P (refBlock ref) ∨ w.alloc.isFree (refBlock ref - w.dataStart) = true
  bits      : ∀ n, n ≠ 0 → v.alloc.isFree n =
    (w.alloc.isFree n && decide (n ≠ refBlock ref - w.dataStart))
  zero      : v.alloc.isFree 0 = true → w.alloc.isFree 0 = true
  size      : v.alloc.blockCount = w.alloc.blockCount
  dataStart : v.dataStart = w.dataStart
  partials  : ∀ e ∈ v.partials, P e.1 ∨ e.1 = refBlock ref
  hot       : v.hotBlock ≠ 0 → P v.hotBlock ∨ v.hotBlock = refBlock ref

/-- An allocation gives a node or changes nothing of importance. -/
def Hands (P : Nat → Prop) (w : World) (r : Except Errno (Option Nat) × World) : Prop :=
  (∃ v, r = (.ok none, v) ∧ Idle w v) ∨ ∃ ref v, r = (.ok (some ref), v) ∧ Gives P w ref v

theorem Idle.refl (w : World) : Idle w w :=
  ⟨rfl, rfl, rfl, fun _ _ => rfl, id, fun _ he => he, Or.inr rfl⟩

theorem Stocked.idle (h : Stocked P w) (hIdle : Idle w v) : Stocked P v where
  page := fun b hb => by
    rw [hIdle.pages]
    exact h.page b hb
  taken := fun b hb => by
    obtain ⟨hAbove, hUsed⟩ := h.taken b hb
    refine ⟨by rw [hIdle.dataStart]; exact hAbove, ?_⟩
    rw [hIdle.dataStart, hIdle.bits _ (by omega)]
    exact hUsed
  partials := fun e he => h.partials e (hIdle.partials e he)
  hot := fun hSome => by
    rcases hIdle.hot with hZero | hSame
    · exact absurd hZero hSome
    · rw [hSame] at hSome ⊢
      exact h.hot hSome

theorem Idle.trans {u : World} (h : Idle w v) (h' : Idle v u) : Idle w u where
  pages := h'.pages.trans h.pages
  dataStart := h'.dataStart.trans h.dataStart
  size := h'.size.trans h.size
  bits := fun n hn => (h'.bits n hn).trans (h.bits n hn)
  zero := fun hZero => h.zero (h'.zero hZero)
  partials := fun e he => h.partials e (h'.partials e he)
  hot := by
    rcases h'.hot with hZero | hSame
    · exact Or.inl hZero
    · rw [hSame]
      exact h.hot

theorem Idle.gives {u : World} (h : Idle w v) (hGives : Gives P v ref u) : Gives P w ref u where
  page := by
    have hPage := hGives.page
    rwa [h.pages] at hPage
  unused := by
    have hUnused := hGives.unused
    rwa [h.pages] at hUnused
  others := by
    have hOthers := hGives.others
    rwa [h.pages] at hOthers
  above := h.dataStart ▸ hGives.above
  block := by
    have hAbove := hGives.above
    rw [h.dataStart] at hAbove
    have hBlock := hGives.block
    rwa [h.dataStart, h.bits _ (by omega)] at hBlock
  bits := fun n hn => by
    rw [hGives.bits n hn, h.bits n hn, h.dataStart]
  zero := fun hZero => h.zero (hGives.zero hZero)
  size := hGives.size.trans h.size
  dataStart := hGives.dataStart.trans h.dataStart
  partials := hGives.partials
  hot := hGives.hot

theorem Idle.hands {r : Except Errno (Option Nat) × World} (h : Idle w v) (hr : Hands P v r) :
    Hands P w r := by
  rcases hr with ⟨u, rfl, hIdle⟩ | ⟨ref, u, rfl, hGives⟩
  · exact Or.inl ⟨u, rfl, h.trans hIdle⟩
  · exact Or.inr ⟨ref, u, rfl, h.gives hGives⟩

/-- The pool and the hot page change after a node was allocated. -/
theorem Gives.pool (h : Gives P w ref v) {partials : List (Nat × Nat)} {hotBlock hotHint : Nat}
    (hPool : ∀ e ∈ partials, P e.1 ∨ e.1 = refBlock ref)
    (hHot : hotBlock ≠ 0 → P hotBlock ∨ hotBlock = refBlock ref) :
    Gives P w ref { v with partials := partials, hotBlock := hotBlock, hotHint := hotHint } where
  page := h.page
  unused := h.unused
  others := h.others
  above := h.above
  block := h.block
  bits := h.bits
  zero := h.zero
  size := h.size
  dataStart := h.dataStart
  partials := hPool
  hot := hHot

/-- `trie_alloc_from_block`. -/
theorem allocFromBlock_gives (hw : Stocked P w) (hb : P b) (size : Nat) :
    allocFromBlock b size w = (.ok none, w) ∨
    ∃ ref full v, allocFromBlock b size w = (.ok (some (ref, full)), v) ∧ refBlock ref = b ∧
      Gives P w ref v ∧ v.partials = w.partials ∧ v.hotBlock = w.hotBlock := by
  obtain ⟨p, hp, hCounts⟩ := hw.page b hb
  have hTaken := hw.taken b hb
  unfold allocFromBlock
  rw [hp]
  dsimp only
  by_cases hFull : heapSize < p.freeNameOff + size ∧ size ≠ 0
  · rw [if_pos hFull]
    exact Or.inl rfl
  rw [if_neg hFull]
  cases hSlot : p.freeSlot with
  | none => exact Or.inl rfl
  | some slot =>
    obtain ⟨hs, hFree⟩ := Page.freeSlot_spec hSlot
    obtain ⟨hCount, hBits, hOff, -, -, -⟩ := p.takeSlot_spec slot size
    have hBlock : refBlock (makeRef b slot) = b := refBlock_makeRef b slot
    have hRefSlot : refSlot (makeRef b slot) = slot := refSlot_makeRef hs
    have hEdits := edits_put w b (p.takeSlot slot size)
    refine Or.inr ⟨_, _, _, rfl, hBlock, ?_, rfl, rfl⟩
    have hPage : (p.takeSlot slot size).Counts := by
      refine ⟨?_, ?_⟩
      · rw [hCount, hBits, card_live_take hs hFree, hCounts.count]
      · have hRoom := hCounts.room
        rw [hOff]
        by_contra hNot
        exact hFull ⟨by omega, by omega⟩
    refine ⟨⟨_, by rw [hBlock]; exact hEdits.page, hPage, ?_⟩, ?_, ?_, ?_, ?_, ?_, id, rfl, rfl,
      ?_, ?_⟩
    · intro s hsl
      rw [hBits, hBlock, hRefSlot]
      by_cases hEq : s = slot
      · simp only [hEq, if_true, true_or]
      · simp only [hEq, false_or, hp, Option.some.injEq, exists_eq_left']
        exact ⟨fun hLive => ⟨hb, hLive⟩, fun hBoth => hBoth.2⟩
    · intro _
      rw [hBlock, hRefSlot]
      exact ⟨p, hp, hFree⟩
    · rw [hBlock]
      exact hEdits.others
    · rw [hBlock]
      exact hTaken.1
    · rw [hBlock]
      exact Or.inl hb
    · intro n hn
      rw [hBlock]
      show w.alloc.isFree n = _
      by_cases hEq : n = b - w.dataStart
      · rw [hEq, hTaken.2, Bool.false_and]
      · rw [decide_eq_true hEq, Bool.and_true]
    · exact fun e he => Or.inl (hw.partials e he)
    · exact fun hSome => Or.inl (hw.hot hSome)

theorem scanPool_hands (hw : Stocked P w) (size : Nat) (mine : Nat → Bool) :
    ∀ pool : List (Nat × Nat), (∀ e ∈ pool, P e.1) → Hands P w (scanPool size mine pool w) := by
  intro pool
  induction pool with
  | nil => exact fun _ => Or.inl ⟨w, rfl, Idle.refl w⟩
  | cons entry pool ih =>
    intro hPool
    obtain ⟨block, hint⟩ := entry
    have hBlock : P block := hPool _ List.mem_cons_self
    have hRest := ih fun e he => hPool e (List.mem_cons_of_mem _ he)
    unfold scanPool
    extract_lets next
    have hNone : Hands P w ((TrieM.ret none >>= next) w) := hRest
    by_cases hMine : mine hint = true
    · rw [if_pos hMine]
      rcases allocFromBlock_gives hw hBlock size with
        hRun | ⟨ref, full, v, hRun, hIn, hGives, hParts, -⟩
      · rw [bind_ok hRun]
        exact hRest
      · rw [bind_ok hRun]
        cases full with
        | true =>
          refine Or.inr ⟨ref, _, rfl, hGives.pool ?_ hGives.hot⟩
          exact fun e he => hGives.partials e (List.mem_filter.mp he).1
        | false => exact Or.inr ⟨ref, _, rfl, hGives.pool hGives.partials fun _ => Or.inl hBlock⟩
    · rw [if_neg hMine]
      exact hNone

theorem allocHot_hands (hw : Stocked P w) (size hint : Nat) : Hands P w (allocHot size hint w) := by
  unfold allocHot
  rw [bind_ok (show view (fun w => (w.hotBlock, w.hotHint)) w = (.ok (w.hotBlock, w.hotHint), w)
    from rfl)]
  dsimp only
  by_cases hHot : w.hotBlock ≠ 0 ∧ (hint = 0 ∨ w.hotHint = hint)
  · rw [if_pos hHot]
    rcases allocFromBlock_gives hw (hw.hot hHot.1) size with
      hRun | ⟨ref, full, v, hRun, -, hGives, -, -⟩
    · rw [bind_ok hRun]
      exact Or.inl ⟨_, rfl, rfl, rfl, rfl, fun _ _ => rfl, id, fun _ he => he, Or.inl rfl⟩
    · rw [bind_ok hRun]
      cases full with
      | true =>
        exact Or.inr ⟨ref, _, rfl, hGives.pool hGives.partials fun hNe => absurd rfl hNe⟩
      | false => exact Or.inr ⟨ref, _, rfl, hGives⟩
  · rw [if_neg hHot]
    exact Or.inl ⟨w, rfl, Idle.refl w⟩

/-- `briefs_trie_page_init`. -/
theorem pageInit_gives (hw : Stocked P w) (depth : Nat) (byteVal : UInt8) (interm : Bool) :
    (∃ v, pageInit depth byteVal interm w = (.error .enospc, v) ∧ Idle w v) ∨
    ∃ ref v, pageInit depth byteVal interm w = (.ok ref, v) ∧ Gives P w ref v ∧
      v.pages (refBlock ref) = some (Page.fresh depth byteVal interm) ∧ refSlot ref = 0 := by
  have hTook := Replay.allocTrieBlock_spec w.alloc
  unfold pageInit
  cases hAlloc : Replay.allocTrieBlock w.alloc with
  | mk rel a =>
    rw [hAlloc] at hTook
    dsimp only
    by_cases hRel : rel = 0
    · rw [if_pos hRel]
      refine Or.inl ⟨_, rfl, rfl, rfl, hTook.blockCount, ?_, hTook.zero, fun _ he => he, Or.inr rfl⟩
      intro n hn
      show a.isFree n = _
      rw [hTook.frame n hn, hRel, decide_eq_true hn, Bool.and_true]
    · rw [if_neg hRel]
      have hBlock : refBlock (makeRef (w.dataStart + rel) 0) = w.dataStart + rel :=
        refBlock_makeRef _ _
      have hSlot : refSlot (makeRef (w.dataStart + rel) 0) = 0 := refSlot_makeRef (by decide)
      have hEdits := edits_put { w with alloc := a } (w.dataStart + rel)
        (Page.fresh depth byteVal interm)
      have hFree : w.alloc.isFree (w.dataStart + rel - w.dataStart) = true := by
        rw [Nat.add_sub_cancel_left]
        exact hTook.wasFree hRel
      -- A block that was free is no page.
      have hNew : ¬ P (w.dataStart + rel) := by
        intro hOld
        have hUsed := (hw.taken _ hOld).2
        rw [hFree] at hUsed
        exact Bool.noConfusion hUsed
      refine Or.inr ⟨_, _, rfl, ?_, by rw [hBlock]; exact hEdits.page, hSlot⟩
      refine ⟨⟨_, by rw [hBlock]; exact hEdits.page, Page.fresh_counts _ _ _, ?_⟩, ?_, ?_, ?_, ?_, ?_,
        hTook.zero, hTook.blockCount, rfl, ?_, ?_⟩
      · intro s _
        rw [hBlock, hSlot]
        show decide (s ≠ 0) = false ↔ _
        rw [decide_eq_false_iff_not, not_not]
        exact ⟨Or.inl, fun hOr => hOr.resolve_right fun hBoth => hNew hBoth.1⟩
      · rw [hBlock]
        exact fun hOld => absurd hOld hNew
      · rw [hBlock]
        exact hEdits.others
      · rw [hBlock]
        omega
      · rw [hBlock]
        exact Or.inr hFree
      · intro n hn
        rw [hBlock, Nat.add_sub_cancel_left]
        exact hTook.frame n hn
      · exact fun e he => Or.inl (hw.partials e he)
      · exact fun hSome => Or.inl (hw.hot hSome)

/-- A store into the page of the new node. -/
theorem Gives.edit {q q' : Page} {u : World} (h : Gives P w ref v)
    (hq : v.pages (refBlock ref) = some q) (hEdits : Edits (refBlock ref) q' v u)
    (hFree : q'.free = q.free) (hCounts : q'.Counts) : Gives P w ref u where
  page := by
    obtain ⟨r, hr, -, hLive⟩ := h.page
    obtain rfl := Option.some.inj (hq.symm.trans hr)
    exact ⟨q', hEdits.page, hCounts, by rw [hFree]; exact hLive⟩
  unused := h.unused
  others := fun b hb => (hEdits.others b hb).trans (h.others b hb)
  above := h.above
  block := h.block
  bits := hEdits.alloc ▸ h.bits
  zero := hEdits.alloc ▸ h.zero
  size := hEdits.alloc ▸ h.size
  dataStart := hEdits.dataStart.trans h.dataStart
  partials := hEdits.partials ▸ h.partials
  hot := hEdits.hotBlock ▸ h.hot

/-- `briefs_trie_page_add_partial`. -/
theorem addPartial_pool (b hint : Nat) (w : World) :
    ∃ partials hotBlock hotHint, addPartial b hint w =
      (.ok (), { w with partials := partials, hotBlock := hotBlock, hotHint := hotHint }) ∧
      (∀ e ∈ partials, e ∈ w.partials ∨ e.1 = b) ∧ (hotBlock = w.hotBlock ∨ hotBlock = b) := by
  have hList : ∃ partials, w.listPage b hint = { w with partials := partials } ∧
      ∀ e ∈ partials, e ∈ w.partials ∨ e.1 = b := by
    unfold World.listPage
    split_ifs
    · exact ⟨w.partials, rfl, fun e he => Or.inl he⟩
    · refine ⟨_, rfl, fun e he => ?_⟩
      rcases List.mem_cons.mp he with rfl | hOld
      · exact Or.inr rfl
      · exact Or.inl hOld
  obtain ⟨partials, hw, hPool⟩ := hList
  unfold addPartial TrieM.change
  dsimp only
  rw [hw]
  split_ifs
  · exact ⟨partials, b, hint, rfl, hPool, Or.inr rfl⟩
  · exact ⟨partials, _, _, rfl, hPool, Or.inl rfl⟩

/-- The page of the new node is listed and becomes the hot one. -/
theorem Gives.listed (h : Gives P w ref v) (hint : Nat) :
    Hands P w ((addPartial (refBlock ref) hint >>= fun _ =>
      TrieM.change (fun w => w.setHot (refBlock ref) hint) >>= fun _ =>
        TrieM.ret (some ref)) v) := by
  obtain ⟨partials, hotBlock, hotHint, hAdd, hPool, -⟩ := addPartial_pool (refBlock ref) hint v
  rw [bind_ok hAdd]
  refine Or.inr ⟨ref, _, rfl, h.pool (fun e he => ?_) fun _ => Or.inr rfl⟩
  rcases hPool e he with hOld | hNew
  · exact h.partials e hOld
  · exact Or.inr hNew

theorem allocPage_hands (hw : Stocked P w) {size : Nat} (hSize : size ≤ nameLen + 2)
    (hint : Nat) : Hands P w (allocPage size hint w) := by
  unfold allocPage
  rcases pageInit_gives hw 0 0 false with ⟨v, hRun, hIdle⟩ | ⟨ref, v, hRun, hGives, hPage, hSlot⟩
  · rw [bind_ok (attempt_eq hRun)]
    exact Or.inl ⟨v, rfl, hIdle⟩
  · rw [bind_ok (attempt_eq hRun)]
    dsimp only
    by_cases hZero : size = 0
    · rw [if_pos hZero]
      exact hGives.listed hint
    · rw [if_neg hZero]
      obtain ⟨q, u, hGrow, hEdits, hNames, -⟩ := growName_page ref (size - 2) hPage
        (Page.fresh_tidy 0 0 false) (by
          show 0 + (size - 2 + 2) ≤ heapSize
          have hHeap : nameLen + 2 + 2 ≤ heapSize := by decide
          omega)
      rw [bind_ok hGrow]
      have hFree : q.free = (Page.fresh 0 0 false).free := by
        have hq := hEdits.page
        unfold growName at hGrow
        rw [hPage] at hGrow
        rw [← (Prod.mk.inj hGrow).2, (edits_put v _ _).page] at hq
        rw [← Option.some.inj hq]
        rfl
      exact (hGives.edit hPage hEdits hFree hNames.tidy.counts).listed hint

/-- The next way to allocate is tried if the first one gives nothing. -/
theorem Hands.orElse {x k : TrieM (Option Nat)} (hw : Stocked P w) (hx : Hands P w (x w))
    (hk : ∀ v, Stocked P v → Hands P v (k v)) :
    Hands P w ((x >>= fun r => match r with
      | some ref => ret (some ref)
      | none => k) w) := by
  rcases hx with ⟨v, hRun, hIdle⟩ | ⟨ref, v, hRun, hGives⟩
  · rw [bind_ok hRun]
    exact hIdle.hands (hk v (hw.idle hIdle))
  · rw [bind_ok hRun]
    exact Or.inr ⟨ref, v, rfl, hGives⟩

/-- `briefs_trie_alloc_node`. -/
theorem allocNode_hands (hw : Stocked P w) {len : Nat} (hLen : len ≤ nameLen) (hint : Nat) :
    Hands P w (allocNode len hint w) := by
  have hSize : (if len = 0 then 0 else len + 2) ≤ nameLen + 2 := by
    split_ifs
    · exact Nat.zero_le _
    · omega
  unfold allocNode
  have hScan : ∀ (mine : Nat → Bool) (u : World), Stocked P u →
      Hands P u (scanPool (if len = 0 then 0 else len + 2) mine (u.partials.take 64) u) :=
    fun mine u hu => scanPool_hands hu _ mine _ fun e he => hu.partials e (List.mem_of_mem_take he)
  refine Hands.orElse hw (allocHot_hands hw _ hint) fun v hv => ?_
  rw [bind_ok (show view (fun w => w.partials.take 64) v = (.ok (v.partials.take 64), v) from rfl)]
  refine Hands.orElse hv (hScan _ v hv) fun u hu => ?_
  rw [bind_ok (show view (fun w => w.partials.take 64) u = (.ok (u.partials.take 64), u) from rfl)]
  exact Hands.orElse hu (hScan _ u hu) fun t ht => allocPage_hands ht hSize hint

end Alloc

--
-- The invariant
--

namespace Commons

section Kept

variable {s : Commons} {v : World} {dir ref b : Nat}

theorem Disk.stocked (h : s.Disk) (hPool : s.Pooled) : Stocked s.Housing s.world where
  page := fun b hb => by
    obtain ⟨p, hp, hCounts, -⟩ := h.page b hb
    exact ⟨p, hp, hCounts⟩
  taken := fun b hb => (h.taken b hb).1
  partials := hPool.partials
  hot := hPool.hot

theorem Disk.livePage_iff (h : s.Disk) (b : Nat) : s.LivePage b ↔ s.Housing b := by
  constructor
  · rintro ⟨-, -, p, -, slot, -, -, dir, hHeld⟩
    exact ⟨_, hHeld, refBlock_makeRef b slot⟩
  · rintro ⟨e, he, rfl⟩
    have hHousing : s.Housing (refBlock e.2) := ⟨e, he, rfl⟩
    obtain ⟨p, hp, -, hLive⟩ := h.page _ hHousing
    refine ⟨(h.taken _ hHousing).1, fun hOther => (h.apart _ hOther).2 hHousing, p, hp, refSlot e.2,
      refSlot_lt _, ?_⟩
    have hHeld : ∃ dir, (dir, makeRef (refBlock e.2) (refSlot e.2)) ∈ s.held := by
      rw [makeRef_refBlock]
      exact ⟨e.1, he⟩
    exact ⟨(hLive _ (refSlot_lt _)).mpr hHeld, hHeld⟩

/-- A node that is handed out was nobody's. -/
theorem Disk.fresh (h : s.Disk) (hGives : Gives s.Housing s.world ref v) (dir : Nat) :
    (dir, ref) ∉ s.held := by
  intro hHeld
  have hHousing : s.Housing (refBlock ref) := ⟨_, hHeld, rfl⟩
  obtain ⟨p, hp, hFree⟩ := hGives.unused hHousing
  obtain ⟨p', hp', -, hLive⟩ := h.page _ hHousing
  obtain rfl := Option.some.inj (hp.symm.trans hp')
  have hUsed := (hLive _ (refSlot_lt ref)).mpr ⟨dir, by rw [makeRef_refBlock]; exact hHeld⟩
  rw [hFree] at hUsed
  exact Bool.noConfusion hUsed

theorem Disk.idle (h : s.Disk) (hIdle : Idle s.world v) : Disk { s with world := v } where
  once := h.once
  page := fun b hb => by
    show ∃ p, v.pages b = some p ∧ _
    rw [hIdle.pages]
    exact h.page b hb
  taken := fun b hb => by
    obtain ⟨⟨hAbove, hUsed⟩, hInside⟩ := h.taken b hb
    show (v.dataStart < b ∧ v.alloc.isFree (b - v.dataStart) = false) ∧
      b - v.dataStart < v.alloc.blockCount
    rw [hIdle.dataStart, hIdle.size, hIdle.bits _ (by omega)]
    exact ⟨⟨hAbove, hUsed⟩, hInside⟩
  apart := fun b hb => by
    obtain ⟨⟨⟨hAbove, hUsed⟩, hInside⟩, hNot⟩ := h.apart b hb
    refine ⟨?_, hNot⟩
    show (v.dataStart < b ∧ v.alloc.isFree (b - v.dataStart) = false) ∧
      b - v.dataStart < v.alloc.blockCount
    rw [hIdle.dataStart, hIdle.size, hIdle.bits _ (by omega)]
    exact ⟨⟨hAbove, hUsed⟩, hInside⟩
  inside := fun n hn => by
    show n < v.alloc.blockCount
    rw [hIdle.size]
    by_cases hZero : n = 0
    · subst hZero
      exact h.inside 0 (hIdle.zero hn)
    · exact h.inside n (by rw [← hIdle.bits n hZero]; exact hn)

theorem Pooled.idle (h : s.Pooled) (hIdle : Idle s.world v) : Pooled { s with world := v } where
  partials := fun e he => h.partials e (hIdle.partials e he)
  hot := fun hSome => by
    rcases hIdle.hot with hZero | hSame
    · exact absurd hZero hSome
    · show s.Housing v.hotBlock
      have hSome' : v.hotBlock ≠ 0 := hSome
      rw [hSame] at hSome' ⊢
      exact h.hot hSome'

theorem housing_cons : Housing { s with world := v, held := (dir, ref) :: s.held } b ↔
    b = refBlock ref ∨ s.Housing b := by
  unfold Housing
  simp only [List.mem_cons, exists_eq_or_imp]
  constructor
  · rintro (hEq | hOld)
    · exact Or.inl hEq.symm
    · exact Or.inr hOld
  · rintro (hEq | hOld)
    · exact Or.inl hEq.symm
    · exact Or.inr hOld

/-- A directory gets a node. -/
theorem Disk.grant (h : s.Disk) (hGives : Gives s.Housing s.world ref v) (dir : Nat) :
    Disk { s with world := v, held := (dir, ref) :: s.held } where
  once := by
    show (ref :: s.held.map Prod.snd).Nodup
    rw [List.nodup_cons]
    refine ⟨fun hMem => ?_, h.once⟩
    obtain ⟨e, he, hEq⟩ := List.mem_map.mp hMem
    exact h.fresh hGives e.1 (by rw [← hEq]; exact he)
  page := fun b hb => by
    show ∃ p, v.pages b = some p ∧ p.Counts ∧ ∀ slot < 64, p.free slot = false ↔
      ∃ d, (d, makeRef b slot) ∈ (dir, ref) :: s.held
    by_cases hEq : b = refBlock ref
    · subst hEq
      obtain ⟨q, hq, hCounts, hLive⟩ := hGives.page
      refine ⟨q, hq, hCounts, fun slot hs => (hLive slot hs).trans ?_⟩
      constructor
      · rintro (rfl | ⟨hHousing, p, hp, hUsed⟩)
        · exact ⟨dir, by rw [makeRef_refBlock]; exact List.mem_cons_self⟩
        · obtain ⟨p', hp', -, hIff⟩ := h.page _ hHousing
          obtain rfl := Option.some.inj (hp.symm.trans hp')
          obtain ⟨d, hd⟩ := (hIff slot hs).mp hUsed
          exact ⟨d, List.mem_cons_of_mem _ hd⟩
      · rintro ⟨d, hd⟩
        rcases List.mem_cons.mp hd with hNew | hOld
        · have hRef : makeRef (refBlock ref) slot = ref := (Prod.mk.inj hNew).2
          refine Or.inl ?_
          rw [← refSlot_makeRef (b := refBlock ref) hs, hRef]
        · have hHousing : s.Housing (refBlock ref) := ⟨_, hOld, refBlock_makeRef _ _⟩
          obtain ⟨p, hp, -, hIff⟩ := h.page _ hHousing
          exact Or.inr ⟨hHousing, p, hp, (hIff slot hs).mpr ⟨d, hOld⟩⟩
    · obtain ⟨p, hp, hCounts, hLive⟩ := h.page b ((housing_cons.mp hb).resolve_left hEq)
      refine ⟨p, (hGives.others b hEq).trans hp, hCounts, fun slot hs => (hLive slot hs).trans ?_⟩
      constructor
      · rintro ⟨d, hd⟩
        exact ⟨d, List.mem_cons_of_mem _ hd⟩
      · rintro ⟨d, hd⟩
        rcases List.mem_cons.mp hd with hNew | hOld
        · have hRef : makeRef b slot = ref := (Prod.mk.inj hNew).2
          rw [← hRef, refBlock_makeRef] at hEq
          exact absurd rfl hEq
        · exact ⟨d, hOld⟩
  taken := fun b hb => by
    show (v.dataStart < b ∧ v.alloc.isFree (b - v.dataStart) = false) ∧
      b - v.dataStart < v.alloc.blockCount
    have hAbove := hGives.above
    rw [hGives.dataStart, hGives.size]
    rcases housing_cons.mp hb with rfl | hOld
    · refine ⟨⟨hAbove, ?_⟩, ?_⟩
      · rw [hGives.bits _ (by omega), decide_eq_false (not_not.mpr rfl), Bool.and_false]
      · rcases hGives.block with hHousing | hFree
        · exact (h.taken _ hHousing).2
        · exact h.inside _ hFree
    · obtain ⟨⟨hPast, hUsed⟩, hInside⟩ := h.taken b hOld
      exact ⟨⟨hPast, by rw [hGives.bits _ (by omega), hUsed, Bool.false_and]⟩, hInside⟩
  apart := fun b hb => by
    obtain ⟨⟨⟨hPast, hUsed⟩, hInside⟩, hNot⟩ := h.apart b hb
    refine ⟨?_, fun hHousing => ?_⟩
    · show (v.dataStart < b ∧ v.alloc.isFree (b - v.dataStart) = false) ∧
        b - v.dataStart < v.alloc.blockCount
      rw [hGives.dataStart, hGives.size, hGives.bits _ (by omega), hUsed, Bool.false_and]
      exact ⟨⟨hPast, rfl⟩, hInside⟩
    · rcases housing_cons.mp hHousing with rfl | hOld
      · rcases hGives.block with hOld | hFree
        · exact hNot hOld
        · rw [hFree] at hUsed
          exact Bool.noConfusion hUsed
      · exact hNot hOld
  inside := fun n hn => by
    show n < v.alloc.blockCount
    have hFree : v.alloc.isFree n = true := hn
    rw [hGives.size]
    by_cases hZero : n = 0
    · subst hZero
      exact h.inside 0 (hGives.zero hFree)
    · rw [hGives.bits n hZero, Bool.and_eq_true] at hFree
      exact h.inside n hFree.1

theorem Pooled.grant (hGives : Gives s.Housing s.world ref v) (dir : Nat) :
    Pooled { s with world := v, held := (dir, ref) :: s.held } where
  partials := fun e he => housing_cons.mpr (hGives.partials e he).symm
  hot := fun hSome => housing_cons.mpr (hGives.hot hSome).symm

/-- Every outcome of an allocation. -/
theorem Disk.hands (h : s.Disk) (hPool : s.Pooled) {r : Except Errno (Option Nat) × World}
    (hr : Hands s.Housing s.world r) (dir : Nat) :
    Disk { s with world := r.2, held := CommonsOp.grant dir s.held r.1 } ∧
      Pooled { s with world := r.2, held := CommonsOp.grant dir s.held r.1 } := by
  rcases hr with ⟨v, rfl, hIdle⟩ | ⟨ref, v, rfl, hGives⟩
  · exact ⟨h.idle hIdle, hPool.idle hIdle⟩
  · exact ⟨h.grant hGives dir, .grant hGives dir⟩

end Kept

end Commons

--
-- Freeing a node
--

section Free

variable {w : World} {ref : Nat} {p : Page}

/-- What `briefs_trie_free_node` does with a node that is in use; `last` says that it was the last
one of its page. -/
structure Drops (w : World) (ref : Nat) (p : Page) (last : Prop) (v : World) : Prop where
  page      : v.pages (refBlock ref) = some (p.dropSlot (refSlot ref))
  others    : ∀ b, b ≠ refBlock ref → v.pages b = w.pages b
  dataStart : v.dataStart = w.dataStart
  size      : v.alloc.blockCount = w.alloc.blockCount
  bits      : ∀ n, v.alloc.isFree n = true ↔ w.alloc.isFree n = true ∨
    (last ∧ n = refBlock ref - w.dataStart ∧ refBlock ref - w.dataStart < w.alloc.blockCount)
  partials  : ∀ e ∈ v.partials,
    (e ∈ w.partials ∧ (last → e.1 ≠ refBlock ref)) ∨ (¬ last ∧ e.1 = refBlock ref)
  hot       : v.hotBlock = 0 ∨ (v.hotBlock = w.hotBlock ∧ (last → v.hotBlock ≠ refBlock ref))

theorem freeNode_drops (hRef : ref ≠ 0) (hp : w.pages (refBlock ref) = some p)
    (hLive : p.free (refSlot ref) = false) :
    Drops w ref p ((p.dropSlot (refSlot ref)).liveCount = 0) (freeNode ref w).2 := by
  have hEdits := edits_put w (refBlock ref) (p.dropSlot (refSlot ref))
  unfold freeNode
  simp only [hp, if_neg hRef, hLive, if_neg Bool.false_ne_true]
  by_cases hLast : (p.dropSlot (refSlot ref)).liveCount = 0
  · rw [if_pos hLast]
    refine ⟨hEdits.page, hEdits.others, rfl, Alloc.blockCount_freeBlock _ _, ?_, ?_, ?_⟩
    · intro n
      show (w.alloc.freeBlock (refBlock ref - w.dataStart)).isFree n = true ↔ _
      rw [Alloc.isFree_freeBlock, Bool.or_eq_true, decide_eq_true_eq]
      exact or_congr_right (and_iff_right hLast).symm
    · intro e he
      obtain ⟨hMem, hKeep⟩ := List.mem_filter.mp he
      exact Or.inl ⟨hMem, fun _ => by simpa using hKeep⟩
    · by_cases hHot : w.hotBlock = refBlock ref
      · exact Or.inl (if_pos hHot)
      · have hSame : (if w.hotBlock = refBlock ref then 0 else w.hotBlock) = w.hotBlock :=
          if_neg hHot
        exact Or.inr ⟨hSame, fun _ hEq => hHot (hSame.symm.trans hEq)⟩
  · rw [if_neg hLast]
    have hBits : ∀ n, w.alloc.isFree n = true ↔ w.alloc.isFree n = true ∨
        ((p.dropSlot (refSlot ref)).liveCount = 0 ∧ n = refBlock ref - w.dataStart ∧
          refBlock ref - w.dataStart < w.alloc.blockCount) :=
      fun n => ⟨Or.inl, fun hOr => hOr.resolve_right fun hAll => hLast hAll.1⟩
    have hKept : ∀ e ∈ w.partials, (e ∈ w.partials ∧
        ((p.dropSlot (refSlot ref)).liveCount = 0 → e.1 ≠ refBlock ref)) ∨
          (¬ (p.dropSlot (refSlot ref)).liveCount = 0 ∧ e.1 = refBlock ref) :=
      fun e he => Or.inl ⟨he, fun hIs => absurd hIs hLast⟩
    have hHot : ∀ b : Nat, (p.dropSlot (refSlot ref)).liveCount = 0 → b ≠ refBlock ref :=
      fun _ hIs => absurd hIs hLast
    by_cases hRoom : (p.dropSlot (refSlot ref)).freeSlot.isSome = true
    · rw [if_pos hRoom]
      unfold World.listPage
      split_ifs
      · exact ⟨hEdits.page, hEdits.others, rfl, rfl, hBits, hKept, Or.inr ⟨rfl, hHot _⟩⟩
      · refine ⟨hEdits.page, hEdits.others, rfl, rfl, hBits, ?_, Or.inr ⟨rfl, hHot _⟩⟩
        intro e he
        rcases List.mem_cons.mp he with rfl | hOld
        · exact Or.inr ⟨hLast, rfl⟩
        · exact hKept e hOld
    · rw [if_neg hRoom]
      exact ⟨hEdits.page, hEdits.others, rfl, rfl, hBits, hKept, Or.inr ⟨rfl, hHot _⟩⟩

end Free

namespace Commons

section Freed

variable {s : Commons} {v : World} {dir ref b : Nat} {p : Page}

/-- The node is the only one of its page. -/
def Last (s : Commons) (ref : Nat) : Prop :=
  ∀ e ∈ s.held, refBlock e.2 = refBlock ref → e.2 = ref

/-- The directory gives up its node. -/
theorem Disk.mem_erase (h : s.Disk) (hHeld : (dir, ref) ∈ s.held) (e : Nat × Nat) :
    e ∈ s.held.erase (dir, ref) ↔ e ∈ s.held ∧ e.2 ≠ ref := by
  rw [(List.Nodup.of_map _ h.once).mem_erase_iff, and_comm]
  refine and_congr_right fun he => not_congr ?_
  constructor
  · rintro rfl
    rfl
  · intro hEq
    exact List.inj_on_of_nodup_map h.once he hHeld hEq

theorem Disk.housing_erase (h : s.Disk) (hHeld : (dir, ref) ∈ s.held) :
    Housing { s with world := v, held := s.held.erase (dir, ref) } b ↔
      s.Housing b ∧ (b = refBlock ref → ¬ s.Last ref) := by
  unfold Housing Last
  simp only [h.mem_erase hHeld]
  constructor
  · rintro ⟨e, ⟨he, hNe⟩, rfl⟩
    exact ⟨⟨e, he, rfl⟩, fun hEq hLast => hNe (hLast e he hEq)⟩
  · rintro ⟨⟨e, he, rfl⟩, hMore⟩
    by_cases hEq : refBlock e.2 = refBlock ref
    · have hNot := hMore hEq
      push Not at hNot
      obtain ⟨d, hd, hBlock, hNe⟩ := hNot
      exact ⟨d, ⟨hd, hNe⟩, hBlock.trans hEq.symm⟩
    · exact ⟨e, ⟨he, fun hIs => hEq (by rw [hIs])⟩, rfl⟩

/-- The header of the page says whether the node was the last one. -/
theorem Disk.last_iff (h : s.Disk) (hHeld : (dir, ref) ∈ s.held)
    (hp : s.world.pages (refBlock ref) = some p) :
    (p.dropSlot (refSlot ref)).liveCount = 0 ↔ s.Last ref := by
  obtain ⟨p', hp', hCounts, hLive⟩ := h.page _ ⟨_, hHeld, rfl⟩
  obtain rfl := Option.some.inj (hp.symm.trans hp')
  have hUsed : p.free (refSlot ref) = false :=
    (hLive _ (refSlot_lt ref)).mpr ⟨dir, by rw [makeRef_refBlock]; exact hHeld⟩
  rw [(Page.dropSlot_counts hCounts (refSlot_lt ref) hUsed).count, Finset.card_eq_zero,
    Finset.filter_eq_empty_iff]
  have hDrop : ∀ slot, (p.dropSlot (refSlot ref)).free slot =
      if slot = refSlot ref then true else p.free slot := fun _ => rfl
  constructor
  · intro hNone e he hBlock
    by_contra hNe
    have hSlot : refSlot e.2 ≠ refSlot ref := by
      intro hEq
      rw [← makeRef_refBlock e.2, ← makeRef_refBlock ref, hBlock, hEq] at hNe
      exact hNe rfl
    refine hNone (Finset.mem_range.mpr (refSlot_lt e.2)) ?_
    rw [hDrop, if_neg hSlot]
    refine (hLive _ (refSlot_lt _)).mpr ⟨e.1, ?_⟩
    rw [← hBlock, makeRef_refBlock]
    exact he
  · intro hLast slot hs hFree
    rw [hDrop] at hFree
    by_cases hEq : slot = refSlot ref
    · rw [if_pos hEq] at hFree
      exact Bool.noConfusion hFree
    · rw [if_neg hEq] at hFree
      obtain ⟨d, hd⟩ := (hLive slot (Finset.mem_range.mp hs)).mp hFree
      have hIs : makeRef (refBlock ref) slot = ref := hLast _ hd (refBlock_makeRef _ _)
      rw [← hIs, refSlot_makeRef (Finset.mem_range.mp hs)] at hEq
      exact hEq rfl

/-- The node of a directory is in use. -/
theorem Disk.inUse (h : s.Disk) (hHeld : (dir, ref) ∈ s.held) : ref ≠ 0 ∧
    ∃ p, s.world.pages (refBlock ref) = some p ∧ p.Counts ∧ p.free (refSlot ref) = false := by
  have hHousing : s.Housing (refBlock ref) := ⟨_, hHeld, rfl⟩
  obtain ⟨p, hp, hCounts, hLive⟩ := h.page _ hHousing
  obtain ⟨⟨hAbove, -⟩, -⟩ := h.taken _ hHousing
  refine ⟨?_, p, hp, hCounts, (hLive _ (refSlot_lt ref)).mpr ⟨dir, ?_⟩⟩
  · rintro rfl
    exact absurd hAbove (Nat.not_lt_zero _)
  · rw [makeRef_refBlock]
    exact hHeld

/-- `briefs_trie_free_node` on a node of a directory. -/
theorem Disk.drops (h : s.Disk) (hHeld : (dir, ref) ∈ s.held) :
    ∃ p, s.world.pages (refBlock ref) = some p ∧ p.Counts ∧ p.free (refSlot ref) = false ∧
      Drops s.world ref p (s.Last ref) (freeNode ref s.world).2 := by
  obtain ⟨hRef, p, hp, hCounts, hUsed⟩ := h.inUse hHeld
  have hDrops := freeNode_drops hRef hp hUsed
  rw [propext (h.last_iff hHeld hp)] at hDrops
  exact ⟨p, hp, hCounts, hUsed, hDrops⟩

theorem Disk.free (h : s.Disk) (hHeld : (dir, ref) ∈ s.held) :
    Disk { s with world := (freeNode ref s.world).2, held := s.held.erase (dir, ref) } := by
  obtain ⟨p, hp, hCounts, hUsed, hDrops⟩ := h.drops hHeld
  generalize (freeNode ref s.world).2 = v at hDrops
  -- A block in use stays so unless it is that of the last node.
  have hStays : ∀ b, s.world.Taken b → (b = refBlock ref → ¬ s.Last ref) → v.Taken b := by
    rintro b ⟨hPast, hIs⟩ hMore
    refine ⟨by rw [hDrops.dataStart]; exact hPast, ?_⟩
    rw [hDrops.dataStart, ← Bool.not_eq_true, hDrops.bits]
    rintro (hFree | ⟨hLast, hEq, -⟩)
    · rw [hIs] at hFree
      exact Bool.noConfusion hFree
    · obtain ⟨⟨hAbove, -⟩, -⟩ := h.taken _ ⟨_, hHeld, rfl⟩
      exact hMore (by omega) hLast
  constructor
  case once =>
    exact h.once.sublist ((List.erase_sublist).map Prod.snd)
  case page =>
    intro b hb
    obtain ⟨hOld, -⟩ := (h.housing_erase hHeld).mp hb
    obtain ⟨p', hp', hCounts', hLive⟩ := h.page b hOld
    show ∃ p, v.pages b = some p ∧ p.Counts ∧ ∀ slot < 64, p.free slot = false ↔
      ∃ d, (d, makeRef b slot) ∈ s.held.erase (dir, ref)
    simp only [h.mem_erase hHeld]
    by_cases hEq : b = refBlock ref
    · subst hEq
      obtain rfl := Option.some.inj (hp.symm.trans hp')
      refine ⟨_, hDrops.page, Page.dropSlot_counts hCounts (refSlot_lt ref) hUsed, ?_⟩
      intro slot hs
      show (if slot = refSlot ref then true else p.free slot) = false ↔ _
      by_cases hSlot : slot = refSlot ref
      · rw [if_pos hSlot, hSlot, makeRef_refBlock]
        exact iff_of_false Bool.noConfusion fun hAll => hAll.elim fun _ hBoth => hBoth.2 rfl
      · rw [if_neg hSlot, hLive slot hs]
        have hNe : makeRef (refBlock ref) slot ≠ ref := by
          intro hIs
          rw [← hIs, refSlot_makeRef hs] at hSlot
          exact hSlot rfl
        exact exists_congr fun d => (and_iff_left hNe).symm
    · refine ⟨p', (hDrops.others b hEq).trans hp', hCounts', fun slot hs => ?_⟩
      rw [hLive slot hs]
      have hNe : makeRef b slot ≠ ref := by
        intro hIs
        rw [← hIs, refBlock_makeRef] at hEq
        exact hEq rfl
      exact exists_congr fun d => (and_iff_left hNe).symm
  case taken =>
    intro b hb
    obtain ⟨hOld, hMore⟩ := (h.housing_erase hHeld).mp hb
    obtain ⟨hIs, hInside⟩ := h.taken b hOld
    refine ⟨hStays b hIs hMore, ?_⟩
    show b - v.dataStart < v.alloc.blockCount
    rw [hDrops.dataStart, hDrops.size]
    exact hInside
  case apart =>
    intro b hb
    obtain ⟨⟨hIs, hInside⟩, hNot⟩ := h.apart b hb
    refine ⟨⟨hStays b hIs ?_, ?_⟩, fun hHousing => hNot ((h.housing_erase hHeld).mp hHousing).1⟩
    · rintro rfl
      exact absurd ⟨_, hHeld, rfl⟩ hNot
    · show b - v.dataStart < v.alloc.blockCount
      rw [hDrops.dataStart, hDrops.size]
      exact hInside
  case inside =>
    intro n hn
    show n < v.alloc.blockCount
    rw [hDrops.size]
    rcases (hDrops.bits n).mp hn with hFree | ⟨-, rfl, hInside⟩
    · exact h.inside n hFree
    · exact hInside

theorem Pooled.free (hPool : s.Pooled) (h : s.Disk) (hHeld : (dir, ref) ∈ s.held) :
    Pooled { s with world := (freeNode ref s.world).2, held := s.held.erase (dir, ref) } := by
  obtain ⟨p, hp, hCounts, hUsed, hDrops⟩ := h.drops hHeld
  generalize (freeNode ref s.world).2 = v at hDrops
  refine ⟨fun e he => (h.housing_erase hHeld).mpr ?_, fun hSome => (h.housing_erase hHeld).mpr ?_⟩
  · rcases hDrops.partials e he with ⟨hOld, hKept⟩ | ⟨hMore, hEq⟩
    · exact ⟨hPool.partials e hOld, fun hEq hLast => hKept hLast hEq⟩
    · exact ⟨⟨_, hHeld, hEq.symm⟩, fun _ => hMore⟩
  · rcases hDrops.hot with hZero | ⟨hSame, hKept⟩
    · exact absurd hZero hSome
    · refine ⟨?_, fun hEq hLast => hKept hLast hEq⟩
      have hSome' : v.hotBlock ≠ 0 := hSome
      show s.Housing v.hotBlock
      rw [hSame] at hSome' ⊢
      exact hPool.hot hSome'

end Freed

end Commons

--
-- Runs
--

namespace Commons

section Steps

variable {s : Commons}

/-- A change of the pool leaves the pages and the allocator alone. -/
theorem Disk.withPool (h : s.Disk) (partials : List (Nat × Nat)) (hotBlock hotHint : Nat) :
    Disk { s with world := { s.world with
      partials := partials, hotBlock := hotBlock, hotHint := hotHint } } :=
  ⟨h.once, h.page, h.taken, h.apart, h.inside⟩

/-- Names and fields are stored into nodes of a page. -/
theorem Disk.store (h : s.Disk) {b : Nat} {p q : Page} (hb : s.Housing b)
    (hp : s.world.pages b = some p) (hFree : q.free = p.free) (hCount : q.liveCount = p.liveCount)
    (hRoom : q.freeNameOff ≤ heapSize) : Disk { s with world := s.world.put b q } := by
  have hEdits := edits_put s.world b q
  refine ⟨h.once, fun b' hb' => ?_, h.taken, h.apart, h.inside⟩
  obtain ⟨p', hp', hCounts, hLive⟩ := h.page b' hb'
  by_cases hEq : b' = b
  · subst hEq
    obtain rfl := Option.some.inj (hp.symm.trans hp')
    refine ⟨q, hEdits.page, ⟨?_, hRoom⟩, by rw [hFree]; exact hLive⟩
    rw [hCount, hFree, hCounts.count]
  · exact ⟨p', (hEdits.others b' hEq).trans hp', hCounts, hLive⟩

/-- Others take free blocks, and write and give back their own. -/
theorem Disk.others (h : s.Disk) {pages : Pages} {alloc : Alloc} {taken : List Nat}
    (hOp : (CommonsOp.others pages alloc taken).Enabled s) :
    Disk ((CommonsOp.others pages alloc taken).run s) := by
  obtain ⟨hSize, hTheirs, hFrees, hPages⟩ := hOp
  -- What houses a node is not theirs, neither before nor after.
  have hBefore : ∀ b, s.Housing b → b ∉ s.taken := fun b hb hIn => (h.apart b hIn).2 hb
  have hAfter : ∀ b, s.Housing b → b ∉ taken := by
    intro b hb hIn
    obtain ⟨-, -, hOld | hFree⟩ := hTheirs b hIn
    · exact hBefore b hb hOld
    · have hUsed := (h.taken b hb).1.2
      rw [hFree] at hUsed
      exact Bool.noConfusion hUsed
  constructor
  case once => exact h.once
  case page =>
    intro b hb
    obtain ⟨p, hp, hRest⟩ := h.page b hb
    exact ⟨p, (hPages b (hBefore b hb) (hAfter b hb)).trans hp, hRest⟩
  case taken =>
    intro b hb
    obtain ⟨⟨hPast, hUsed⟩, hInside⟩ := h.taken b hb
    refine ⟨⟨hPast, ?_⟩, hSize.symm ▸ hInside⟩
    show alloc.isFree (b - s.world.dataStart) = false
    rw [← Bool.not_eq_true]
    intro hFree
    rcases hFrees _ hFree with hOld | hTheir
    · rw [hUsed] at hOld
      exact Bool.noConfusion hOld
    · rw [Nat.add_sub_cancel' (Nat.le_of_lt hPast)] at hTheir
      exact hBefore b hb hTheir
  case apart =>
    intro b hb
    obtain ⟨hPast, hUsed, hWas⟩ := hTheirs b hb
    refine ⟨⟨⟨hPast, hUsed⟩, ?_⟩, fun hHousing => hAfter b hHousing hb⟩
    show b - s.world.dataStart < alloc.blockCount
    rw [hSize]
    rcases hWas with hOld | hFree
    · exact (h.apart b hOld).1.2
    · exact h.inside _ hFree
  case inside =>
    intro n hn
    show n < alloc.blockCount
    rw [hSize]
    rcases hFrees n hn with hOld | hTheir
    · exact h.inside n hOld
    · have hInside := (h.apart _ hTheir).1.2
      rwa [Nat.add_sub_cancel_left] at hInside

/-- The result of `briefs_trie_page_init` as one of an allocation. -/
theorem Disk.pageInit_hands (h : s.Disk) (hPool : s.Pooled) (depth : Nat) (byteVal : UInt8)
    (interm : Bool) :
    (∃ v, pageInit depth byteVal interm s.world = (.error .enospc, v) ∧ Idle s.world v) ∨
      ∃ ref v, pageInit depth byteVal interm s.world = (.ok ref, v) ∧
        Gives s.Housing s.world ref v := by
  rcases pageInit_gives (h.stocked hPool) depth byteVal interm with
    hNone | ⟨ref, v, hRun, hGives, -, -⟩
  · exact Or.inl hNone
  · exact Or.inr ⟨ref, v, hRun, hGives⟩

/-- One operation. -/
theorem Disk.run (h : s.Disk) (hPool : s.Pooled) (op : CommonsOp) (hOp : op.Enabled s) :
    (op.run s).Disk ∧ (op.run s).Pooled := by
  cases op with
  | allocNode dir len hint => exact h.hands hPool (allocNode_hands (h.stocked hPool) hOp hint) dir
  | pageInit dir depth byteVal interm =>
    unfold CommonsOp.run
    dsimp only
    rcases h.pageInit_hands hPool depth byteVal interm with
      ⟨v, hRun, hIdle⟩ | ⟨ref, v, hRun, hGives⟩
    · rw [hRun]
      exact ⟨h.idle hIdle, hPool.idle hIdle⟩
    · rw [hRun]
      exact ⟨h.grant hGives dir, .grant hGives dir⟩
  | addPartial ref hint =>
    obtain ⟨dir, hHeld⟩ := hOp
    obtain ⟨partials, hotBlock, hotHint, hAdd, hParts, hHot⟩ :=
      addPartial_pool (refBlock ref) hint s.world
    unfold CommonsOp.run
    dsimp only
    rw [hAdd]
    refine ⟨h.withPool _ _ _, fun e he => ?_, fun hSome => ?_⟩
    · rcases hParts e he with hOld | hNew
      · exact hPool.partials e hOld
      · exact ⟨_, hHeld, hNew.symm⟩
    · rcases hHot with rfl | rfl
      · exact hPool.hot hSome
      · exact ⟨_, hHeld, rfl⟩
  | freeNode dir ref => exact ⟨h.free hOp, hPool.free h hOp⟩
  | store b q =>
    obtain ⟨hb, p, hp, hFree, hCount, hRoom⟩ := hOp
    exact ⟨h.store hb hp hFree hCount hRoom, hPool.partials, hPool.hot⟩
  | forget partials hotBlock =>
    obtain ⟨hParts, hHot⟩ := hOp
    refine ⟨h.withPool _ _ _, fun e he => hPool.partials e (hParts e he), fun hSome => ?_⟩
    rcases hHot with rfl | rfl
    · exact absurd rfl hSome
    · exact hPool.hot hSome
  | others pages alloc taken => exact ⟨h.others hOp, hPool.partials, hPool.hot⟩

theorem Disk.reach {start : Commons} (hStart : start.Disk) (hPool : start.Pooled)
    (h : CommonsOp.Reach start s) : s.Disk ∧ s.Pooled := by
  induction h with
  | refl => exact ⟨hStart, hPool⟩
  | step op _ hOp ih => exact ih.1.run ih.2 op hOp

/-- The nodes that directories hold, after an operation that frees none. -/
theorem Disk.housing_run (h : s.Disk) (hPool : s.Pooled) (op : CommonsOp) (hOp : op.Enabled s)
    (hKeeps : ∀ dir ref, op ≠ .freeNode dir ref) {b : Nat} (hb : s.Housing b) :
    (op.run s).Housing b ∧ (op.run s).world.dataStart = s.world.dataStart := by
  cases op with
  | allocNode dir len hint =>
    unfold CommonsOp.run
    dsimp only
    rcases allocNode_hands (h.stocked hPool) hOp hint with ⟨v, hRun, hIdle⟩ | ⟨ref, v, hRun, hGives⟩
    · rw [hRun]
      exact ⟨hb, hIdle.dataStart⟩
    · rw [hRun]
      exact ⟨housing_cons.mpr (Or.inr hb), hGives.dataStart⟩
  | pageInit dir depth byteVal interm =>
    unfold CommonsOp.run
    dsimp only
    rcases h.pageInit_hands hPool depth byteVal interm with
      ⟨v, hRun, hIdle⟩ | ⟨ref, v, hRun, hGives⟩
    · rw [hRun]
      exact ⟨hb, hIdle.dataStart⟩
    · rw [hRun]
      exact ⟨housing_cons.mpr (Or.inr hb), hGives.dataStart⟩
  | addPartial ref hint =>
    obtain ⟨partials, hotBlock, hotHint, hAdd, -, -⟩ := addPartial_pool (refBlock ref) hint s.world
    unfold CommonsOp.run
    dsimp only
    rw [hAdd]
    exact ⟨hb, rfl⟩
  | freeNode dir ref => exact absurd rfl (hKeeps dir ref)
  | store b q => exact ⟨hb, rfl⟩
  | forget partials hotBlock => exact ⟨hb, rfl⟩
  | others pages alloc taken => exact ⟨hb, rfl⟩

/-- The operations that free the block of a page: those that free its last node. -/
theorem Disk.freed_iff (h : s.Disk) (hPool : s.Pooled) (op : CommonsOp) (hOp : op.Enabled s)
    {b : Nat} (hb : s.Housing b) :
    (op.run s).world.alloc.isFree (b - s.world.dataStart) = true ↔
      ∃ dir ref, op = .freeNode dir ref ∧ refBlock ref = b ∧
        ∀ e ∈ s.held, refBlock e.2 = b → e.2 = ref := by
  obtain ⟨⟨hPast, hUsed⟩, hInside⟩ := h.taken b hb
  by_cases hFrees : ∃ dir ref, op = .freeNode dir ref
  · obtain ⟨dir, ref, rfl⟩ := hFrees
    obtain ⟨p, -, -, -, hDrops⟩ := h.drops hOp
    obtain ⟨⟨hAbove, -⟩, hRange⟩ := h.taken _ ⟨_, hOp, rfl⟩
    show (freeNode ref s.world).2.alloc.isFree _ = true ↔ _
    rw [hDrops.bits, hUsed]
    constructor
    · rintro (hNo | ⟨hLast, hEq, -⟩)
      · exact absurd hNo Bool.noConfusion
      · have hBlock : refBlock ref = b := by
          dsimp only at hAbove
          omega
        refine ⟨dir, ref, rfl, hBlock, ?_⟩
        rw [← hBlock]
        exact hLast
    · rintro ⟨d, r, hSame, rfl, hLast⟩
      obtain ⟨-, rfl⟩ := CommonsOp.freeNode.inj hSame
      exact Or.inr ⟨hLast, rfl, hRange⟩
  · push Not at hFrees
    obtain ⟨hStill, hStart⟩ := h.housing_run hPool op hOp hFrees hb
    have hTaken := ((h.run hPool op hOp).1.taken b hStill).1.2
    rw [hStart] at hTaken
    refine iff_of_false (by rw [hTaken]; exact Bool.noConfusion) ?_
    rintro ⟨dir, ref, hIs, -⟩
    exact hFrees dir ref hIs

end Steps

end Commons

/-- After every sequence of operations of any directories, from a device that has just been
mounted: the pool and the hot page name live pages, no node belongs to two directories and the
slots in use are those of the nodes, a node that is allocated was nobody's, and an operation frees
the block of a page iff it frees the last node of it. -/
theorem page_lifecycle {start s : Commons} (hStart : start.Disk)
    (hNone : start.world.partials = []) (hCold : start.world.hotBlock = 0)
    (h : CommonsOp.Reach start s) :
    (∀ e ∈ s.world.partials, s.LivePage e.1) ∧
    (s.world.hotBlock ≠ 0 → s.LivePage s.world.hotBlock) ∧
    (s.held.map Prod.snd).Nodup ∧
    (∀ b p, s.LivePage b → s.world.pages b = some p → ∀ slot < 64,
      p.free slot = false ↔ ∃ dir, (dir, makeRef b slot) ∈ s.held) ∧
    (∀ len hint ref, len ≤ nameLen → (allocNode len hint s.world).1 = .ok (some ref) →
      ∀ dir, (dir, ref) ∉ s.held) ∧
    ∀ op : CommonsOp, op.Enabled s → ∀ b, s.LivePage b →
      ((op.run s).world.alloc.isFree (b - s.world.dataStart) = true ↔
        ∃ dir ref, op = .freeNode dir ref ∧ refBlock ref = b ∧
          ∀ e ∈ s.held, refBlock e.2 = b → e.2 = ref) := by
  have hFirst : start.Pooled :=
    ⟨fun e he => by rw [hNone] at he; exact absurd he List.not_mem_nil,
      fun hHot => absurd hCold hHot⟩
  obtain ⟨hDisk, hPool⟩ := hStart.reach hFirst h
  refine ⟨?_, ?_, hDisk.once, ?_, ?_, ?_⟩
  · exact fun e he => (hDisk.livePage_iff e.1).mpr (hPool.partials e he)
  · exact fun hHot => (hDisk.livePage_iff _).mpr (hPool.hot hHot)
  · intro b p hb hp
    obtain ⟨p', hp', -, hLive⟩ := hDisk.page b ((hDisk.livePage_iff b).mp hb)
    obtain rfl := Option.some.inj (hp.symm.trans hp')
    exact hLive
  · intro len hint ref hLen hRun dir
    rcases allocNode_hands (hDisk.stocked hPool) hLen hint with
      ⟨v, hGot, -⟩ | ⟨ref', v, hGot, hGives⟩
    · rw [hGot] at hRun
      cases hRun
    · rw [hGot] at hRun
      cases hRun
      exact hDisk.fresh hGives dir
  · exact fun op hOp b hb => hDisk.freed_iff hPool op hOp ((hDisk.livePage_iff b).mp hb)

/-- A device of 64 blocks, three of them free, without directories. -/
def Commons.vacant : Commons where
  world := { World.bare with
    alloc := { Alloc.threeFree with l2 := fun i => if i = 0 then 14#64 else 0#64 } }
  held  := []
  taken := []

theorem Commons.vacant_disk : Commons.vacant.Disk where
  once := List.nodup_nil
  page := fun _ hb => absurd hb.choose_spec.1 List.not_mem_nil
  taken := fun _ hb => absurd hb.choose_spec.1 List.not_mem_nil
  apart := fun _ hb => absurd hb List.not_mem_nil
  inside := by
    intro n hn
    show n < 64
    by_contra hBig
    have hWord : n / 64 ≠ 0 := by omega
    have hTest : ((if n / 64 = 0 then 14#64 else 0#64 : BitVec 64).getLsbD (n % 64)) = true := hn
    rw [if_neg hWord, BitVec.getLsbD_zero] at hTest
    exact Bool.noConfusion hTest

/-- Two directories take a node each, both from one page, and the first gives its node back. -/
def sharedRun : List CommonsOp :=
  [.pageInit 1 0 0 true, .addPartial 64 0, .allocNode 2 3 0, .freeNode 1 64]

def Commons.shared : Commons := sharedRun.foldl CommonsOp.run .vacant

theorem Commons.shared_held : Commons.shared.held = [(2, 65)] := by decide +kernel

theorem Commons.shared_reach : CommonsOp.Reach .vacant .shared := by
  have hFirst : (1, 64) ∈ (sharedRun.take 1 |>.foldl CommonsOp.run .vacant).held := by
    decide +kernel
  have hBoth : (1, 64) ∈ (sharedRun.take 3 |>.foldl CommonsOp.run .vacant).held := by
    decide +kernel
  have hName : 3 ≤ nameLen := by decide
  exact .step (.freeNode 1 64) (.step (.allocNode 2 3 0) (.step (.addPartial 64 0)
    (.step (.pageInit 1 0 0 true) .refl trivial) ⟨1, hFirst⟩) hName) hBoth

/-- The page is listed and live, and is freed with the node of the other directory. -/
theorem page_lifecycle_shared : Commons.vacant.Disk ∧ Commons.shared.world.partials = [(1, 0)] ∧
    Commons.shared.LivePage 1 ∧
    (CommonsOp.run .shared (.freeNode 2 65)).world.alloc.isFree
      (1 - Commons.shared.world.dataStart) = true := by
  obtain ⟨hListed, -, -, -, -, hFreed⟩ :=
    page_lifecycle Commons.vacant_disk rfl rfl Commons.shared_reach
  have hPool : Commons.shared.world.partials = [(1, 0)] := by decide +kernel
  have hLive : Commons.shared.LivePage 1 := hListed (1, 0) (by rw [hPool]; exact List.mem_cons_self)
  refine ⟨Commons.vacant_disk, hPool, hLive, ?_⟩
  have hMine : (2, 65) ∈ Commons.shared.held := by
    rw [Commons.shared_held]
    exact List.mem_cons_self
  refine (hFreed (.freeNode 2 65) hMine 1 hLive).mpr ⟨2, 65, rfl, rfl, fun e he _ => ?_⟩
  rw [Commons.shared_held, List.mem_singleton] at he
  rw [he]

end Briefs.Trie
