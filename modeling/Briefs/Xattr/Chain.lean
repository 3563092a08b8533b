import Briefs.Xattr.Pack

/-!
# BrieFS — reading and writing an xattr chain

The blocks of a chain along their links. Reading goes by the links, so each reader agrees
with its counterpart on the list of blocks; writing puts new blocks down before the inode
points to them, and the old ones are given back afterwards.

## Results

* `Stored.load`, `Stored.get`, `Stored.list` — all readers see the entries of the chain.
* `Stored.rewrite` — a new chain replaces the old one.
-/

namespace Briefs.Xattr

open Briefs.Journal

--
-- Chains
--

/-- The blocks from `b` on along the links. -/
def Chain (blocks : Nat → Option (XBlock × Nat)) : Nat → List (Nat × XBlock) → Prop
  | b, [] => b = 0
  | b, (n, x) :: rest =>
    b = n ∧ n ≠ 0 ∧ ∃ next, blocks n = some (x, next) ∧ Chain blocks next rest

section Chain

variable {blocks : Nat → Option (XBlock × Nat)}

/-- A link is 0 only at the end. -/
theorem Chain.eq_zero_iff {b : Nat} {l : List (Nat × XBlock)} (h : Chain blocks b l) :
    b = 0 ↔ l = [] := by
  cases l with
  | nil => exact ⟨fun _ => rfl, fun _ => h⟩
  | cons e rest =>
    obtain ⟨rfl, hNe, _⟩ := h
    exact ⟨fun hZero => absurd hZero hNe, nofun⟩

theorem loadChain_chain : ∀ {l : List (Nat × XBlock)} {fuel b : Nat}, Chain blocks b l → l ≠ [] →
    l.length ≤ fuel → loadChain blocks fuel b = .ok (l.map Prod.snd) := by
  intro l
  induction l with
  | nil => exact fun _ hNe => absurd rfl hNe
  | cons e rest ih =>
    obtain ⟨n, x⟩ := e
    intro fuel b h _ hFuel
    obtain ⟨rfl, _, next, hBlock, hRest⟩ := h
    obtain ⟨fuel, rfl⟩ : ∃ f, fuel = f + 1 := ⟨fuel - 1, by simp at hFuel; omega⟩
    have hEnd := hRest.eq_zero_iff
    unfold loadChain
    simp only [hBlock]
    by_cases hZero : next = 0
    · rw [if_pos hZero, hEnd.1 hZero]
      rfl
    · rw [if_neg hZero, ih hRest (fun hNil => hZero (hEnd.2 hNil)) (by simpa using hFuel)]
      rfl

/-- `findEntry` on a list of blocks. -/
def findIn (name : List UInt8) : List (Nat × XBlock) → Option (Nat × Entry)
  | [] => none
  | (n, x) :: rest =>
    match if x.cont then none else x.find name with
    | some e => some (n, e)
    | none => findIn name rest

theorem findEntry_chain (name : List UInt8) : ∀ {l : List (Nat × XBlock)} {fuel b : Nat},
    Chain blocks b l → l ≠ [] → l.length ≤ fuel →
      findEntry blocks name fuel b = .ok (findIn name l) := by
  intro l
  induction l with
  | nil => exact fun _ hNe => absurd rfl hNe
  | cons e rest ih =>
    obtain ⟨n, x⟩ := e
    intro fuel b h _ hFuel
    obtain ⟨rfl, _, next, hBlock, hRest⟩ := h
    obtain ⟨fuel, rfl⟩ : ∃ f, fuel = f + 1 := ⟨fuel - 1, by simp at hFuel; omega⟩
    have hEnd := hRest.eq_zero_iff
    unfold findEntry findIn
    simp only [hBlock]
    cases hFind : (if x.cont then none else x.find name) with
    | some e => rfl
    | none =>
      dsimp only
      by_cases hZero : next = 0
      · rw [if_pos hZero, hEnd.1 hZero]
        rfl
      · rw [if_neg hZero, ih hRest (fun hNil => hZero (hEnd.2 hNil)) (by simpa using hFuel)]

theorem namesFrom_chain : ∀ {l : List (Nat × XBlock)} {fuel b : Nat}, Chain blocks b l → l ≠ [] →
    l.length ≤ fuel → namesFrom blocks fuel b = .ok (l.flatMap fun e => e.2.names) := by
  intro l
  induction l with
  | nil => exact fun _ hNe => absurd rfl hNe
  | cons e rest ih =>
    obtain ⟨n, x⟩ := e
    intro fuel b h _ hFuel
    obtain ⟨rfl, _, next, hBlock, hRest⟩ := h
    obtain ⟨fuel, rfl⟩ : ∃ f, fuel = f + 1 := ⟨fuel - 1, by simp at hFuel; omega⟩
    have hEnd := hRest.eq_zero_iff
    unfold namesFrom
    simp only [hBlock]
    by_cases hZero : next = 0
    · rw [if_pos hZero, hEnd.1 hZero]
      simp
    · rw [if_neg hZero, ih hRest (fun hNil => hZero (hEnd.2 hNil)) (by simpa using hFuel)]
      simp

theorem gather_ne_nil {fragOff need : Nat} {first : Bool} {xs : List XBlock} {bytes : List UInt8}
    (h : gather fragOff first xs need = .ok bytes) (hNeed : need ≠ 0) : xs ≠ [] := by
  rintro rfl
  unfold gather at h
  rw [if_neg hNeed] at h
  cases h

theorem length_gather {fragOff : Nat} : ∀ {xs : List XBlock} {first : Bool} {need : Nat}
    {bytes : List UInt8}, gather fragOff first xs need = .ok bytes → bytes.length = need := by
  intro xs
  induction xs with
  | nil =>
    intro first need bytes h
    unfold gather at h
    split at h
    · rename_i hZero
      obtain rfl := Except.ok.inj h
      exact hZero.symm
    · cases h
  | cons x xs ih =>
    intro first need bytes h
    unfold gather at h
    split at h
    · rename_i hZero
      obtain rfl := Except.ok.inj h
      exact hZero.symm
    · split at h
      · exact ih h
      · split at h
        · cases h
        · split at h
          · cases h
          · rename_i hRest
            obtain rfl := Except.ok.inj h
            rw [List.length_append, length_slice, ih hRest]
            omega

/-- `xattr_copy_value` reads what `xattr_chain_load_value` reads. -/
theorem copyValue_chain {fragOff : Nat} : ∀ {l : List (Nat × XBlock)} {fuel b need : Nat}
    {first : Bool} {bytes : List UInt8}, Chain blocks b l →
    gather fragOff first (l.map Prod.snd) need = .ok bytes →
    need + (if first then 2 else 1) ≤ fuel →
      copyValue blocks fragOff fuel first b need = .ok bytes := by
  intro l
  induction l with
  | nil =>
    intro fuel b need first bytes _ hGather hFuel
    by_cases hZero : need = 0
    · subst hZero
      obtain ⟨fuel, rfl⟩ : ∃ f, fuel = f + 1 := ⟨fuel - 1, by split at hFuel <;> omega⟩
      rw [gather_zero] at hGather
      unfold copyValue
      rw [if_pos rfl]
      exact hGather
    · exact absurd rfl (gather_ne_nil hGather hZero)
  | cons e rest ih =>
    obtain ⟨n, x⟩ := e
    intro fuel b need first bytes h hGather hFuel
    obtain ⟨rfl, _, next, hBlock, hRest⟩ := h
    obtain ⟨fuel, rfl⟩ : ∃ f, fuel = f + 1 := ⟨fuel - 1, by split at hFuel <;> omega⟩
    have hEnd := hRest.eq_zero_iff
    rw [List.map_cons] at hGather
    unfold gather at hGather
    unfold copyValue
    by_cases hZero : need = 0
    · rw [if_pos hZero] at hGather ⊢
      exact hGather
    rw [if_neg hZero] at hGather ⊢
    simp only [hBlock]
    -- What comes after this block is there if bytes are still needed.
    have hNext : ∀ {k : Nat} {bs : List UInt8}, k ≠ 0 →
        gather fragOff false (rest.map Prod.snd) k = .ok bs → next ≠ 0 := by
      intro k bs hk hG hNil
      rw [hEnd.1 hNil] at hG
      exact gather_ne_nil hG hk rfl
    by_cases hSkip : first = true ∧ fragOff = 0
    · rw [if_pos hSkip] at hGather ⊢
      rw [if_neg (hNext hZero hGather)]
      rw [if_pos hSkip.1] at hFuel
      exact ih hRest hGather (by simp; omega)
    · rw [if_neg hSkip] at hGather ⊢
      cases hPay : x.payload first fragOff with
      | none =>
        rw [hPay] at hGather
        cases hGather
      | some r =>
        obtain ⟨start, avail⟩ := r
        have hAvail := XBlock.payload_pos hPay
        rw [hPay] at hGather
        dsimp only at hGather ⊢
        by_cases hFits : need ≤ avail
        · rw [if_pos hFits]
          rw [Nat.min_eq_right hFits, Nat.sub_self, gather_zero] at hGather
          simpa using hGather
        · rw [if_neg hFits]
          rw [Nat.min_eq_left (by omega)] at hGather
          cases hMore : gather fragOff false (rest.map Prod.snd) (need - avail) with
          | error err =>
            rw [hMore] at hGather
            cases hGather
          | ok bs =>
            rw [hMore] at hGather
            rw [if_neg (hNext (by omega) hMore)]
            have hFuel' : need - avail + (if false then 2 else 1) ≤ fuel := by
              have hOne : need + 1 ≤ fuel + 1 := by split at hFuel <;> omega
              simp only [Bool.false_eq_true, if_false]
              omega
            rw [ih hRest hMore hFuel']
            exact hGather

end Chain

--
-- Finding and listing
--

/-- The entry has the name. -/
theorem matches_iff (x : XBlock) (e : Entry) (name : List UInt8) :
    (e.nameLen == name.length && slice x.data e.nameOffset name.length == name) = true ↔
      slice x.data e.nameOffset e.nameLen = name := by
  simp only [Bool.and_eq_true, beq_iff_eq]
  constructor
  · rintro ⟨hLen, hName⟩
    rw [hLen]
    exact hName
  · intro hName
    have hLen : e.nameLen = name.length := by rw [← hName, length_slice]
    exact ⟨hLen, by rw [← hLen]; exact hName⟩

/-- What a search finds in a list of entries, against what loading them gives: nothing, or
the value of the first entry with the name. -/
def Found (kvs : List KV) (name : List UInt8) (value : Option (List UInt8)) : Prop :=
  (kvs.find? fun kv => kv.name == name) = value.map fun v => ⟨name, v⟩

theorem loadBlock_cons {x : XBlock} {xs : List XBlock} {e : Entry} {es : List Entry}
    {kvs : List KV} (h : loadBlock x xs (e :: es) = .ok kvs) :
    ∃ value rest, gather e.valueOffset true xs e.valueLen = .ok value ∧
      loadBlock x xs es = .ok rest ∧ kvs = ⟨slice x.data e.nameOffset e.nameLen, value⟩ :: rest := by
  unfold loadBlock loadEntry at h
  cases hValue : gather e.valueOffset true xs e.valueLen with
  | error err =>
    rw [hValue] at h
    cases h
  | ok value =>
    rw [hValue] at h
    dsimp only at h
    cases hRest : loadBlock x xs es with
    | error err =>
      rw [hRest] at h
      cases h
    | ok rest =>
      rw [hRest] at h
      obtain rfl := Except.ok.inj h
      exact ⟨value, rest, rfl, rfl, rfl⟩

theorem loadBlock_find {x : XBlock} {xs : List XBlock} (name : List UInt8) :
    ∀ {es : List Entry} {kvs : List KV}, loadBlock x xs es = .ok kvs →
      ((es.find? fun e => e.nameLen == name.length &&
          slice x.data e.nameOffset name.length == name) = none ∧ Found kvs name none) ∨
      ∃ e value, (es.find? fun e => e.nameLen == name.length &&
          slice x.data e.nameOffset name.length == name) = some e ∧
        gather e.valueOffset true xs e.valueLen = .ok value ∧ Found kvs name (some value) := by
  intro es
  induction es with
  | nil =>
    intro kvs h
    obtain rfl := Except.ok.inj h
    exact .inl ⟨rfl, rfl⟩
  | cons e es ih =>
    intro kvs h
    obtain ⟨value, rest, hValue, hRest, rfl⟩ := loadBlock_cons h
    unfold Found
    rw [List.find?_cons, List.find?_cons]
    by_cases hName : slice x.data e.nameOffset e.nameLen = name
    · rw [(matches_iff x e name).2 hName]
      right
      refine ⟨e, value, rfl, hValue, ?_⟩
      simp [hName]
    · have hNot : (e.nameLen == name.length &&
          slice x.data e.nameOffset name.length == name) = false := by
        rw [Bool.eq_false_iff]
        exact fun hMatch => hName ((matches_iff x e name).1 hMatch)
      have hOther : (slice x.data e.nameOffset e.nameLen == name) = false := by
        simpa using hName
      rw [hNot]
      simp only [hOther]
      exact ih hRest

theorem Found.append {kvs rest : List KV} {name : List UInt8} {value : Option (List UInt8)}
    (h : Found kvs name none) (hRest : Found rest name value) : Found (kvs ++ rest) name value := by
  unfold Found at h hRest ⊢
  rw [List.find?_append, h, hRest]
  rfl

theorem Found.append_some {kvs : List KV} {name value : List UInt8}
    (h : Found kvs name (some value)) (rest : List KV) : Found (kvs ++ rest) name (some value) := by
  unfold Found at h ⊢
  rw [List.find?_append, h]
  rfl

theorem loadEntries_cons {x : XBlock} {xs : List XBlock} {kvs : List KV} (hCont : x.cont = false)
    (h : loadEntries (x :: xs) = .ok kvs) :
    ∃ here more, loadBlock x (x :: xs) x.entries = .ok here ∧ loadEntries xs = .ok more ∧
      kvs = here ++ more := by
  unfold loadEntries at h
  rw [hCont, if_neg (by decide)] at h
  cases hBlock : loadBlock x (x :: xs) x.entries with
  | error err =>
    rw [hBlock] at h
    cases h
  | ok here =>
    rw [hBlock] at h
    dsimp only at h
    cases hRest : loadEntries xs with
    | error err =>
      rw [hRest] at h
      cases h
    | ok more =>
      rw [hRest] at h
      exact ⟨here, more, rfl, rfl, (Except.ok.inj h).symm⟩

/-- The search along a chain against the entries that are loaded from it. -/
theorem findIn_load (name : List UInt8) : ∀ {l : List (Nat × XBlock)} {kvs : List KV},
    loadEntries (l.map Prod.snd) = .ok kvs →
      (findIn name l = none ∧ Found kvs name none) ∨
      ∃ front n x rest e value, l = front ++ (n, x) :: rest ∧ findIn name l = some (n, e) ∧
        gather e.valueOffset true (x :: rest.map Prod.snd) e.valueLen = .ok value ∧
        Found kvs name (some value) := by
  intro l
  induction l with
  | nil =>
    intro kvs h
    obtain rfl := Except.ok.inj h
    exact .inl ⟨rfl, rfl⟩
  | cons entry rest ih =>
    obtain ⟨n, x⟩ := entry
    intro kvs h
    rw [List.map_cons] at h
    unfold findIn
    cases hCont : x.cont with
    | true =>
      unfold loadEntries at h
      rw [hCont, if_pos rfl] at h
      simp only [if_true]
      rcases ih h with hNone | ⟨front, m, y, post, e, value, hEq, hFind, hGather, hFound⟩
      · exact .inl hNone
      · exact .inr ⟨(n, x) :: front, m, y, post, e, value, by rw [hEq]; rfl, hFind, hGather, hFound⟩
    | false =>
      simp only [Bool.false_eq_true, if_false]
      obtain ⟨here, more, hBlock, hRest, rfl⟩ := loadEntries_cons hCont h
      rcases loadBlock_find name hBlock with ⟨hNone, hFound⟩ | hSome
      · have hFind : x.find name = none := hNone
        rw [hFind]
        dsimp only
        rcases ih hRest with ⟨hFind', hFound'⟩ | hLater
        · exact .inl ⟨hFind', hFound.append hFound'⟩
        · obtain ⟨front, m, y, post, e, value, hEq, hFind', hGather, hFound'⟩ := hLater
          exact .inr ⟨(n, x) :: front, m, y, post, e, value, by rw [hEq]; rfl, hFind', hGather,
            hFound.append hFound'⟩
      · obtain ⟨e, value, hFind, hGather, hFound⟩ := hSome
        have hFind' : x.find name = some e := hFind
        rw [hFind']
        exact .inr ⟨[], n, x, rest, e, value, rfl, rfl, hGather, hFound.append_some more⟩

theorem loadBlock_names {x : XBlock} {xs : List XBlock} : ∀ {es : List Entry} {kvs : List KV},
    loadBlock x xs es = .ok kvs →
      es.map (fun e => slice x.data e.nameOffset e.nameLen) = kvs.map KV.name := by
  intro es
  induction es with
  | nil =>
    intro kvs h
    obtain rfl := Except.ok.inj h
    rfl
  | cons e es ih =>
    intro kvs h
    obtain ⟨value, rest, hValue, hRest, rfl⟩ := loadBlock_cons h
    rw [List.map_cons, List.map_cons, ih hRest]

theorem names_load : ∀ {xs : List XBlock} {kvs : List KV}, loadEntries xs = .ok kvs →
    xs.flatMap XBlock.names = kvs.map KV.name := by
  intro xs
  induction xs with
  | nil =>
    intro kvs h
    obtain rfl := Except.ok.inj h
    rfl
  | cons x xs ih =>
    intro kvs h
    rw [List.flatMap_cons]
    unfold XBlock.names
    cases hCont : x.cont with
    | true =>
      unfold loadEntries at h
      rw [hCont, if_pos rfl] at h
      exact ih h
    | false =>
      obtain ⟨here, more, hBlock, hRest, rfl⟩ := loadEntries_cons hCont h
      rw [List.map_append, ← loadBlock_names hBlock]
      congr 1
      exact ih hRest

/-- Following a chain from one of its blocks. -/
theorem Chain.suffix {blocks : Nat → Option (XBlock × Nat)} : ∀ {front : List (Nat × XBlock)}
    {b n : Nat} {x : XBlock} {rest : List (Nat × XBlock)},
    Chain blocks b (front ++ (n, x) :: rest) → Chain blocks n ((n, x) :: rest) := by
  intro front
  induction front with
  | nil =>
    intro b n x rest h
    obtain ⟨rfl, hRest⟩ := h
    exact ⟨rfl, hRest⟩
  | cons e front ih =>
    intro b n x rest h
    obtain ⟨_, _, next, _, hRest⟩ := h
    exact ih hRest

--
-- Writing
--

theorem Chain.congr {blocks blocks' : Nat → Option (XBlock × Nat)} :
    ∀ {l : List (Nat × XBlock)} {b : Nat}, Chain blocks b l →
      (∀ e ∈ l, blocks' e.1 = blocks e.1) → Chain blocks' b l := by
  intro l
  induction l with
  | nil => exact fun h _ => h
  | cons e rest ih =>
    intro b h hSame
    obtain ⟨hHead, hNe, next, hBlock, hRest⟩ := h
    have hHere : blocks' e.1 = blocks e.1 := hSame e List.mem_cons_self
    have hThere : ∀ d ∈ rest, blocks' d.1 = blocks d.1 :=
      fun d hd => hSame d (List.mem_cons_of_mem e hd)
    exact ⟨hHead, hNe, next, hHere.trans hBlock, ih hRest hThere⟩

theorem writeChain_of_notMem {blocks : Nat → Option (XBlock × Nat)} {n : Nat} :
    ∀ {l : List (Nat × XBlock)}, (∀ e ∈ l, e.1 ≠ n) → writeChain blocks l n = blocks n := by
  intro l
  induction l with
  | nil => exact fun _ => rfl
  | cons e rest ih =>
    intro hNot
    have hHere : n ≠ e.1 := fun hEq => hNot e List.mem_cons_self hEq.symm
    show Function.update (writeChain blocks rest) e.1 _ n = blocks n
    rw [Function.update_of_ne hHere]
    exact ih fun d hd => hNot d (List.mem_cons_of_mem e hd)

/-- What was written is found along the links. -/
theorem writeChain_chain (blocks : Nat → Option (XBlock × Nat)) :
    ∀ {l : List (Nat × XBlock)}, (l.map Prod.fst).Nodup → (∀ e ∈ l, e.1 ≠ 0) →
      Chain (writeChain blocks l) ((l.map Prod.fst).headD 0) l := by
  intro l
  induction l with
  | nil => exact fun _ _ => rfl
  | cons e rest ih =>
    intro hNodup hNe
    rw [List.map_cons, List.nodup_cons] at hNodup
    have hRest := ih hNodup.2 fun d hd => hNe d (List.mem_cons_of_mem e hd)
    refine ⟨rfl, hNe e List.mem_cons_self, (rest.map Prod.fst).headD 0, ?_, ?_⟩
    · show Function.update (writeChain blocks rest) e.1 _ e.1 = _
      rw [Function.update_self]
    · apply hRest.congr
      intro d hd
      have hOther : d.1 ≠ e.1 := fun hEq => hNodup.1 (hEq ▸ List.mem_map_of_mem hd)
      show Function.update (writeChain blocks rest) e.1 _ d.1 = _
      rw [Function.update_of_ne hOther]

/-- What allocating the blocks of a chain does. -/
structure Grabbed (a : Alloc) (r : List Nat × Alloc) : Prop where
  nodup   : r.1.Nodup
  pos     : ∀ n ∈ r.1, n ≠ 0
  wasFree : ∀ n ∈ r.1, a.isFree n = true
  taken   : ∀ n ∈ r.1, r.2.isFree n = false
  kept    : ∀ n, n ≠ 0 → a.isFree n = false → r.2.isFree n = false

theorem Grabbed.nothing {a a' : Alloc}
    (hKept : ∀ n, n ≠ 0 → a.isFree n = false → a'.isFree n = false) : Grabbed a ([], a') where
  nodup   := List.nodup_nil
  pos     := nofun
  wasFree := nofun
  taken   := nofun
  kept    := hKept

theorem allocChain_grabbed : ∀ (k : Nat) (a : Alloc), Grabbed a (allocChain a k) := by
  intro k
  induction k with
  | zero => exact fun a => Grabbed.nothing fun _ _ hTaken => hTaken
  | succ k ih =>
    intro a
    have hTook := Alloc.allocBlock_spec a
    have hKept : ∀ n, n ≠ 0 → a.isFree n = false → a.allocBlock.2.isFree n = false := by
      intro n hn hTaken
      rw [hTook.frame n hn, hTaken]
      rfl
    unfold allocChain
    dsimp only
    by_cases hZero : a.allocBlock.1 = 0
    · rw [if_pos hZero]
      exact Grabbed.nothing hKept
    · rw [if_neg hZero]
      have hMore := ih a.allocBlock.2
      have hHere : a.allocBlock.2.isFree a.allocBlock.1 = false := by
        rw [hTook.frame _ hZero]
        simp
      have hLater : ∀ n ∈ (allocChain a.allocBlock.2 k).1, a.isFree n = true := by
        intro n hn
        by_contra hTaken
        have hStill := hKept n (hMore.pos n hn) (by simpa using hTaken)
        rw [hMore.wasFree n hn] at hStill
        cases hStill
      constructor
      case nodup =>
        refine List.nodup_cons.2 ⟨fun hMem => ?_, hMore.nodup⟩
        have hFree := hMore.wasFree _ hMem
        rw [hHere] at hFree
        cases hFree
      case pos => exact List.forall_mem_cons.2 ⟨hZero, hMore.pos⟩
      case wasFree => exact List.forall_mem_cons.2 ⟨hTook.wasFree hZero, hLater⟩
      case taken => exact List.forall_mem_cons.2 ⟨hMore.kept _ hZero hHere, hMore.taken⟩
      case kept => exact fun n hn hTaken => hMore.kept n hn (hKept n hn hTaken)

theorem length_allocChain_le : ∀ (k : Nat) (a : Alloc), (allocChain a k).1.length ≤ k := by
  intro k
  induction k with
  | zero => exact fun _ => Nat.le_refl 0
  | succ k ih =>
    intro a
    unfold allocChain
    dsimp only
    split
    · exact Nat.zero_le _
    · exact Nat.succ_le_succ (ih a.allocBlock.2)

/-- Freeing a chain frees the blocks of the chain only. -/
theorem freeChain_keeps {blocks : Nat → Option (XBlock × Nat)} {dataStart n : Nat} :
    ∀ {l : List (Nat × XBlock)} {fuel b : Nat} {a : Alloc}, Chain blocks b l →
      (∀ e ∈ l, n ≠ e.1 - dataStart) → a.isFree n = false →
      (freeChain blocks dataStart fuel b a).isFree n = false := by
  intro l
  induction l with
  | nil =>
    intro fuel b a h _ hTaken
    obtain rfl : b = 0 := h
    cases fuel with
    | zero => exact hTaken
    | succ fuel =>
      unfold freeChain
      rw [if_pos rfl]
      exact hTaken
  | cons e rest ih =>
    intro fuel b a h hNot hTaken
    obtain ⟨rfl, hNe, next, hBlock, hRest⟩ := h
    cases fuel with
    | zero => exact hTaken
    | succ fuel =>
      unfold freeChain
      rw [if_neg hNe, hBlock]
      have hHere := hNot e List.mem_cons_self
      apply ih hRest fun d hd => hNot d (List.mem_cons_of_mem e hd)
      rw [Alloc.isFree_freeBlock, hTaken]
      simp [hHere]

--
-- The chain of an inode
--

/-- The inode's chain is `l`, and its blocks are its own. -/
structure Stored (s : Store) (l : List (Nat × XBlock)) : Prop where
  chain : Chain s.blocks s.head l
  short : l.length ≤ maxChain
  above : ∀ e ∈ l, s.dataStart < e.1
  taken : ∀ e ∈ l, s.alloc.isFree (e.1 - s.dataStart) = false

section Stored

variable {s : Store} {l : List (Nat × XBlock)} {kvs : List KV}

theorem Stored.load (h : Stored s l) : s.load = loadEntries (l.map Prod.snd) := by
  have hEnd := h.chain.eq_zero_iff
  unfold Store.load
  by_cases hHead : s.head = 0
  · rw [if_pos hHead, hEnd.1 hHead]
    rfl
  · rw [if_neg hHead, loadChain_chain h.chain (fun hNil => hHead (hEnd.2 hNil)) h.short]

/-- What a reader of a value gets: the length without a buffer, the bytes with a buffer that
is large enough. -/
def getReply (size : Option Nat) : Option (List UInt8) → Except Errno (Nat × List UInt8)
  | none => .error .enodata
  | some value =>
    match size with
    | none => .ok (value.length, [])
    | some size => if size < value.length then .error .erange else .ok (value.length, value)

/-- `briefs_xattr_get` reads the entry that loading gives for the name. -/
theorem Stored.get (h : Stored s l) (hLoad : loadEntries (l.map Prod.snd) = .ok kvs)
    {name : List UInt8} (hName : name.length ≤ nameMax) (size : Option Nat) :
    ∃ value, Found kvs name value ∧ s.get name size = getReply size value := by
  have hEnd := h.chain.eq_zero_iff
  unfold Store.get
  rw [if_neg (by omega)]
  by_cases hHead : s.head = 0
  · rw [if_pos hHead]
    rw [hEnd.1 hHead] at hLoad
    obtain rfl := Except.ok.inj hLoad
    exact ⟨none, rfl, rfl⟩
  rw [if_neg hHead, findEntry_chain name h.chain (fun hNil => hHead (hEnd.2 hNil)) h.short]
  rcases findIn_load name hLoad with ⟨hNone, hFound⟩ | hSome
  · rw [hNone]
    exact ⟨none, hFound, rfl⟩
  · obtain ⟨front, n, x, rest, e, value, hEq, hFind, hGather, hFound⟩ := hSome
    refine ⟨some value, hFound, ?_⟩
    have hLen := length_gather hGather
    have hFrom : Chain s.blocks n ((n, x) :: rest) := (hEq ▸ h.chain).suffix
    have hCopy : copyValue s.blocks e.valueOffset (e.valueLen + 2) true n e.valueLen = .ok value :=
      copyValue_chain hFrom hGather (by simp)
    rw [hFind]
    unfold getReply
    cases size with
    | none =>
      dsimp only
      rw [hLen]
    | some size =>
      dsimp only
      rw [hCopy, hLen]

theorem Stored.list (h : Stored s l) (hLoad : loadEntries (l.map Prod.snd) = .ok kvs) :
    s.list = .ok (kvs.map KV.name) := by
  have hEnd := h.chain.eq_zero_iff
  have hNames := names_load hLoad
  unfold Store.list
  by_cases hHead : s.head = 0
  · rw [hEnd.1 hHead] at hNames
    rw [if_pos hHead, ← hNames]
    rfl
  · rw [if_neg hHead, namesFrom_chain h.chain (fun hNil => hHead (hEnd.2 hNil)) h.short, ← hNames,
      List.flatMap_map]

/-- A chain that is given up leaves an inode without one. -/
theorem stored_nil (s : Store) (a : Alloc) : Stored { s with head := 0, alloc := a } [] where
  chain := rfl
  short := Nat.zero_le _
  above := nofun
  taken := nofun

/-- A chain in fresh blocks is the inode's chain once the old one is freed. -/
theorem Stored.publish (h : Stored s l) {rels : List Nat} {a : Alloc} {xs : List XBlock}
    (hGrab : Grabbed s.alloc (rels, a)) (hLen : rels.length = xs.length)
    (hShort : xs.length ≤ maxChain) :
    let l' := (rels.map fun rel => s.dataStart + rel).zip xs
    let blocks := writeChain s.blocks l'
    Stored { s with
      blocks := blocks
      head   := (rels.map fun rel => s.dataStart + rel).headD 0
      alloc  := freeChain blocks s.dataStart maxChain s.head a } l' := by
  intro l' blocks
  have hFst : l'.map Prod.fst = rels.map fun rel => s.dataStart + rel :=
    List.map_fst_zip (by simp [hLen])
  have hRel : ∀ e ∈ l', ∃ rel ∈ rels, e.1 = s.dataStart + rel := by
    intro e he
    have hMem : e.1 ∈ l'.map Prod.fst := List.mem_map_of_mem he
    rw [hFst] at hMem
    obtain ⟨rel, hIn, hEq⟩ := List.mem_map.1 hMem
    exact ⟨rel, hIn, hEq.symm⟩
  -- A block of the old chain is taken, so that it is none of the new blocks.
  have hApart : ∀ e ∈ l, ∀ rel ∈ rels, e.1 ≠ s.dataStart + rel := by
    intro e he rel hIn hEq
    have hTaken := h.taken e he
    rw [hEq, Nat.add_sub_cancel_left, hGrab.wasFree rel hIn] at hTaken
    cases hTaken
  have hOld : Chain blocks s.head l := by
    apply h.chain.congr
    intro e he
    apply writeChain_of_notMem
    intro d hd hEq
    obtain ⟨rel, hIn, hd'⟩ := hRel d hd
    exact hApart e he rel hIn (hEq ▸ hd')
  constructor
  case chain =>
    have hNodup : (l'.map Prod.fst).Nodup := by
      rw [hFst]
      exact hGrab.nodup.map fun x y hEq => Nat.add_left_cancel hEq
    have hNe : ∀ e ∈ l', e.1 ≠ 0 := by
      intro e he
      obtain ⟨rel, hIn, hEq⟩ := hRel e he
      have hPos := hGrab.pos rel hIn
      omega
    have hChain := writeChain_chain s.blocks hNodup hNe
    rw [hFst] at hChain
    exact hChain
  case short =>
    rw [List.length_zip, List.length_map]
    omega
  case above =>
    intro e he
    obtain ⟨rel, hIn, hEq⟩ := hRel e he
    have hPos := hGrab.pos rel hIn
    show s.dataStart < e.1
    omega
  case taken =>
    intro e he
    obtain ⟨rel, hIn, hEq⟩ := hRel e he
    show (freeChain blocks s.dataStart maxChain s.head a).isFree (e.1 - s.dataStart) = false
    rw [hEq, Nat.add_sub_cancel_left]
    apply freeChain_keeps hOld _ (hGrab.taken rel hIn)
    intro d hd hSame
    have hAbove := h.above d hd
    exact hApart d hd rel hIn (by omega)

/-- A new chain replaces the old one, or space is short. -/
theorem Stored.rewrite (h : Stored s l) (kvs : List KV) :
    (s.rewrite kvs).1 = some .enospc ∨
      ((s.rewrite kvs).1 = none ∧
        ∃ l', Stored (s.rewrite kvs).2 l' ∧ l'.map Prod.snd = chainBlocks kvs) := by
  have hGrab := allocChain_grabbed (chainBlocks kvs).length s.alloc
  have hMost := length_allocChain_le (chainBlocks kvs).length s.alloc
  unfold Store.rewrite
  dsimp only
  by_cases hLong : maxChain < (chainBlocks kvs).length
  · rw [if_pos hLong]
    exact .inl rfl
  rw [if_neg hLong]
  generalize allocChain s.alloc (chainBlocks kvs).length = r at hGrab hMost ⊢
  obtain ⟨rels, a⟩ := r
  dsimp only at hMost ⊢
  by_cases hFew : rels.length < (chainBlocks kvs).length
  · rw [if_pos hFew]
    exact .inl rfl
  rw [if_neg hFew]
  have hLen : rels.length = (chainBlocks kvs).length := by omega
  have hSnd : ((rels.map fun rel => s.dataStart + rel).zip (chainBlocks kvs)).map Prod.snd =
      chainBlocks kvs := List.map_snd_zip (by simp [hLen])
  exact .inr ⟨rfl, _, h.publish hGrab hLen (by omega), hSnd⟩

end Stored

end Briefs.Xattr
