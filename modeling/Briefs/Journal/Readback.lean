import Briefs.Journal.Write
import Briefs.Replay.Walk

/-!
# BrieFS — the journal is read back as it was written

The write cursor and the cursor of the walk go around the ring in the same steps, and a
block that the walk reads is one that was written whole. `Laid` says that a block holds a
list of records back to back, and `Logged` that the blocks from `journal_log_start` up to
the write position and the current block hold a list of records together.

## Results

* `Journal.writeRecord_logged` — an append adds one record, in at most one further block.
* `Logged.reads` — a walk over the window passes the records on in order.
* `log_reads_back` — what is logged and synced is read back, and nothing is refused.
-/

namespace Briefs.Journal

open Briefs.Replay

--
-- Bytes
--

theorem le32_of_bytes {b : Block} {off v : Nat} (hv : v < 2 ^ 32) (h₀ : b off = UInt8.ofNat v)
    (h₁ : b (off + 1) = UInt8.ofNat (v / 256)) (h₂ : b (off + 2) = UInt8.ofNat (v / 65536))
    (h₃ : b (off + 3) = UInt8.ofNat (v / 16777216)) : le32 b off = v := by
  unfold le32
  rw [h₀, h₁, h₂, h₃]
  simp only [UInt8.toNat_ofNat']
  omega

theorem le32_congr {b b' : Block} {off : Nat}
    (h : ∀ i, off ≤ i → i < off + 4 → b' i = b i) : le32 b' off = le32 b off := by
  unfold le32
  rw [h off (by omega) (by omega), h (off + 1) (by omega) (by omega),
    h (off + 2) (by omega) (by omega), h (off + 3) (by omega) (by omega)]

theorem slice_congr {b b' : Block} {off len : Nat}
    (h : ∀ i, off ≤ i → i < off + len → b' i = b i) : slice b' off len = slice b off len := by
  unfold slice
  refine List.map_congr_left ?_
  intro k hk
  have hLt := List.mem_range.1 hk
  exact h (off + k) (by omega) (by omega)

/-- A record is decoded from its own bytes only. -/
theorem decodeRecord_congr {b b' : Block} {off : Nat}
    (h : ∀ i, off ≤ i → i < off + recordHeaderSize + le32 b (off + 8) → b' i = b i) :
    decodeRecord b' off = decodeRecord b off ∧ le32 b' (off + 8) = le32 b (off + 8) := by
  have hHeader : ∀ k, k + 4 ≤ 16 → le32 b' (off + k) = le32 b (off + k) := by
    intro k hk
    refine le32_congr fun i hLow hHigh => h i (by omega) ?_
    unfold recordHeaderSize
    omega
  have hLen := hHeader 8 (by omega)
  refine ⟨?_, hLen⟩
  have hData : slice b' (off + recordHeaderSize) (le32 b (off + 8)) =
      slice b (off + recordHeaderSize) (le32 b (off + 8)) := by
    refine slice_congr fun i hLow hHigh => h i ?_ hHigh
    omega
  have hType : le32 b' off = le32 b off := hHeader 0 (by omega)
  unfold decodeRecord
  dsimp only
  rw [hType, hHeader 4 (by omega), hLen, hHeader 12 (by omega), hData]

--
-- One record
--

/-- What the logging functions see to. -/
structure Record.Fits (rec : Record) : Prop where
  type  : jrnNone < rec.recType ∧ rec.recType < jrnEnd
  plain : rec.recType ≠ jrnCheckpoint
  some  : 0 < rec.data.length
  block : rec.data.length ≤ journalBlockSize - blockHeaderSize - recordHeaderSize

theorem length_padTo {n : Nat} {bytes : List UInt8} (h : bytes.length ≤ n) :
    (padTo n bytes).length = n := by
  unfold padTo
  rw [List.length_append, List.length_replicate]
  omega

@[simp] theorem length_bytesOfLe32 (v : Nat) : (bytesOfLe32 v).length = 4 := rfl

@[simp] theorem length_bytesOfLe64 (v : Nat) : (bytesOfLe64 v).length = 8 := rfl

/-- A record of fixed size. -/
theorem Record.fits_padTo {t n : Nat} {bytes : List UInt8} (hType : jrnNone < t ∧ t < jrnEnd)
    (hPlain : t ≠ jrnCheckpoint) (hLen : bytes.length ≤ n)
    (hSize : 0 < n ∧ n ≤ journalBlockSize - blockHeaderSize - recordHeaderSize) :
    Record.Fits ⟨t, padTo n bytes⟩ := by
  refine ⟨hType, hPlain, ?_, ?_⟩
  · show 0 < (padTo n bytes).length
    rw [length_padTo hLen]
    exact hSize.1
  · show (padTo n bytes).length ≤ _
    rw [length_padTo hLen]
    exact hSize.2

theorem Call.record_fits {c : Call} (h : c.Allowed) : c.record.Fits := by
  cases c with
  | extentAlloc | extentFree | inodeUpdate | inodeAlloc | inodeFree | trieAlloc | trieFree =>
    exact Record.fits_padTo (by decide) (by decide) (by simp) (by decide)
  | dirUpdate parentIno childIno name op ftype =>
    obtain ⟨_, hName⟩ := h
    refine Record.fits_padTo (by decide) (by decide) ?_ (by decide)
    have hPad : (padTo 255 name).length = 255 := length_padTo hName
    simp [hPad]
  | inodeFull ino snapshot =>
    have hLen : snapshot.length = 512 := h
    refine Record.fits_padTo (by decide) (by decide) ?_ (by decide)
    simp [hLen]
  | symlinkData ino phys target past =>
    obtain ⟨_, hTarget⟩ := h
    have hLen : (Call.symlinkData ino phys target past).record.data.length =
        target.length + 24 := by
      simp [Call.record]
      omega
    have hMax : nameLen * 10 = 2550 := rfl
    have hRoom : journalBlockSize - blockHeaderSize - recordHeaderSize = 4064 := rfl
    exact ⟨show jrnNone < 10 ∧ 10 < jrnEnd by decide, show 10 ≠ jrnCheckpoint by decide,
      by omega, by omega⟩
  | xattrData ino physBlock data =>
    obtain ⟨_, hData⟩ := h
    have hLen : (Call.xattrData ino physBlock data).record.data.length = data.length + 20 := by
      simp [Call.record]
      omega
    have hMax : xattrMaxUsed = 4044 := rfl
    have hRoom : journalBlockSize - blockHeaderSize - recordHeaderSize = 4064 := rfl
    exact ⟨show jrnNone < 11 ∧ 11 < jrnEnd by decide, show 11 ≠ jrnCheckpoint by decide,
      by omega, by omega⟩

theorem Record.length_bytes (rec : Record) :
    rec.bytes.length = recordHeaderSize + rec.data.length := by
  unfold Record.bytes bytesOfLe32 recordHeaderSize
  simp
  omega

theorem Record.bytes_getD_data (rec : Record) (k : Nat) :
    rec.bytes.getD (recordHeaderSize + k) 0 = rec.data.getD k 0 := by
  have hHeader : (bytesOfLe32 rec.recType ++ bytesOfLe32 0 ++ bytesOfLe32 rec.data.length ++
      bytesOfLe32 (computeRecordChecksum rec.recType 0 rec.data.length rec.data).toNat).length =
      recordHeaderSize := rfl
  unfold Record.bytes
  rw [List.getD_eq_getElem?_getD, List.getElem?_append_right (by omega), hHeader,
    Nat.add_sub_cancel_left, List.getD_eq_getElem?_getD]

/-- The record that was stored is decoded. -/
theorem decodeRecord_store {rec : Record} (h : rec.Fits) (b : Block) {off : Nat}
    (hRoom : off + recordHeaderSize + rec.data.length ≤ journalBlockSize) :
    decodeRecord (b.store off rec.bytes) off = .ok rec ∧
      le32 (b.store off rec.bytes) (off + 8) = rec.data.length := by
  have hTotal := rec.length_bytes
  have hSize : recordHeaderSize = 16 := rfl
  have hBlock : journalBlockSize = 4096 := rfl
  have hEnd : jrnEnd = 12 := rfl
  obtain ⟨hLow, hHigh⟩ := h.type
  have hAt : ∀ k, k < 16 → b.store off rec.bytes (off + k) = rec.bytes.getD k 0 :=
    fun k hk => store_inside b (by omega)
  have hType : le32 (b.store off rec.bytes) off = rec.recType :=
    le32_of_bytes (by omega) (hAt 0 (by omega)) (hAt 1 (by omega)) (hAt 2 (by omega))
      (hAt 3 (by omega))
  have hFlags : le32 (b.store off rec.bytes) (off + 4) = 0 :=
    le32_of_bytes (by omega) (hAt 4 (by omega)) (hAt 5 (by omega)) (hAt 6 (by omega))
      (hAt 7 (by omega))
  have hLen : le32 (b.store off rec.bytes) (off + 8) = rec.data.length :=
    le32_of_bytes (by omega) (hAt 8 (by omega)) (hAt 9 (by omega)) (hAt 10 (by omega))
      (hAt 11 (by omega))
  have hCrc : le32 (b.store off rec.bytes) (off + 12) =
      (computeRecordChecksum rec.recType 0 rec.data.length rec.data).toNat :=
    le32_of_bytes (BitVec.isLt _) (hAt 12 (by omega)) (hAt 13 (by omega)) (hAt 14 (by omega))
      (hAt 15 (by omega))
  have hData : slice (b.store off rec.bytes) (off + recordHeaderSize) rec.data.length = rec.data := by
    refine List.ext_getElem (by simp [slice]) ?_
    intro k hk hk'
    have hByte : b.store off rec.bytes (off + recordHeaderSize + k) = rec.data.getD k 0 := by
      rw [Nat.add_assoc, store_inside b (by omega), rec.bytes_getD_data]
    simp only [slice, List.getElem_map, List.getElem_range, hByte]
    simp [hk']
  refine ⟨?_, hLen⟩
  have hValid : ¬ (decide (rec.recType ≤ jrnNone) || decide (jrnEnd ≤ rec.recType)) = true := by
    simp only [Bool.or_eq_true, decide_eq_true_eq]
    omega
  unfold decodeRecord
  dsimp only
  rw [hType, hFlags, hLen, hCrc, hData, if_neg hValid, if_neg (by omega)]
  have hSum : ¬ ((computeRecordChecksum rec.recType 0 rec.data.length rec.data).toNat ≠ 0 ∧
      computeRecordChecksum rec.recType 0 rec.data.length rec.data ≠
        ((computeRecordChecksum rec.recType 0 rec.data.length rec.data).toNat : BitVec 32)) := by
    rintro ⟨_, hNe⟩
    exact hNe (by simp)
  rw [if_neg hSum]

--
-- The records of a block
--

/-- The records lie in the block back to back, from `off` to `stop`. -/
def Laid (b : Block) : Nat → List Record → Nat → Prop
  | off, [], stop => off = stop
  | off, rec :: recs, stop =>
    (decodeRecord b off = .ok rec ∧ le32 b (off + 8) = rec.data.length) ∧
      rec.recType ≠ jrnCheckpoint ∧
      off + recordHeaderSize + rec.data.length ≤ journalBlockSize ∧
      Laid b (off + recordHeaderSize + rec.data.length) recs stop

theorem Laid.le {b : Block} : ∀ {recs : List Record} {off stop : Nat}, Laid b off recs stop →
    off + recordHeaderSize * recs.length ≤ stop
  | [], off, stop, h => by
    have hEq : off = stop := h
    simp [hEq]
  | rec :: recs, off, stop, h => by
    have hRest := Laid.le h.2.2.2
    rw [List.length_cons, Nat.mul_succ]
    omega

theorem Laid.congr {b b' : Block} : ∀ {recs : List Record} {off stop : Nat}, Laid b off recs stop →
    (∀ i, off ≤ i → i < stop → b' i = b i) → Laid b' off recs stop
  | [], _, _, h, _ => h
  | rec :: recs, off, stop, h, hSame => by
    obtain ⟨⟨hDecode, hLen⟩, hPlain, hRoom, hRest⟩ := h
    have hBefore := hRest.le
    have hBytes : decodeRecord b' off = decodeRecord b off ∧
        le32 b' (off + 8) = le32 b (off + 8) :=
      decodeRecord_congr fun i hLow hHigh => hSame i hLow (by omega)
    refine ⟨⟨hBytes.1.trans hDecode, hBytes.2.trans hLen⟩, hPlain, hRoom, ?_⟩
    exact hRest.congr fun i hLow hHigh => hSame i (by omega) hHigh

theorem Laid.concat {b : Block} {rec : Record} : ∀ {recs : List Record} {off stop : Nat},
    Laid b off recs stop → Laid b stop [rec] (stop + recordHeaderSize + rec.data.length) →
      Laid b off (recs ++ [rec]) (stop + recordHeaderSize + rec.data.length)
  | [], off, stop, h, hNew => by
    obtain rfl : off = stop := h
    exact hNew
  | _ :: _, _, _, h, hNew => ⟨h.1, h.2.1, h.2.2.1, h.2.2.2.concat hNew⟩

/-- A block with a valid header whose records end at `stop`. -/
structure HoldsRecords (b : Block) (recs : List Record) (stop : Nat) : Prop where
  magic : blockMagic b = journalMagic
  count : recordCount b = recs.length
  laid  : Laid b blockHeaderSize recs stop
  room  : stop ≤ journalBlockSize

theorem HoldsRecords.congr {b b' : Block} {recs : List Record} {stop : Nat}
    (h : HoldsRecords b recs stop) (hSame : ∀ i < journalBlockSize, b' i = b i) :
    HoldsRecords b' recs stop := by
  have hSize : journalBlockSize = 4096 := rfl
  have hRoom := h.room
  refine ⟨?_, ?_, ?_, hRoom⟩
  · rw [← h.magic]
    exact le32_congr fun i _ hHigh => hSame i (by omega)
  · rw [← h.count]
    exact le32_congr fun i _ hHigh => hSame i (by omega)
  · exact h.laid.congr fun i _ hHigh => hSame i (by omega)

theorem holdsRecords_reset (b : Block) : HoldsRecords b.reset [] blockHeaderSize := by
  have hZero : ∀ i, 8 ≤ i → i < 16 → b.reset i = 0 := by
    intro i hLow hHigh
    unfold Block.reset
    rw [store_outside _ (by simp; omega), store_outside _ (by simp; omega)]
    exact if_pos (by unfold journalBlockSize; omega)
  have hMagic : ∀ k, k < 4 → b.reset (0 + k) = (bytesOfLe32 journalMagic).getD k 0 := by
    intro k hk
    unfold Block.reset
    rw [store_outside _ (by omega)]
    exact store_inside _ hk
  refine ⟨?_, ?_, rfl, by decide⟩
  · exact le32_of_bytes (by decide) (hMagic 0 (by omega)) (hMagic 1 (by omega))
      (hMagic 2 (by omega)) (hMagic 3 (by omega))
  · show le32 b.reset 8 = 0
    exact le32_of_bytes (by decide) (hZero 8 (by omega) (by omega)) (hZero 9 (by omega) (by omega))
      (hZero 10 (by omega) (by omega)) (hZero 11 (by omega) (by omega))

/-- The block after a record is put in. -/
theorem HoldsRecords.put {b : Block} {recs : List Record} {off : Nat} {rec : Record}
    (h : HoldsRecords b recs off) (hFits : rec.Fits)
    (hRoom : off + (recordHeaderSize + rec.data.length) ≤ journalBlockSize) :
    HoldsRecords ((b.store off rec.bytes).store 8
        (bytesOfLe32 (recordCount (b.store off rec.bytes) + 1))) (recs ++ [rec])
      (off + (recordHeaderSize + rec.data.length)) := by
  have hSize : journalBlockSize = 4096 := rfl
  have hHeader : blockHeaderSize = 16 := rfl
  have hRecSize : recordHeaderSize = 16 := rfl
  have hBefore := h.laid.le
  rw [hRecSize] at hBefore
  generalize hOne : b.store off rec.bytes = b₁
  have hLow : ∀ i < off, b₁ i = b i := by
    intro i hi
    rw [← hOne]
    exact store_outside b (.inl hi)
  have hCount : recordCount b₁ = recs.length := by
    rw [← h.count]
    exact le32_congr fun i _ hHigh => hLow i (by omega)
  generalize hTwo : b₁.store 8 (bytesOfLe32 (recordCount b₁ + 1)) = b₂
  have hKept : ∀ i, 12 ≤ i → b₂ i = b₁ i := by
    intro i hi
    rw [← hTwo]
    exact store_outside b₁ (.inr (by simpa using hi))
  have hLaid : Laid b₁ off [rec] (off + recordHeaderSize + rec.data.length) := by
    rw [← hOne]
    exact ⟨decodeRecord_store hFits b (by omega), hFits.plain, by omega, rfl⟩
  refine ⟨?_, ?_, ?_, by omega⟩
  · rw [← h.magic]
    refine le32_congr fun i _ hHigh => ?_
    rw [← hTwo, store_outside b₁ (.inl (by omega))]
    exact hLow i (by omega)
  · rw [List.length_append, List.length_singleton, ← hCount, ← hTwo]
    have hAt : ∀ k, k < 4 → b₁.store 8 (bytesOfLe32 (recordCount b₁ + 1)) (8 + k) =
        (bytesOfLe32 (recordCount b₁ + 1)).getD k 0 := fun k hk => store_inside b₁ hk
    exact le32_of_bytes (by omega) (hAt 0 (by omega)) (hAt 1 (by omega)) (hAt 2 (by omega))
      (hAt 3 (by omega))
  · rw [← Nat.add_assoc]
    have hOld : Laid b₁ blockHeaderSize recs off :=
      h.laid.congr fun i _ hHigh => hLow i hHigh
    exact (hOld.concat hLaid).congr fun i hFrom _ => hKept i (by omega)

--
-- The ring
--

/-- A block that records go to. -/
structure Ring.Data (r : Ring) (pos : Nat) : Prop where
  mem : r.Mem pos
  log : pos ≠ r.checkpointBlock

theorem Ring.Data.bounds {r : Ring} {pos : Nat} (h : r.Data pos) :
    r.journalStart ≤ pos ∧ pos + 1 < r.journalStart + r.journalBlocks := by
  obtain ⟨⟨hLow, hHigh⟩, hLog⟩ := h
  unfold Ring.journalEnd at hHigh
  unfold Ring.checkpointBlock at hLog
  exact ⟨hLow, by omega⟩

/-- The last block before the checkpoint block is followed by the first one. -/
theorem Ring.Data.advance_eq {r : Ring} {pos : Nat} (h : r.Data pos) :
    r.advance pos =
      if pos + 2 = r.journalStart + r.journalBlocks then r.journalStart else pos + 1 := by
  obtain ⟨hLow, hHigh⟩ := h.bounds
  have hMin := r.hMin
  unfold minJournalBlocks at hMin
  have hNext : r.nextBlock pos = pos + 1 := by
    unfold Ring.nextBlock Ring.journalEnd
    exact if_neg (by omega)
  unfold Ring.advance
  rw [hNext]
  unfold Ring.checkpointBlock
  by_cases hLast : pos + 2 = r.journalStart + r.journalBlocks
  · rw [if_pos (by omega), if_pos hLast]
    unfold Ring.nextBlock Ring.journalEnd
    exact if_pos (by omega)
  · rw [if_neg (by omega), if_neg hLast]

theorem Ring.Data.advance {r : Ring} {pos : Nat} (h : r.Data pos) : r.Data (r.advance pos) := by
  obtain ⟨hLow, hHigh⟩ := h.bounds
  have hMin := r.hMin
  unfold minJournalBlocks at hMin
  rw [h.advance_eq]
  by_cases hLast : pos + 2 = r.journalStart + r.journalBlocks
  · rw [if_pos hLast]
    refine ⟨⟨Nat.le_refl _, ?_⟩, ?_⟩
    · unfold Ring.journalEnd
      omega
    · unfold Ring.checkpointBlock
      omega
  · rw [if_neg hLast]
    refine ⟨⟨by omega, ?_⟩, ?_⟩
    · unfold Ring.journalEnd
      omega
    · unfold Ring.checkpointBlock
      omega

theorem Ring.advance_inj {r : Ring} {pos pos' : Nat} (h : r.Data pos) (h' : r.Data pos')
    (hEq : r.advance pos = r.advance pos') : pos = pos' := by
  have hBounds := h.bounds
  have hBounds' := h'.bounds
  rw [h.advance_eq, h'.advance_eq] at hEq
  split_ifs at hEq <;> omega

/-- The `n`th block after `pos`. -/
def Ring.nth (r : Ring) (pos n : Nat) : Nat := r.advance^[n] pos

theorem Ring.nth_succ (r : Ring) (pos n : Nat) : r.nth pos (n + 1) = r.advance (r.nth pos n) :=
  Function.iterate_succ_apply' _ _ _

theorem Ring.Data.nth {r : Ring} {pos : Nat} (h : r.Data pos) (n : Nat) : r.Data (r.nth pos n) := by
  induction n with
  | zero => exact h
  | succ n ih =>
    rw [r.nth_succ]
    exact ih.advance

/-- As long as the ring is not full, all blocks written are different. -/
theorem Ring.nth_ne {r : Ring} {pos n : Nat} (h : r.Data pos)
    (hOpen : ∀ k, 0 < k → k ≤ n → r.nth pos k ≠ pos) : ∀ {i m : Nat}, i < m → m ≤ n →
      r.nth pos i ≠ r.nth pos m := by
  intro i
  induction i with
  | zero =>
    intro m hm hn hEq
    exact hOpen m hm hn hEq.symm
  | succ i ih =>
    intro m hm hn hEq
    obtain ⟨m, rfl⟩ : ∃ k, m = k + 1 := ⟨m - 1, by omega⟩
    rw [r.nth_succ, r.nth_succ] at hEq
    exact ih (by omega) (by omega) (Ring.advance_inj (h.nth i) (h.nth m) hEq)

--
-- The blocks of the window
--

/-- The blocks from `first` up to `last` hold the records, and the ring is not full. -/
def Written (r : Ring) (disk : Nat → Block) (first last : Nat) (recs : List Record) : Prop :=
  ∃ (n : Nat) (content : Nat → List Record), last = r.nth first n ∧
    (∀ k, 0 < k → k ≤ n → r.nth first k ≠ first) ∧
    (∀ k < n, ∃ stop, HoldsRecords (disk (r.nth first k)) (content k) stop) ∧
    recs = (List.range n).flatMap content

theorem written_nil (r : Ring) (disk : Nat → Block) (first : Nat) :
    Written r disk first first [] :=
  ⟨0, fun _ => [], rfl, fun k hPos hZero => absurd hPos (by omega),
    fun k hk => absurd hk (Nat.not_lt_zero k), rfl⟩

/-- One more block is written, at `last`. -/
theorem Written.push {r : Ring} {disk disk' : Nat → Block} {first last stop : Nat}
    {recs new : List Record} (h : Written r disk first last recs) (hData : r.Data first)
    (hNew : HoldsRecords (disk' last) new stop) (hSame : ∀ pos, pos ≠ last → disk' pos = disk pos)
    (hRoom : r.advance last ≠ first) : Written r disk' first (r.advance last) (recs ++ new) := by
  obtain ⟨n, content, hLast, hOpen, hHolds, hRecs⟩ := h
  have hOpen' : ∀ k, 0 < k → k ≤ n + 1 → r.nth first k ≠ first := by
    intro k hPos hLe
    by_cases hk : k = n + 1
    · rw [hk, r.nth_succ, ← hLast]
      exact hRoom
    · exact hOpen k hPos (by omega)
  refine ⟨n + 1, Function.update content n new, ?_, hOpen', ?_, ?_⟩
  · rw [r.nth_succ, ← hLast]
  · intro k hk
    by_cases hEq : k = n
    · subst hEq
      rw [← hLast, Function.update_self]
      exact ⟨stop, hNew⟩
    · have hNe : r.nth first k ≠ last := by
        rw [hLast]
        exact Ring.nth_ne hData hOpen' (by omega) (by omega)
      rw [hSame _ hNe, Function.update_of_ne hEq]
      exact hHolds k (by omega)
  · have hOld : (List.range n).flatMap (Function.update content n new) = recs := by
      rw [hRecs, List.flatMap_def, List.flatMap_def]
      refine congrArg List.flatten (List.map_congr_left fun k hk => ?_)
      exact Function.update_of_ne (by have := List.mem_range.1 hk; omega) _ _
    rw [List.range_succ, List.flatMap_append, hOld]
    simp

--
-- The walk
--

/-- A replay that only notes which records are passed to `apply_record`. -/
def passing (disk : Nat → Block) : ReplayOps (List Record) where
  bread          := fun _ pos seen => (some (disk pos), seen)
  applyRecord    := fun _ _ _ rec seen => (none, seen ++ [rec])
  buildLiveSet   := fun seen => (none, seen)
  markExcluded   := fun seen => seen
  reconcile      := fun seen => (none, seen)
  recompute      := fun seen => seen
  dataSync       := fun seen => (none, seen)
  inodeSync      := fun seen => (none, seen)
  flush          := fun seen => (none, seen)
  syncSuperblock := fun _ seen => (none, seen)

/-- The walk of either pass over the window ends without error and has passed on the
records, in order. -/
def Reads (j : BriefsJournal) (recs : List Record) : Prop :=
  ∀ reserveOnly : Bool, ∃ enough, ∀ fuel, enough ≤ fuel →
    ∃ st, walkPass j.ring (passing j.disk) ⟨j.logStart, j.logEnd⟩ fuel reserveOnly [] =
      some (.ok st) ∧ st.world = recs ∧ st.errors = 0

section Walk

variable {r : Ring} {disk : Nat → Block}

theorem walkRecords_laid (disk : Nat → Block) (reserveOnly : Bool) (pos : Nat) {b : Block}
    {stop : Nat} : ∀ {recs : List Record} {off : Nat} (i : Nat) (st : WalkState (List Record)),
    Laid b off recs stop →
      ∃ st', walkRecords (passing disk) reserveOnly pos b recs.length i off st = .ok st' ∧
        st'.world = st.world ++ recs ∧ st'.errors = st.errors := by
  intro recs
  induction recs with
  | nil =>
    intro off i st _
    exact ⟨st, rfl, by simp, rfl⟩
  | cons rec recs ih =>
    intro off i st h
    obtain ⟨⟨hDecode, hLen⟩, hPlain, hRoom, hRest⟩ := h
    have hHeader : recordHeaderSize = 16 := rfl
    obtain ⟨st', hWalk, hWorld, hErrors⟩ := ih (i + 1)
      { world := st.world ++ [rec], records := st.records + 1, blocks := st.blocks,
        errors := st.errors } hRest
    refine ⟨st', ?_, ?_, hErrors⟩
    · rw [List.length_cons]
      unfold walkRecords
      rw [if_pos (by omega), hDecode]
      simp only [if_neg hPlain, hLen]
      exact hWalk
    · rw [hWorld, List.append_assoc]
      rfl

/-- The walk goes on at the next block that records go to. -/
theorem walkJournal_next (disk : Nat → Block) (reserveOnly : Bool) (pos fuel : Nat)
    (st : WalkState (List Record)) {stop : Nat} (hStop : stop ≠ r.checkpointBlock) :
    ∃ fuel', fuel ≤ fuel' ∧ fuel' ≤ fuel + 1 ∧
      walkJournal r (passing disk) reserveOnly stop (fuel + 1) (r.nextBlock pos) st =
        walkJournal r (passing disk) reserveOnly stop fuel' (r.advance pos) st := by
  unfold Ring.advance
  by_cases hSkip : r.nextBlock pos = r.checkpointBlock
  · refine ⟨fuel, Nat.le_refl _, Nat.le_succ _, ?_⟩
    rw [if_pos hSkip]
    conv_lhs => unfold walkJournal
    rw [if_neg (by rw [hSkip]; exact hStop.symm), if_pos hSkip]
  · refine ⟨fuel + 1, Nat.le_succ _, Nat.le_refl _, ?_⟩
    rw [if_neg hSkip]

theorem walkJournal_written (reserveOnly : Bool) {first n : Nat} {content : Nat → List Record}
    (hData : r.Data first)
    (hOpen : ∀ k, 0 < k → k ≤ n → r.nth first k ≠ first)
    (hHolds : ∀ k < n, ∃ stop, HoldsRecords (disk (r.nth first k)) (content k) stop) :
    ∀ (m k fuel : Nat) (st : WalkState (List Record)), k + m = n → 2 * m + 1 ≤ fuel →
      ∃ st', walkJournal r (passing disk) reserveOnly (r.nth first n) fuel (r.nth first k) st =
          some (.ok st') ∧
        st'.world = st.world ++ (List.range' k m).flatMap content ∧ st'.errors = st.errors := by
  intro m
  induction m with
  | zero =>
    intro k fuel st hk hFuel
    obtain ⟨fuel, rfl⟩ : ∃ f, fuel = f + 1 := ⟨fuel - 1, by omega⟩
    obtain rfl : k = n := by omega
    refine ⟨st, ?_, by simp, rfl⟩
    unfold walkJournal
    rw [if_pos rfl]
  | succ m ih =>
    intro k fuel st hk hFuel
    obtain ⟨fuel, rfl⟩ : ∃ f, fuel = f + 2 := ⟨fuel - 2, by omega⟩
    obtain ⟨stop, hBlock⟩ := hHolds k (by omega)
    have hNe : r.nth first k ≠ r.nth first n := Ring.nth_ne hData hOpen (by omega) (Nat.le_refl _)
    have hPos := hData.nth k
    obtain ⟨st₁, hRecords, hWorld, hErrors⟩ := walkRecords_laid disk reserveOnly
      (r.nth first k) 0 { st with blocks := st.blocks + 1 } hBlock.laid
    obtain ⟨fuel', hLow, hHigh, hNext⟩ := walkJournal_next disk reserveOnly
      (r.nth first k) fuel st₁ (hData.nth n).log
    obtain ⟨st', hWalk, hWorld', hErrors'⟩ := ih (k + 1) fuel' st₁ (by omega) (by omega)
    refine ⟨st', ?_, ?_, hErrors'.trans hErrors⟩
    · have hMagic : validMagic (disk (r.nth first k)) = true := by
        unfold validMagic
        rw [hBlock.magic]
        rfl
      unfold walkJournal
      rw [if_neg hNe, if_neg hPos.log, if_neg (not_not.2 hPos.mem)]
      simp only [passing, hMagic, if_true, hBlock.count]
      simp only [passing] at hRecords hNext hWalk
      rw [hRecords]
      simp only
      rw [hNext, ← r.nth_succ]
      exact hWalk
    · rw [hWorld', hWorld, List.append_assoc]
      rfl

end Walk

--
-- Appending
--

/-- The blocks of the window hold `flushed`, and the current block holds `cur`. -/
structure Logged (j : BriefsJournal) (flushed cur : List Record) : Prop where
  data   : j.ring.Data j.logStart
  blocks : Written j.ring j.disk j.logStart j.writePos flushed
  block  : HoldsRecords j.curBlock cur j.writeOffset
  dirty  : j.dirty = true ↔ cur ≠ []
  counts : j.committedCount ≤ j.writeCount
  queue  : ∀ rec ∈ j.pending, rec.Fits

variable {j : BriefsJournal} {flushed cur : List Record}

theorem Logged.reads (h : Logged j flushed cur) (hEnd : j.logEnd = j.writePos) :
    Reads j flushed := by
  intro reserveOnly
  obtain ⟨n, content, hLast, hOpen, hHolds, hRecs⟩ := h.blocks
  refine ⟨2 * n + 1, fun fuel hFuel => ?_⟩
  obtain ⟨st, hWalk, hWorld, hErrors⟩ := walkJournal_written reserveOnly h.data hOpen hHolds n 0
    fuel { world := [], records := 0, blocks := 0, errors := 0 } (by omega) hFuel
  refine ⟨st, ?_, ?_, hErrors⟩
  · unfold walkPass
    rw [hEnd, hLast]
    exact hWalk
  · rw [hWorld, hRecs, List.range_eq_range']
    rfl

theorem Ring.steps_pos (r : Ring) (pos : Nat) : 0 < r.steps pos := by
  unfold Ring.steps
  split <;> decide

/-- A block is written and the ring is not full after it. -/
theorem Logged.flush (h : Logged j flushed cur) (hRoom : j.ring.advance j.writePos ≠ j.logStart) :
    Logged j.flushCurBlock (flushed ++ cur) [] := by
  have hSteps := j.ring.steps_pos j.writePos
  refine ⟨h.data, ?_, holdsRecords_reset _, by simp [BriefsJournal.flushCurBlock], ?_, h.queue⟩
  · refine h.blocks.push h.data (h.block.congr fun i hi => ?_) (fun pos hPos => if_neg hPos) hRoom
    simp only [BriefsJournal.flushCurBlock, BriefsJournal.writeBlock, if_true]
    exact if_pos hi
  · show j.committedCount ≤ j.writeCount + j.ring.steps j.writePos
    have hCounts := h.counts
    omega

theorem Logged.put (h : Logged j flushed cur) {rec : Record} (hFits : rec.Fits)
    (hRoom : j.writeOffset + (recordHeaderSize + rec.data.length) ≤ journalBlockSize) :
    Logged (j.putRecord rec) flushed (cur ++ [rec]) := by
  refine ⟨h.data, h.blocks, h.block.put hFits hRoom, ?_, h.counts, h.queue⟩
  simp [BriefsJournal.putRecord]

/-- What appending leaves alone, and what it counts. -/
structure Appended (j j' : BriefsJournal) (n : Nat) : Prop where
  pending : j'.pending = j.pending
  since   : j'.sinceCheckpoint = j.sinceCheckpoint + n

/-- An append adds one record; it is never refused. -/
theorem BriefsJournal.writeRecord_logged (h : Logged j flushed cur) {rec : Record} (hFits : rec.Fits) :
    j.writeRecord rec = .error .full ∨
      ∃ j' flushed' cur', j.writeRecord rec = .ok j' ∧ Logged j' flushed' cur' ∧
        flushed' ++ cur' = flushed ++ cur ++ [rec] ∧ cur' ≠ [] ∧ Appended j j' 1 := by
  obtain ⟨hLow, hHigh⟩ := hFits.type
  have hSome := hFits.some
  have hBlock := hFits.block
  have hValid : ¬ (rec.data.length = 0 ∨ rec.recType ≤ jrnNone ∨ jrnEnd ≤ rec.recType) := by omega
  have hSizes : journalBlockSize = 4096 ∧ blockHeaderSize = 16 ∧ recordHeaderSize = 16 :=
    ⟨rfl, rfl, rfl⟩
  unfold BriefsJournal.writeRecord
  rw [if_neg hValid]
  dsimp only
  by_cases hFull : journalBlockSize < j.writeOffset + (recordHeaderSize + rec.data.length)
  · rw [if_pos hFull]
    unfold BriefsJournal.flushRoom
    by_cases hRing : j.flushCurBlock.writePos = j.flushCurBlock.logStart
    · rw [if_pos hRing]
      exact .inl rfl
    · -- The new block is empty, so the record fits and the loop ends at once.
      rw [if_neg hRing]
      have hFlushed := h.flush hRing
      have hFits' : ¬ journalBlockSize <
          j.flushCurBlock.writeOffset + (recordHeaderSize + rec.data.length) := by
        show ¬ journalBlockSize < blockHeaderSize + (recordHeaderSize + rec.data.length)
        omega
      have hLoop : BriefsJournal.reflush (recordHeaderSize + rec.data.length) 4 j.flushCurBlock =
          .ok j.flushCurBlock := by
        unfold BriefsJournal.reflush
        rw [if_neg hFits']
      dsimp only
      rw [hLoop]
      refine .inr ⟨_, flushed ++ cur, [rec], rfl, hFlushed.put hFits (by omega), rfl, by simp,
        rfl, rfl⟩
  · rw [if_neg hFull]
    exact .inr ⟨_, flushed, cur ++ [rec], rfl, h.put hFits (by omega),
      by rw [List.append_assoc], by simp, rfl, rfl⟩

theorem BriefsJournal.writeRecords_logged : ∀ {recs : List Record} {j : BriefsJournal}
    {flushed cur : List Record}, Logged j flushed cur → (∀ rec ∈ recs, rec.Fits) →
    j.writeRecords recs = .error .full ∨
      ∃ j' flushed' cur', j.writeRecords recs = .ok j' ∧ Logged j' flushed' cur' ∧
        flushed' ++ cur' = flushed ++ cur ++ recs ∧ (cur' = [] → cur = [] ∧ recs = []) ∧
        Appended j j' recs.length := by
  intro recs
  induction recs with
  | nil =>
    intro j flushed cur h _
    exact .inr ⟨j, flushed, cur, rfl, h, by simp, fun hNone => ⟨hNone, rfl⟩, rfl, rfl⟩
  | cons rec recs ih =>
    intro j flushed cur h hFits
    unfold BriefsJournal.writeRecords
    rcases writeRecord_logged h (hFits rec List.mem_cons_self) with hFull | hOk
    · rw [hFull]
      exact .inl rfl
    · obtain ⟨j₁, flushed₁, cur₁, hEq, hLogged, hRecs, hSome, hApp⟩ := hOk
      rw [hEq]
      dsimp only
      rcases ih hLogged fun r hr => hFits r (List.mem_cons_of_mem _ hr) with hFull | hRest
      · exact .inl hFull
      · obtain ⟨j₂, flushed₂, cur₂, hEq₂, hLogged₂, hRecs₂, hNone, hApp₂⟩ := hRest
        refine .inr ⟨j₂, flushed₂, cur₂, hEq₂, hLogged₂, ?_, ?_, ?_⟩
        · rw [hRecs₂, hRecs, List.append_assoc]
          rfl
        · intro hEmpty
          exact absurd (hNone hEmpty).1 hSome
        · refine ⟨hApp₂.pending.trans hApp.pending, ?_⟩
          rw [hApp₂.since, hApp.since, List.length_cons]
          omega

--
-- Sync
--

/-- Between two syncs: everything logged is in the window, which holds `recs`. -/
structure Ready (j : BriefsJournal) (recs : List Record) : Prop where
  logged : Logged j recs []
  done   : j.logEnd = j.writePos

/-- The block after the commit point, with `synced_pos` moved. -/
theorem Logged.commit (h : Logged j flushed cur) (hRoom : j.ring.advance j.writePos ≠ j.logStart) :
    Ready { j.flushCurBlock.commit with syncedPos := j.flushCurBlock.commit.writePos }
      (flushed ++ cur) := by
  have hFlushed := h.flush hRoom
  have hSteps := j.ring.steps_pos j.writePos
  have hCommit : j.flushCurBlock.committedCount < j.flushCurBlock.writeCount ∧
      j.flushCurBlock.writePos ≠ j.flushCurBlock.logStart := by
    refine ⟨?_, hRoom⟩
    show j.committedCount < j.writeCount + j.ring.steps j.writePos
    have hCounts := h.counts
    omega
  unfold BriefsJournal.commit
  rw [if_pos hCommit]
  exact ⟨⟨hFlushed.data, hFlushed.blocks, hFlushed.block, hFlushed.dirty, Nat.le_refl _,
    hFlushed.queue⟩, rfl⟩

/-- A checkpoint leaves an empty window at the write position. -/
theorem Ready.checkpoint {recs : List Record} (h : Ready j recs) (hSynced : j.syncedPos = j.writePos) :
    Ready j.checkpoint [] := by
  obtain ⟨n, _, hLast, _⟩ := h.logged.blocks
  have hData : j.ring.Data j.syncedPos := by
    rw [hSynced, hLast]
    exact h.logged.data.nth n
  refine ⟨⟨hData, ?_, h.logged.block, h.logged.dirty, Nat.le_refl _, h.logged.queue⟩, hSynced⟩
  show Written j.ring _ j.syncedPos j.writePos []
  rw [hSynced]
  exact written_nil _ _ _

/-- The records that a sync of the calls appends. -/
def BriefsJournal.appended (j : BriefsJournal) (calls : List Call) : List Record :=
  calls.map Call.record ++ j.pending.take drainMax

/-- The sync ends with the periodic checkpoint. -/
def BriefsJournal.runsCheckpoint (j : BriefsJournal) (calls : List Call) (checkpoint : Bool) : Bool :=
  checkpoint && !(j.appended calls).isEmpty &&
    decide (checkpointInterval ≤ j.sinceCheckpoint + (j.appended calls).length)

/-- The drain appends the queued snapshots after what was appended before. -/
theorem BriefsJournal.drain_logged (h : Logged j flushed cur) :
    j.drain = .error .full ∨
      ∃ j' flushed' cur', j.drain = .ok j' ∧ Logged j' flushed' cur' ∧
        flushed' ++ cur' = flushed ++ cur ++ j.pending.take drainMax ∧
        (cur' = [] → cur = [] ∧ j.pending.take drainMax = []) ∧
        j'.sinceCheckpoint = j.sinceCheckpoint + (j.pending.take drainMax).length := by
  have hRest : Logged { j with pending := j.pending.drop drainMax } flushed cur :=
    ⟨h.data, h.blocks, h.block, h.dirty, h.counts, fun r hr => h.queue r (List.mem_of_mem_drop hr)⟩
  rcases writeRecords_logged hRest fun r hr => h.queue r (List.mem_of_mem_take hr) with hFull | hOk
  · exact .inl hFull
  · obtain ⟨j', flushed', cur', hEq, hLogged, hRecs, hNone, hApp⟩ := hOk
    exact .inr ⟨j', flushed', cur', hEq, hLogged, hRecs, hNone, hApp.since⟩

/-- Without anything to append a sync does nothing. -/
theorem Ready.logAndSync_nil {old : List Record} (h : Ready j old) {calls : List Call}
    (hNone : j.appended calls = []) (checkpoint : Bool) :
    j.logAndSync calls checkpoint = .ok { j with pending := j.pending.drop drainMax } := by
  obtain ⟨hCalls, hQueue⟩ := List.append_eq_nil_iff.1 hNone
  have hClean : j.dirty = false := by
    have hDirty := h.logged.dirty
    simpa using hDirty
  have hDrain : j.drain = .ok { j with pending := j.pending.drop drainMax } := by
    unfold BriefsJournal.drain
    rw [hQueue]
    rfl
  unfold BriefsJournal.logAndSync
  rw [hCalls]
  show j.sync checkpoint = _
  unfold BriefsJournal.sync
  rw [hDrain]
  exact if_pos hClean

theorem Ready.reads {recs : List Record} (h : Ready j recs) : Reads j recs := h.logged.reads h.done

/-- The end of a sync: the periodic checkpoint, and the test of the ring. -/
theorem Ready.finish {recs : List Record} (h : Ready j recs) (hSynced : j.syncedPos = j.writePos)
    (checkpoint : Bool) :
    Ready (j.periodic checkpoint)
      (if checkpoint = true ∧ checkpointInterval ≤ j.sinceCheckpoint then [] else recs) := by
  unfold BriefsJournal.periodic
  by_cases hRuns : checkpoint = true ∧ checkpointInterval ≤ j.sinceCheckpoint
  · rw [if_pos hRuns, if_pos hRuns]
    exact h.checkpoint hSynced
  · rw [if_neg hRuns, if_neg hRuns]
    exact h

theorem BriefsJournal.sinceCheckpoint_commit (j : BriefsJournal) :
    j.flushCurBlock.commit.sinceCheckpoint = j.sinceCheckpoint := by
  unfold BriefsJournal.commit
  split <;> rfl

/-- What is logged and then synced is what the walk reads, in the order of the calls and
after what the window held before; no call is refused. A sync that ends with the periodic
checkpoint leaves an empty window. -/
theorem log_reads_back {j : BriefsJournal} {old : List Record} (h : Ready j old) {calls : List Call}
    (hCalls : ∀ c ∈ calls, c.Allowed) (checkpoint : Bool) :
    j.logAndSync calls checkpoint = .error .full ∨
      ∃ j', j.logAndSync calls checkpoint = .ok j' ∧
        (j.runsCheckpoint calls checkpoint = false →
          Ready j' (old ++ j.appended calls) ∧ Reads j' (old ++ j.appended calls)) ∧
        (j.runsCheckpoint calls checkpoint = true → Ready j' [] ∧ Reads j' []) := by
  by_cases hNone : j.appended calls = []
  · have hReady : Ready { j with pending := j.pending.drop drainMax } old :=
      ⟨⟨h.logged.data, h.logged.blocks, h.logged.block, h.logged.dirty, h.logged.counts,
        fun r hr => h.logged.queue r (List.mem_of_mem_drop hr)⟩, h.done⟩
    refine .inr ⟨_, h.logAndSync_nil hNone checkpoint, ?_, ?_⟩
    · intro _
      rw [hNone, List.append_nil]
      exact ⟨hReady, hReady.reads⟩
    · intro hRuns
      simp [BriefsJournal.runsCheckpoint, hNone] at hRuns
  have hFits : ∀ rec ∈ calls.map Call.record, rec.Fits := by
    intro rec hRec
    obtain ⟨c, hc, rfl⟩ := List.mem_map.1 hRec
    exact Call.record_fits (hCalls c hc)
  unfold BriefsJournal.logAndSync
  rcases BriefsJournal.writeRecords_logged h.logged hFits with hFull | hOk
  · rw [hFull]
    exact .inl rfl
  obtain ⟨j₁, flushed₁, cur₁, hEq₁, hLogged₁, hRecs₁, hNone₁, hApp₁⟩ := hOk
  rw [hEq₁]
  unfold BriefsJournal.sync
  dsimp only
  rcases BriefsJournal.drain_logged hLogged₁ with hFull | hOk
  · rw [hFull]
    exact .inl rfl
  obtain ⟨j₂, flushed₂, cur₂, hEq₂, hLogged₂, hRecs₂, hNone₂, hSince₂⟩ := hOk
  rw [hEq₂]
  dsimp only
  have hAll : flushed₂ ++ cur₂ = old ++ j.appended calls := by
    rw [hRecs₂, hRecs₁, hApp₁.pending]
    simp [BriefsJournal.appended]
  have hSince : j₂.sinceCheckpoint = j.sinceCheckpoint + (j.appended calls).length := by
    rw [hSince₂, hApp₁.since, hApp₁.pending]
    simp only [BriefsJournal.appended, List.length_append]
    omega
  have hSome : cur₂ ≠ [] := by
    intro hEmpty
    obtain ⟨hCur, hQueue⟩ := hNone₂ hEmpty
    rw [hApp₁.pending] at hQueue
    apply hNone
    unfold BriefsJournal.appended
    rw [(hNone₁ hCur).2, hQueue]
    rfl
  have hDirty : ¬ j₂.dirty = false := by simpa using hLogged₂.dirty.2 hSome
  rw [if_neg hDirty]
  by_cases hRing : j₂.needsRoom = true
  · rw [if_pos hRing]
    exact .inl rfl
  rw [if_neg hRing]
  have hRoom : j₂.ring.advance j₂.writePos ≠ j₂.logStart := by
    intro hEq
    apply hRing
    simp [BriefsJournal.needsRoom, hEq]
  have hEnd := (hLogged₂.commit hRoom).finish rfl checkpoint
  rw [hAll] at hEnd
  have hCount : ({ j₂.flushCurBlock.commit with
      syncedPos := j₂.flushCurBlock.commit.writePos } : BriefsJournal).sinceCheckpoint =
      j.sinceCheckpoint + (j.appended calls).length := by
    rw [← hSince]
    exact j₂.sinceCheckpoint_commit
  rw [hCount] at hEnd
  generalize ({ j₂.flushCurBlock.commit with
    syncedPos := j₂.flushCurBlock.commit.writePos } : BriefsJournal).periodic checkpoint = j₃ at hEnd ⊢
  have hIff : j.runsCheckpoint calls checkpoint = true ↔ checkpoint = true ∧
      checkpointInterval ≤ j.sinceCheckpoint + (j.appended calls).length := by
    simp [BriefsJournal.runsCheckpoint, hNone]
  by_cases hTail : j₃.ring.nextBlock j₃.writePos = j₃.logStart
  · rw [if_pos hTail]
    exact .inl rfl
  rw [if_neg hTail]
  refine .inr ⟨j₃, rfl, ?_, ?_⟩
  · intro hQuiet
    rw [if_neg (by rw [← hIff, hQuiet]; decide)] at hEnd
    exact ⟨hEnd, hEnd.reads⟩
  · intro hRuns
    rw [if_pos (hIff.1 hRuns)] at hEnd
    exact ⟨hEnd, hEnd.reads⟩

--
-- A small ring
--

/-- An empty journal of eight blocks whose write position is the last block before the
checkpoint block; `since` records have been logged since the last checkpoint. -/
def smallJournal (since : Nat) : BriefsJournal where
  ring            := ⟨100, 8, by decide, by decide⟩
  disk            := fun _ _ => 0
  curBlock        := Block.reset fun _ => 0
  writeOffset     := blockHeaderSize
  writePos        := 106
  syncedPos       := 106
  writeCount      := 7
  committedCount  := 7
  logStart        := 106
  logEnd          := 106
  dirty           := false
  sinceCheckpoint := since
  pending         := []
  marker          := fun _ => 0

theorem smallJournal_ready (since : Nat) : Ready (smallJournal since) [] := by
  refine ⟨⟨⟨by show 100 ≤ 106 ∧ 106 < 108; omega, by show 106 ≠ 107; omega⟩, written_nil _ _ _,
    holdsRecords_reset _, ?_, Nat.le_refl _, nofun⟩, rfl⟩
  show false = true ↔ ([] : List Record) ≠ []
  simp

/-- Two records that are logged at the end of the ring. -/
theorem smallJournal_reads_back :
    Ready (smallJournal 0) [] ∧
      ∃ j', (smallJournal 0).logAndSync [.inodeFree 7, .trieFree 300] true = .ok j' ∧
        Reads j' [(Call.inodeFree 7).record, (Call.trieFree 300).record] := by
  refine ⟨smallJournal_ready 0, ?_⟩
  have hCalls : ∀ c ∈ [Call.inodeFree 7, Call.trieFree 300], c.Allowed := by
    intro c hc
    simp only [List.mem_cons, List.not_mem_nil, or_false] at hc
    rcases hc with rfl | rfl
    · trivial
    · trivial
  rcases log_reads_back (smallJournal_ready 0) hCalls true with hFull | ⟨j', hOk, hRest, _⟩
  · have hDone : ((smallJournal 0).logAndSync [.inodeFree 7, .trieFree 300] true).isOk = true := by
      decide +kernel
    rw [hFull] at hDone
    cases hDone
  · exact ⟨j', hOk, (hRest (by decide +kernel)).2⟩

theorem Reads.of_empty {recs : List Record} (h : Reads j recs) (hEmpty : j.logStart = j.logEnd) :
    recs = [] := by
  obtain ⟨enough, hWalk⟩ := h true
  obtain ⟨st, hEq, hWorld, _⟩ := hWalk (enough + 1) (Nat.le_succ _)
  unfold walkPass walkJournal at hEq
  rw [if_pos hEmpty] at hEq
  obtain rfl := Except.ok.inj (Option.some.inj hEq)
  exact hWorld.symm

/-- Whether a sync left an empty window. -/
def endsEmpty : Except Stop BriefsJournal → Bool
  | .ok j => j.logStart == j.logEnd
  | .error _ => false

/-- The record that completes an interval is logged and synced, but the sync runs the
periodic checkpoint, and the walk passes nothing on. -/
theorem periodic_checkpoint_drops_window :
    Ready (smallJournal 4095) [] ∧ (Call.inodeFree 7).Allowed ∧
      ∃ j', (smallJournal 4095).logAndSync [.inodeFree 7] true = .ok j' ∧
        ¬ Reads j' [(Call.inodeFree 7).record] := by
  refine ⟨smallJournal_ready 4095, trivial, ?_⟩
  have hEnds : endsEmpty ((smallJournal 4095).logAndSync [.inodeFree 7] true) = true := by
    decide +kernel
  cases hSync : (smallJournal 4095).logAndSync [.inodeFree 7] true with
  | error e =>
    rw [hSync] at hEnds
    cases hEnds
  | ok j' =>
    rw [hSync] at hEnds
    refine ⟨j', rfl, ?_⟩
    intro hReads
    have hNone := hReads.of_empty (by simpa [endsEmpty] using hEnds)
    cases hNone

end Briefs.Journal
