import Briefs.Crc32c.Sliced
import Briefs.Journal.Readback

/-!
# BrieFS — damaged records

What the checksum of a record is for: a record that decodes, and whose data is then damaged within
three consecutive bytes, does not decode any more. The record must have a checksum; a zero marks a
legacy record, which is not verified.
-/

namespace Briefs.Journal

/-- `b'` is `b` with some bytes of `[lo, hi)` damaged, all of them within three from `pos` on. -/
structure Damaged (b b' : Block) (lo hi pos : Nat) : Prop where
  inside : ∀ i, b' i ≠ b i → lo ≤ i ∧ i < hi
  short  : ∀ i, b' i ≠ b i → pos ≤ i ∧ i < pos + 3
  some   : ∃ i, b' i ≠ b i

variable {b b' : Block} {off pos : Nat}

theorem Damaged.same {lo hi : Nat} (h : Damaged b b' lo hi pos) {i : Nat} (hi : i < lo) :
    b' i = b i := by
  by_contra hNe
  have hIn := h.inside i hNe
  omega

theorem getElem?_slice (b : Block) (off len i : Nat) :
    (slice b off len)[i]? = if i < len then some (b (off + i)) else none := by
  unfold slice
  rw [List.getElem?_map]
  by_cases hi : i < len
  · rw [List.getElem?_range hi, if_pos hi, Option.map_some]
  · rw [List.getElem?_eq_none (by rw [List.length_range]; omega), if_neg hi, Option.map_none]

/-- Damaged data has another checksum. -/
theorem Damaged.crc32c_ne {lo len : Nat} (h : Damaged b b' lo (lo + len) pos) (crc : BitVec 32) :
    crc32c crc (slice b' lo len) ≠ crc32c crc (slice b lo len) := by
  have hLen : (slice b' lo len).length = (slice b lo len).length := by simp [slice]
  have hSame : ∀ i, i < pos - lo ∨ pos - lo + 3 ≤ i →
      (slice b' lo len)[i]? = (slice b lo len)[i]? := by
    intro i hi
    have hByte : b' (lo + i) = b (lo + i) := by
      by_contra hNe
      have hShort := h.short (lo + i) hNe
      omega
    rw [getElem?_slice, getElem?_slice, hByte]
  have hNe : slice b' lo len ≠ slice b lo len := by
    intro hEq
    obtain ⟨i, hi⟩ := h.some
    have hIn := h.inside i hi
    have hAt : lo + (i - lo) = i := by omega
    have hGet := congrArg (fun d : List UInt8 => d[i - lo]?) hEq
    simp only [getElem?_slice, hAt] at hGet
    rw [if_pos (by omega), if_pos (by omega)] at hGet
    exact hi (Option.some.inj hGet)
  exact crc32c_ne_of_burst hLen hSame hNe crc

/-- A record that decodes carries the checksum of its data, or none. -/
theorem decodeRecord_ok {rec : Record} (h : decodeRecord b off = .ok rec) :
    rec = ⟨le32 b off, slice b (off + recordHeaderSize) (le32 b (off + 8))⟩ ∧
      (le32 b (off + 12) ≠ 0 →
        computeRecordChecksum (le32 b off) (le32 b (off + 4)) (le32 b (off + 8)) rec.data =
          (le32 b (off + 12) : BitVec 32)) := by
  unfold decodeRecord at h
  dsimp only at h
  split at h
  · cases h
  · split at h
    · cases h
    · split at h
      · cases h
      · rename_i hSum
        obtain rfl := Except.ok.inj h
        refine ⟨rfl, fun hSome => ?_⟩
        by_contra hNe
        exact hSum ⟨hSome, hNe⟩

/-- A record whose data is damaged within three bytes is refused. -/
theorem decodeRecord_damaged {rec : Record} (hOk : decodeRecord b off = .ok rec)
    (hSum : le32 b (off + 12) ≠ 0)
    (hDamaged : Damaged b b' (off + recordHeaderSize)
      (off + recordHeaderSize + rec.data.length) pos) :
    decodeRecord b' off = .error .eio := by
  obtain ⟨rfl, hStored⟩ := decodeRecord_ok hOk
  have hLen : (slice b (off + recordHeaderSize) (le32 b (off + 8))).length = le32 b (off + 8) := by
    simp [slice]
  rw [hLen] at hDamaged
  have hHeader : ∀ k, k + 4 ≤ recordHeaderSize → le32 b' (off + k) = le32 b (off + k) := by
    intro k hk
    exact le32_congr fun i _ hHigh => hDamaged.same (by omega)
  have hSize : recordHeaderSize = 16 := rfl
  have hType : le32 b' off = le32 b off := hHeader 0 (by omega)
  unfold decodeRecord
  dsimp only
  rw [hType, hHeader 4 (by omega), hHeader 8 (by omega), hHeader 12 (by omega)]
  split
  · rfl
  · split
    · rfl
    · rw [if_pos]
      refine ⟨hSum, ?_⟩
      rw [← hStored hSum]
      exact hDamaged.crc32c_ne _

/-- A record of type 1 with one byte of data, and the checksum for the byte 7. -/
def oneByte (x : UInt8) : Block :=
  Function.update (fun i => [1, 0, 0, 0, 0, 0, 0, 0, 1, 0, 0, 0, 50, 108, 149, 240].getD i 0) 16 x

theorem decodeRecord_damaged_byte : decodeRecord (oneByte 8) 0 = .error .eio := by
  have hOk : decodeRecord (oneByte 7) 0 = .ok ⟨1, [7]⟩ := rfl
  have hAt : ∀ i, oneByte 8 i ≠ oneByte 7 i → i = 16 := by
    intro i hi
    by_contra hNe
    unfold oneByte at hi
    rw [Function.update_of_ne hNe, Function.update_of_ne hNe] at hi
    exact hi rfl
  have hDamaged : Damaged (oneByte 7) (oneByte 8) 16 17 16 :=
    ⟨fun i hi => by rw [hAt i hi]; decide, fun i hi => by rw [hAt i hi]; decide, 16, by decide⟩
  exact decodeRecord_damaged hOk (by decide) hDamaged

end Briefs.Journal
