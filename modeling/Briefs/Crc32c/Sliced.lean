import Briefs.Crc32c
import Briefs.Lib.Register

/-!
# BrieFS — the tables of the checksum

`briefs_crc32c_init` fills eight tables, and `briefs_crc32c` looks eight bytes up at a time. The
bytes go through a shift register: a table is eight, sixteen and so on up to sixty-four shifts of
a byte, and shifts are linear. So the eight look-ups are the eight steps of the byte loop that the
comment above the function gives, and the checksum of a string can be continued over the next one.

The frozen constant has no bit above bit 28. A shift forgets a bit, but never the last one of a
difference that lies below; three bytes do.

## Results

* `briefsCrc32cInit_built` — what the loops of the initialization leave in the tables.
* `briefsCrc32c_eq` — the tables compute `crc32c`, and that is the register.
* `sliced_eq_bytewise` — the sliced loops are the byte loop, and checksums chain.
* `short_bursts_differ` — a difference within three consecutive bytes is seen.
-/

namespace Briefs

open Register

--
-- The source
--

/-- `crc32c_slice[8][256]`. -/
abbrev Slices := Nat → Nat → BitVec 32

/-- `crc32c_slice[n][i] = v`. -/
def Slices.put (s : Slices) (n i : Nat) (v : BitVec 32) : Slices :=
  fun m k => if m = n ∧ k = i then v else s m k

/-- The first loop of `briefs_crc32c_init`: the table of single bytes. -/
def initBytes (s : Slices) : Slices :=
  (List.range 256).foldl (fun s i => s.put 0 i (Nat.repeat crcBit 8 (BitVec.ofNat 32 i))) s

/-- The second loop for one `n`: a byte further than the table before. -/
def initSlice (s : Slices) (n : Nat) : Slices :=
  (List.range 256).foldl (fun s i =>
    let prev := s (n - 1) i
    s.put n i ((prev >>> 8) ^^^ s 0 (prev &&& 0xFF#32).toNat)) s

/-- `briefs_crc32c_init`. -/
def briefsCrc32cInit (s : Slices) : Slices := (List.range' 1 7).foldl initSlice (initBytes s)

/-- A byte as a `u32`. -/
def u32OfByte (b : UInt8) : BitVec 32 := 0#24 ++ b.toBitVec

/-- The loops of `briefs_crc32c`. -/
def sliceLoop (s : Slices) (r : BitVec 32) : List UInt8 → BitVec 32
  | b0 :: b1 :: b2 :: b3 :: b4 :: b5 :: b6 :: b7 :: rest =>
    let one := le32OfBytes b0 b1 b2 b3 ^^^ r
    let two := le32OfBytes b4 b5 b6 b7
    sliceLoop s
      (s 7 (one &&& 0xFF#32).toNat ^^^ s 6 ((one >>> 8) &&& 0xFF#32).toNat ^^^
       s 5 ((one >>> 16) &&& 0xFF#32).toNat ^^^ s 4 ((one >>> 24) &&& 0xFF#32).toNat ^^^
       s 3 (two &&& 0xFF#32).toNat ^^^ s 2 ((two >>> 8) &&& 0xFF#32).toNat ^^^
       s 1 ((two >>> 16) &&& 0xFF#32).toNat ^^^ s 0 ((two >>> 24) &&& 0xFF#32).toNat)
      rest
  | b :: rest => sliceLoop s ((r >>> 8) ^^^ s 0 ((r ^^^ u32OfByte b) &&& 0xFF#32).toNat) rest
  | [] => r

/-- `briefs_crc32c(crc, data, len)`. -/
def briefsCrc32c (s : Slices) (crc : BitVec 32) (data : List UInt8) : BitVec 32 :=
  if data = [] then crc else ~~~ sliceLoop s (~~~ crc) data

/-- One byte of the loop in the comment: `r = (r >> 8) ^ table[(r ^ *buf++) & 0xFF]`. -/
def byteStep (table : Nat → BitVec 32) (r : BitVec 32) (b : UInt8) : BitVec 32 :=
  (r >>> 8) ^^^ table ((r ^^^ u32OfByte b) &&& 0xFF#32).toNat

/-- The loop in the comment: `r = ~crc; while (len--) ...; ~r`. -/
def byteLoop (table : Nat → BitVec 32) (crc : BitVec 32) (data : List UInt8) : BitVec 32 :=
  ~~~ data.foldl (byteStep table) (~~~ crc)

--
-- The register
--

/-- The frozen constant. -/
def crcPoly : BitVec 32 := 0x1EDC6F41#32

theorem crcBit_eq : crcBit = shift crcPoly := by
  funext r
  have hLow : r &&& 1#32 = BitVec.setWidth 32 (BitVec.ofBool (r.getLsbD 0)) :=
    BitVec.and_one_eq_setWidth_ofBool_getLsbD
  unfold crcBit shift
  rw [hLow]
  cases r.getLsbD 0 with
  | true => rfl
  | false => simp

theorem repeat_crcBit (n : Nat) (r : BitVec 32) :
    Nat.repeat crcBit n r = (shift crcPoly)^[n] r := by
  induction n with
  | zero => rfl
  | succ n ih =>
    rw [Function.iterate_succ_apply', ← ih, ← crcBit_eq]
    rfl

theorem getLsbD_mask (x : BitVec 32) (i : Nat) :
    (x &&& 0xFF#32).getLsbD i = (x.getLsbD i && decide (i < 8)) := by
  have hMask : (0xFF#32) = BitVec.ofNat 32 (2 ^ 8 - 1) := rfl
  rw [BitVec.getLsbD_and, hMask, BitVec.getLsbD_ofNat, Nat.testBit_two_pow_sub_one]
  by_cases hi : i < 8
  · simp [hi, show i < 32 by omega]
  · simp [hi]

/-- The step from a table: eight shifts. -/
theorem shifts_byte (x : BitVec 32) :
    (shift crcPoly)^[8] x = (x >>> 8) ^^^ (shift crcPoly)^[8] (x &&& 0xFF#32) := by
  refine shifts_eq crcPoly (fun i hi => ?_) (BitVec.eq_of_getLsbD_eq fun i _ => ?_)
  · rw [getLsbD_mask]
    simp [hi]
  · rw [BitVec.getLsbD_ushiftRight, getLsbD_mask]
    simp

theorem crc32cSlice_eq (n : Nat) (i : BitVec 32) :
    crc32cSlice n i = (shift crcPoly)^[8 * (n + 1)] i := by
  induction n with
  | zero => exact repeat_crcBit 8 i
  | succ n ih =>
    have hNext : crc32cSlice (n + 1) i = (shift crcPoly)^[8] (crc32cSlice n i) := by
      rw [shifts_byte, ← repeat_crcBit]
      rfl
    rw [hNext, ih, ← Function.iterate_add_apply]
    congr 1
    omega

/-- Four bytes of a word are looked up in four tables. -/
theorem shifts_word (n : Nat) (x : BitVec 32) :
    (shift crcPoly)^[8 * (n + 4)] x =
      crc32cSlice (n + 3) (x &&& 0xFF#32) ^^^ crc32cSlice (n + 2) ((x >>> 8) &&& 0xFF#32) ^^^
        crc32cSlice (n + 1) ((x >>> 16) &&& 0xFF#32) ^^^
        crc32cSlice n ((x >>> 24) &&& 0xFF#32) := by
  have hByte : ∀ m (y : BitVec 32), (shift crcPoly)^[8 * (m + 1)] y =
      (shift crcPoly)^[8 * m] (y >>> 8) ^^^ crc32cSlice m (y &&& 0xFF#32) := by
    intro m y
    rw [crc32cSlice_eq, Nat.mul_succ, Function.iterate_add_apply, shifts_byte, shifts_xor,
      ← Function.iterate_add_apply]
  have hGone : x >>> 24 >>> 8 = 0 := by
    rw [← BitVec.shiftRight_add]
    exact BitVec.ushiftRight_eq_zero (Nat.le_refl 32)
  have hZero : ∀ y : BitVec 32, 0 ^^^ y = y := fun _ => BitVec.zero_xor
  rw [hByte (n + 3), hByte (n + 2), ← BitVec.shiftRight_add, hByte (n + 1), ← BitVec.shiftRight_add,
    hByte n, hGone, shifts_zero, hZero]
  ac_rfl

theorem pack_four (b0 b1 b2 b3 : UInt8) :
    pack [b0.toBitVec, b1.toBitVec, b2.toBitVec, b3.toBitVec] = le32OfBytes b0 b1 b2 b3 := by
  refine BitVec.eq_of_getLsbD_eq fun i hi => ?_
  have hOut : ∀ (b : UInt8) (j : Nat), 8 ≤ j → b.toBitVec.getLsbD j = false :=
    fun b j hj => BitVec.getLsbD_of_ge b.toBitVec j hj
  simp only [pack, le32OfBytes, BitVec.getLsbD_xor, BitVec.getLsbD_shiftLeft, BitVec.getLsbD_append,
    BitVec.getLsbD_setWidth]
  by_cases h8 : i < 8
  · simp [h8, hi]
  by_cases h16 : i - 8 < 8
  · simp [h8, h16, hi, hOut b0 i (by omega), show i - 8 < 32 by omega]
  by_cases h24 : i - 8 - 8 < 8
  · simp [h8, h16, h24, hi, hOut b0 i (by omega), hOut b1 (i - 8) (by omega),
      show i - 8 < 32 by omega, show i - 8 - 8 < 32 by omega]
  · simp [h8, h16, h24, hi, hOut b0 i (by omega), hOut b1 (i - 8) (by omega),
      hOut b2 (i - 8 - 8) (by omega), show i - 8 < 32 by omega, show i - 8 - 8 < 32 by omega,
      show i - 8 - 8 - 8 < 32 by omega]

theorem u32OfByte_eq (b : UInt8) : u32OfByte b = b.toBitVec.setWidth 32 := by
  refine BitVec.eq_of_getLsbD_eq fun i hi => ?_
  rw [u32OfByte, BitVec.getLsbD_append, BitVec.getLsbD_setWidth]
  by_cases hByte : i < 8
  · simp [hByte, hi]
  · simp [hByte, BitVec.getLsbD_of_ge b.toBitVec i (by omega)]

/-- The bytes that the register absorbs. -/
def symbols (data : List UInt8) : List (BitVec 8) := data.map UInt8.toBitVec

/-- One byte through the table. -/
theorem feed_eq (r : BitVec 32) (b : UInt8) :
    feed crcPoly r b.toBitVec =
      (r >>> 8) ^^^ crc32cSlice 0 ((r ^^^ u32OfByte b) &&& 0xFF#32) := by
  have hGone : u32OfByte b >>> 8 = 0 := by
    refine BitVec.eq_of_getLsbD_eq fun i _ => ?_
    rw [BitVec.getLsbD_ushiftRight, u32OfByte, BitVec.getLsbD_append]
    simp
  have hTop : (r ^^^ u32OfByte b) >>> 8 = r >>> 8 := by
    rw [BitVec.ushiftRight_xor_distrib, hGone]
    exact BitVec.xor_zero
  rw [feed, ← u32OfByte_eq, shifts_byte, hTop, crc32cSlice_eq]

/-- Eight bytes through eight tables: two words are added one after the other, and the first one
is shifted on by the second. -/
theorem absorb_eight (r : BitVec 32) (b0 b1 b2 b3 b4 b5 b6 b7 : UInt8) :
    absorb crcPoly r (symbols [b0, b1, b2, b3, b4, b5, b6, b7]) =
      (shift crcPoly)^[64] (le32OfBytes b0 b1 b2 b3 ^^^ r) ^^^
        (shift crcPoly)^[32] (le32OfBytes b4 b5 b6 b7) := by
  have hFour : ∀ (y : BitVec 32) (c0 c1 c2 c3 : UInt8),
      absorb crcPoly y (symbols [c0, c1, c2, c3]) =
        (shift crcPoly)^[32] (y ^^^ le32OfBytes c0 c1 c2 c3) := by
    intro y c0 c1 c2 c3
    rw [← pack_four]
    exact absorb_eq crcPoly y (Nat.le_refl 32)
  have hSplit : symbols [b0, b1, b2, b3, b4, b5, b6, b7] =
      symbols [b0, b1, b2, b3] ++ symbols [b4, b5, b6, b7] := rfl
  rw [hSplit, absorb_append, hFour, hFour, shifts_xor, ← Function.iterate_add_apply,
    BitVec.xor_comm r]

/-- The loops compute the register. -/
theorem crc32cLoop_eq (r : BitVec 32) (data : List UInt8) :
    crc32cLoop r data = absorb crcPoly r (symbols data) := by
  fun_induction crc32cLoop r data with
  | case1 r b0 b1 b2 b3 b4 b5 b6 b7 rest one two ih =>
    have hSplit : symbols (b0 :: b1 :: b2 :: b3 :: b4 :: b5 :: b6 :: b7 :: rest) =
        symbols [b0, b1, b2, b3, b4, b5, b6, b7] ++ symbols rest := rfl
    rw [ih, hSplit, absorb_append, absorb_eight, shifts_word 4, shifts_word 0]
    congr 1
    simp only [BitVec.xor_assoc]
    rfl
  | case2 r b rest _ ih =>
    rw [ih]
    exact congrArg (absorb crcPoly · (symbols rest)) (feed_eq r b).symm
  | case3 r => rfl

theorem crc32c_eq (crc : BitVec 32) (data : List UInt8) :
    crc32c crc data = ~~~ absorb crcPoly (~~~ crc) (symbols data) := by
  unfold crc32c
  split
  · rename_i hNil
    subst hNil
    exact BitVec.not_not.symm
  · rw [crc32cLoop_eq]

/-- The checksum of a string can be continued. -/
theorem crc32c_append (crc : BitVec 32) (d₁ d₂ : List UInt8) :
    crc32c (crc32c crc d₁) d₂ = crc32c crc (d₁ ++ d₂) := by
  have hSplit : symbols (d₁ ++ d₂) = symbols d₁ ++ symbols d₂ := List.map_append
  rw [crc32c_eq, crc32c_eq, crc32c_eq, BitVec.not_not, hSplit, absorb_append]

--
-- The tables
--

/-- A loop that fills the first `len` entries of a table, from what is in the others. -/
theorem fill_row {s : Slices} {f : Slices → Nat → Slices} {n : Nat} {v : Nat → BitVec 32}
    (hStep : ∀ s' i, (∀ m k, m ≠ n → s' m k = s m k) → f s' i = s'.put n i (v i)) (len : Nat) :
    (List.range len).foldl f s = fun m k => if m = n ∧ k < len then v k else s m k := by
  induction len with
  | zero =>
    funext m k
    simp
  | succ len ih =>
    rw [List.range_succ, List.foldl_append, List.foldl_cons, List.foldl_nil, ih, hStep]
    · funext m k
      unfold Slices.put
      by_cases hm : m = n
      · by_cases hk : k = len
        · simp [hm, hk]
        · have hLt : k < len + 1 ↔ k < len := by omega
          simp [hm, hk, hLt]
      · simp [hm]
    · intro m k hm
      simp [hm]

/-- The first `p` tables are built. -/
def Built (s : Slices) (p : Nat) : Prop :=
  ∀ n < p, ∀ i < 256, s n i = crc32cSlice n (BitVec.ofNat 32 i)

theorem built_initBytes (s : Slices) : Built (initBytes s) 1 := by
  intro n hn i hi
  obtain rfl : n = 0 := by omega
  unfold initBytes
  rw [fill_row fun s' i _ => rfl]
  simp [hi, crc32cSlice]

theorem mask_lt (x : BitVec 32) : (x &&& 0xFF#32).toNat < 256 := by
  rw [BitVec.toNat_and]
  exact Nat.lt_of_le_of_lt Nat.and_le_right (by decide)

theorem Built.lookup {s : Slices} {p n : Nat} (h : Built s p) (hn : n < p) (x : BitVec 32) :
    s n (x &&& 0xFF#32).toNat = crc32cSlice n (x &&& 0xFF#32) := by
  rw [h n hn _ (mask_lt x), BitVec.ofNat_toNat, BitVec.setWidth_eq]

theorem Built.initSlice {s : Slices} {n : Nat} (h : Built s (n + 1)) :
    Built (initSlice s (n + 1)) (n + 2) := by
  have hFill := fill_row (s := s) (n := n + 1)
    (v := fun i => (s n i >>> 8) ^^^ s 0 (s n i &&& 0xFF#32).toNat)
    (f := fun s i => s.put (n + 1) i ((s n i >>> 8) ^^^ s 0 (s n i &&& 0xFF#32).toNat))
    (fun s' i hRest => by rw [hRest n i (by omega), hRest 0 _ (by omega)]) 256
  intro m hm i hi
  have hEntry : Briefs.initSlice s (n + 1) m i = _ := congrFun (congrFun hFill m) i
  rw [hEntry]
  by_cases hNew : m = n + 1
  · subst hNew
    rw [if_pos ⟨rfl, hi⟩, h.lookup (Nat.succ_pos n), h n (Nat.lt_succ_self n) i hi]
    rfl
  · rw [if_neg fun hAnd => hNew hAnd.1]
    exact h m (by omega) i hi

/-- What the initialization leaves in the tables, whatever was there before. -/
theorem briefsCrc32cInit_built (s : Slices) : Built (briefsCrc32cInit s) 8 := by
  have hRows : ∀ len, Built ((List.range' 1 len).foldl initSlice (initBytes s)) (len + 1) := by
    intro len
    induction len with
    | zero => exact built_initBytes s
    | succ len ih =>
      rw [List.range'_1_concat, List.foldl_append, Nat.add_comm 1 len]
      exact ih.initSlice
  exact hRows 7

theorem Built.sliceLoop {s : Slices} (h : Built s 8) (r : BitVec 32) (data : List UInt8) :
    sliceLoop s r data = crc32cLoop r data := by
  fun_induction crc32cLoop r data with
  | case1 r b0 b1 b2 b3 b4 b5 b6 b7 rest one two ih =>
    rw [Briefs.sliceLoop, h.lookup (by decide), h.lookup (by decide), h.lookup (by decide),
      h.lookup (by decide), h.lookup (by decide), h.lookup (by decide), h.lookup (by decide),
      h.lookup (by decide)]
    exact ih
  | case2 r b rest hShort ih =>
    rw [Briefs.sliceLoop, h.lookup (by decide)]
    · exact ih
    · exact hShort
  | case3 r => rfl

/-- The tables compute the checksum that the rest of the model uses. -/
theorem briefsCrc32c_eq (s : Slices) (crc : BitVec 32) (data : List UInt8) :
    briefsCrc32c (briefsCrc32cInit s) crc data = crc32c crc data := by
  unfold briefsCrc32c crc32c
  rw [(briefsCrc32cInit_built s).sliceLoop]

theorem byteStep_eq (s : Slices) (r : BitVec 32) (b : UInt8) :
    byteStep (briefsCrc32cInit s 0) r b = feed crcPoly r b.toBitVec := by
  rw [feed_eq, byteStep, (briefsCrc32cInit_built s).lookup (by decide)]

theorem foldl_byteStep (s : Slices) (r : BitVec 32) (data : List UInt8) :
    data.foldl (byteStep (briefsCrc32cInit s 0)) r = absorb crcPoly r (symbols data) := by
  induction data generalizing r with
  | nil => rfl
  | cons b data ih =>
    rw [List.foldl_cons, byteStep_eq, ih]
    rfl

/-- Over the tables that the initialization builds, the checksum is that of the byte loop, and the
checksum of a string continues that of its first part. -/
theorem sliced_eq_bytewise (s : Slices) (crc : BitVec 32) (data d₁ d₂ : List UInt8) :
    briefsCrc32c (briefsCrc32cInit s) crc data = byteLoop (briefsCrc32cInit s 0) crc data ∧
      briefsCrc32c (briefsCrc32cInit s) (briefsCrc32c (briefsCrc32cInit s) crc d₁) d₂ =
        briefsCrc32c (briefsCrc32cInit s) crc (d₁ ++ d₂) := by
  refine ⟨?_, ?_⟩
  · rw [briefsCrc32c_eq, crc32c_eq, byteLoop, foldl_byteStep]
  · rw [briefsCrc32c_eq, briefsCrc32c_eq, briefsCrc32c_eq, crc32c_append]

/-- The value that the comment gives for "123456789". -/
example : crc32c 0 [0x31, 0x32, 0x33, 0x34, 0x35, 0x36, 0x37, 0x38, 0x39] = 0xF28417BE#32 := by
  decide

--
-- Bursts
--

/-- The frozen constant ends at bit 28: a difference of up to 29 bits is not lost. -/
theorem crcPoly_hasTop : HasTop 28 crcPoly := by
  refine ⟨by decide, fun i hi => ?_⟩
  by_cases hTop : 32 ≤ i
  · exact BitVec.getLsbD_of_ge crcPoly i hTop
  · obtain rfl | rfl | rfl : i = 29 ∨ i = 30 ∨ i = 31 := by omega
    · decide
    · decide
    · decide

/-- Strings of one length that differ within three consecutive bytes. -/
theorem crc32c_ne_of_burst {d d' : List UInt8} {pos : Nat} (hLen : d.length = d'.length)
    (hSame : ∀ i, i < pos ∨ pos + 3 ≤ i → d[i]? = d'[i]?) (hNe : d ≠ d') (crc : BitVec 32) :
    crc32c crc d ≠ crc32c crc d' := by
  have hLens : (symbols d).length = (symbols d').length := by simp [symbols, hLen]
  have hSyms : ∀ i, i < pos ∨ pos + 3 ≤ i → (symbols d)[i]? = (symbols d')[i]? := by
    intro i hi
    simp [symbols, hSame i hi]
  have hDiffer : symbols d ≠ symbols d' := by
    intro hEq
    exact hNe (List.map_injective_iff.mpr (fun _ _ => UInt8.toBitVec_inj.mp) hEq)
  rw [crc32c_eq, crc32c_eq]
  intro hEq
  exact absorb_ne_of_burst crcPoly_hasTop (by decide) hLens hSyms hDiffer (~~~ crc)
    (BitVec.not_inj.mp hEq)

/-- What one shift loses: the constant moved up, with the bit that feeds it back. -/
def crcLost : BitVec 32 := 0x3DB8DE83#32

theorem crcBit_not_injective : ¬Function.Injective crcBit := by
  intro hInj
  have hSame : crcBit crcLost = crcBit 0 := by decide
  exact absurd (hInj hSame) (by decide)

theorem feed_not_injective (x : BitVec 8) : ¬Function.Injective fun r => feed crcPoly r x := by
  intro hInj
  have hLost : (shift crcPoly)^[8] crcLost = 0 := by
    have hOne : shift crcPoly crcLost = 0 := by decide
    rw [Function.iterate_succ_apply, hOne, shifts_zero]
  have hSame : feed crcPoly crcLost x = feed crcPoly 0 x := by
    unfold feed
    rw [shifts_xor, hLost, shifts_xor, shifts_zero]
  exact absurd (hInj hSame) (by decide)

/-- Two strings of one length that differ, but only within three consecutive bytes, have different
checksums, from any initial value and however long they are; and yet the register forgets, by the
bit and by the byte. -/
theorem short_bursts_differ (s : Slices) (crc : BitVec 32) {d d' : List UInt8} (pos : Nat)
    (hLen : d.length = d'.length) (hSame : ∀ i, i < pos ∨ pos + 3 ≤ i → d[i]? = d'[i]?)
    (hNe : d ≠ d') :
    briefsCrc32c (briefsCrc32cInit s) crc d ≠ briefsCrc32c (briefsCrc32cInit s) crc d' ∧
      ¬Function.Injective crcBit ∧
      ∀ b, ¬Function.Injective fun r => byteStep (briefsCrc32cInit s 0) r b := by
  refine ⟨?_, crcBit_not_injective, fun b hInj => ?_⟩
  · rw [briefsCrc32c_eq, briefsCrc32c_eq]
    exact crc32c_ne_of_burst hLen hSame hNe crc
  · refine feed_not_injective b.toBitVec fun x y hEq => hInj ?_
    show byteStep _ x b = byteStep _ y b
    rw [byteStep_eq, byteStep_eq]
    exact hEq

/-- Five bytes, of which the second and the fourth are hit. -/
theorem short_bursts_differ_five :
    ([1, 2, 3, 4, 5] : List UInt8) ≠ [1, 7, 3, 0, 5] ∧
      briefsCrc32c (briefsCrc32cInit fun _ _ => 0) 0 [1, 2, 3, 4, 5] ≠
        briefsCrc32c (briefsCrc32cInit fun _ _ => 0) 0 [1, 7, 3, 0, 5] := by
  have hNe : ([1, 2, 3, 4, 5] : List UInt8) ≠ [1, 7, 3, 0, 5] := by decide
  have hSame : ∀ i, i < 1 ∨ 1 + 3 ≤ i →
      ([1, 2, 3, 4, 5] : List UInt8)[i]? = ([1, 7, 3, 0, 5] : List UInt8)[i]? := by
    intro i hi
    by_cases hLong : 5 ≤ i
    · rw [List.getElem?_eq_none hLong, List.getElem?_eq_none hLong]
    · obtain rfl | rfl : i = 0 ∨ i = 4 := by omega
      · rfl
      · rfl
  have hLen : ([1, 2, 3, 4, 5] : List UInt8).length = ([1, 7, 3, 0, 5] : List UInt8).length := rfl
  exact ⟨hNe, (short_bursts_differ (fun _ _ => 0) 0 1 hLen hSame hNe).1⟩

end Briefs
