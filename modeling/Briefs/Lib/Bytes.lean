import Mathlib.Data.List.Basic

/-!
# Bytes at positions

A buffer is a function from positions to values. `put` copies a list into it (`memcpy`), `fill`
sets a range (`memset`), and `upTo` reads the first positions. The type of the values is
arbitrary.

## Results

* `upTo_put_end` — what is put right after the first `n` positions is appended to them.
* `getElem?_upTo` — reading a position of what was read.
-/

namespace Briefs.Bytes

variable {α : Type}

/-- `memcpy`. -/
def put (g : Nat → α) (pos : Nat) (buf : List α) : Nat → α := fun o =>
  if pos ≤ o then (buf[o - pos]?).getD (g o) else g o

/-- `memset` of `n` positions. -/
def fill (g : Nat → α) (pos n : Nat) (v : α) : Nat → α := fun o =>
  if pos ≤ o ∧ o < pos + n then v else g o

/-- The first `n` positions. -/
def upTo (g : Nat → α) (n : Nat) : List α := (List.range n).map g

section Lemmas

variable {g h : Nat → α} {pos n o : Nat} {buf : List α} {v : α}

theorem put_of_lt (hLt : o < pos) : put g pos buf o = g o := if_neg (Nat.not_le.mpr hLt)

theorem put_of_ge (hGe : pos + buf.length ≤ o) : put g pos buf o = g o := by
  unfold put
  rw [if_pos (by omega), List.getElem?_eq_none (by omega), Option.getD_none]

theorem put_inside {w : α} (hGet : buf[o]? = some w) : put g pos buf (pos + o) = w := by
  unfold put
  rw [if_pos (Nat.le_add_right _ _), Nat.add_sub_cancel_left, hGet, Option.getD_some]

theorem fill_inside (hIn : pos ≤ o ∧ o < pos + n) : fill g pos n v o = v := if_pos hIn

theorem fill_outside (hOut : ¬ (pos ≤ o ∧ o < pos + n)) : fill g pos n v o = g o := if_neg hOut

@[simp]
theorem length_upTo : (upTo g n).length = n := by
  unfold upTo
  rw [List.length_map, List.length_range]

theorem getElem?_upTo (hLt : o < n) : (upTo g n)[o]? = some (g o) := by
  unfold upTo
  rw [List.getElem?_map, List.getElem?_range hLt, Option.map_some]

theorem upTo_congr (hSame : ∀ o < n, g o = h o) : upTo g n = upTo h n :=
  List.map_congr_left fun o ho => hSame o (List.mem_range.mp ho)

/-- What is put right after the first `n` positions is appended to them. -/
theorem upTo_put_end : upTo (put g n buf) (n + buf.length) = upTo g n ++ buf := by
  apply List.ext_getElem?
  intro o
  by_cases hIn : o < n
  · rw [getElem?_upTo (by omega), List.getElem?_append_left (by rwa [length_upTo]),
      getElem?_upTo hIn, put_of_lt hIn]
  · rw [List.getElem?_append_right (by rw [length_upTo]; omega), length_upTo]
    by_cases hPast : o < n + buf.length
    · have hGet : buf[o - n]? = some buf[o - n] := List.getElem?_eq_getElem (by omega)
      have hAt : put g n buf (n + (o - n)) = buf[o - n] := put_inside hGet
      rw [show n + (o - n) = o by omega] at hAt
      rw [getElem?_upTo hPast, hGet, hAt]
    · rw [List.getElem?_eq_none (by rw [length_upTo]; omega), List.getElem?_eq_none (by omega)]

end Lemmas

end Briefs.Bytes
