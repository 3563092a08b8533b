import Mathlib.Logic.Equiv.Fin.Basic
import Mathlib.Data.BitVec

/-!
# Records laid out in memory

A layout says how a value lies in an image of bytes: how many bytes it takes, how it is read from a
position and how it is written there. Reading gives back what was written, writing what was read
changes nothing, and a write touches its own bytes only and does not depend on what they were. So a
layout is an exact correspondence between values and the bytes they take.

Layouts are put together from bytes: one behind another, arrays, little-endian words, and a layout
read through a one-to-one correspondence.

## Results

* `Layout.get_congr` — a value depends on its own bytes only.
* `Layout.get_put_of_disjoint` — a write beside a value does not change it.
-/

namespace Briefs.Lib

/-- How the values of a type lie in an image. -/
structure Layout (α : Type) where
  size    : Nat
  get     : (Nat → UInt8) → Nat → α
  put     : (Nat → UInt8) → Nat → α → Nat → UInt8
  get_put : ∀ g pos a, get (put g pos a) pos = a
  put_get : ∀ g pos, put g pos (get g pos) = g
  put_out : ∀ g pos a o, o < pos ∨ pos + size ≤ o → put g pos a o = g o
  put_in  : ∀ g h pos a o, pos ≤ o → o < pos + size → put g pos a o = put h pos a o

namespace Layout

variable {α β : Type} {g h : Nat → UInt8} {pos : Nat}

--
-- Reads and writes
--

theorem get_congr (l : Layout α) (hSame : ∀ o, pos ≤ o → o < pos + l.size → g o = h o) :
    l.get g pos = l.get h pos := by
  -- writing the value of `g` into `h` changes nothing, so `h` holds it already
  have hPut : l.put h pos (l.get g pos) = h := by
    funext o
    by_cases hIn : pos ≤ o ∧ o < pos + l.size
    · rw [l.put_in h g pos _ o hIn.1 hIn.2, l.put_get, hSame o hIn.1 hIn.2]
    · exact l.put_out h pos _ o (by omega)
  rw [← l.get_put h pos (l.get g pos), hPut]

theorem get_put_of_disjoint (l : Layout α) (m : Layout β) {at₁ at₂ : Nat} (b : β)
    (hApart : at₁ + l.size ≤ at₂ ∨ at₂ + m.size ≤ at₁) :
    l.get (m.put g at₂ b) at₁ = l.get g at₁ :=
  l.get_congr fun o _ _ => m.put_out g at₂ b o (by omega)

--
-- Building layouts
--

def byte : Layout UInt8 where
  size := 1
  get g pos := g pos
  put g pos a := Function.update g pos a
  get_put g pos a := Function.update_self pos a g
  put_get g pos := Function.update_eq_self pos g
  put_out g pos a o hOut := Function.update_of_ne (by omega) a g
  put_in g h pos a o hLe hLt := by
    obtain rfl : o = pos := by omega
    rw [Function.update_self, Function.update_self]

def unit : Layout Unit where
  size := 0
  get _ _ := ()
  put g _ _ := g
  get_put _ _ _ := rfl
  put_get _ _ := rfl
  put_out _ _ _ _ _ := rfl
  put_in _ _ _ _ _ hLe hLt := absurd hLt (by omega)

/-- One behind the other. -/
def prod (l : Layout α) (m : Layout β) : Layout (α × β) where
  size := l.size + m.size
  get g pos := (l.get g pos, m.get g (pos + l.size))
  put g pos p := m.put (l.put g pos p.1) (pos + l.size) p.2
  get_put g pos p := by
    rw [m.get_put, l.get_put_of_disjoint m _ (.inl (Nat.le_refl _)), l.get_put]
  put_get g pos := by
    rw [l.put_get, m.put_get]
  put_out g pos p o hOut := by
    rw [m.put_out _ _ _ o (by omega), l.put_out _ _ _ o (by omega)]
  put_in g h pos p o hLe hLt := by
    by_cases hFirst : o < pos + l.size
    · rw [m.put_out _ _ _ o (.inl hFirst), m.put_out _ _ _ o (.inl hFirst)]
      exact l.put_in g h pos p.1 o hLe hFirst
    · exact m.put_in _ _ _ p.2 o (by omega) (by omega)

/-- Through a one-to-one correspondence. -/
def map (l : Layout α) (e : α ≃ β) : Layout β where
  size := l.size
  get g pos := e (l.get g pos)
  put g pos b := l.put g pos (e.symm b)
  get_put g pos b := by rw [l.get_put, e.apply_symm_apply]
  put_get g pos := by rw [e.symm_apply_apply, l.put_get]
  put_out g pos b := l.put_out g pos (e.symm b)
  put_in g h pos b := l.put_in g h pos (e.symm b)

theorem size_prod (l : Layout α) (m : Layout β) : (l.prod m).size = l.size + m.size := rfl

theorem size_map (l : Layout α) (e : α ≃ β) : (l.map e).size = l.size := rfl

/-- So many of them, one behind the other. -/
def array (l : Layout α) : (n : Nat) → Layout (Fin n → α)
  | 0 => unit.map ⟨fun _ i => i.elim0, fun _ => (), fun _ => rfl, fun _ => funext fun i => i.elim0⟩
  | n + 1 => (l.prod (l.array n)).map (Fin.consEquiv fun _ => α)

theorem size_array (l : Layout α) (n : Nat) : (l.array n).size = n * l.size := by
  induction n with
  | zero => rw [Nat.zero_mul]; rfl
  | succ n ih =>
    show l.size + (l.array n).size = (n + 1) * l.size
    rw [ih, Nat.succ_mul, Nat.add_comm]

/-- The low byte of a word and the rest of it. -/
def wordEquiv (n : Nat) : UInt8 × BitVec (8 * n) ≃ BitVec (8 * (n + 1)) where
  toFun p := p.2 ++ p.1.toBitVec
  invFun w := (UInt8.ofBitVec (w.extractLsb' 0 8), w.extractLsb' 8 (8 * n))
  left_inv _ :=
    Prod.ext (UInt8.toBitVec_inj.mp BitVec.extractLsb'_append_eq_right)
      BitVec.extractLsb'_append_eq_left
  right_inv _ := BitVec.extractLsb'_append_extractLsb'

/-- `cpu_to_le16`, `cpu_to_le32` and `cpu_to_le64`: a word of so many bytes, the low one first. -/
def le : (n : Nat) → Layout (BitVec (8 * n))
  | 0 => unit.map ⟨fun _ => 0#0, fun _ => (), fun _ => rfl, fun _ => BitVec.of_length_zero.symm⟩
  | n + 1 => (byte.prod (le n)).map (wordEquiv n)

theorem size_le (n : Nat) : (le n).size = n := by
  induction n with
  | zero => rfl
  | succ n ih =>
    show 1 + (le n).size = n + 1
    rw [ih, Nat.add_comm]

--
-- Unions
--

/-- A member of a union, read as another one of the same size. -/
def reread (l : Layout α) (m : Layout β) (a : α) : β := m.get (l.put (fun _ => 0) 0 a) 0

theorem reread_reread {l : Layout α} {m : Layout β} (hSize : l.size = m.size) (a : α) :
    m.reread l (l.reread m a) = a := by
  unfold reread
  rw [l.get_congr (h := l.put (fun _ => 0) 0 a), l.get_put]
  intro o hLe hLt
  rw [m.put_in _ (l.put (fun _ => 0) 0 a) 0 _ o hLe (by omega), m.put_get]

end Layout

end Briefs.Lib
