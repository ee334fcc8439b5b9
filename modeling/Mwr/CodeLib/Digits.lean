import Mathlib.Algebra.Ring.Nat
import Mathlib.Data.Nat.Digits.Defs
import Mathlib.Tactic.IntervalCases
import Mwr.CodeLib.Bytes

/-!
# Numbers as text

The digits of a number in a base of at most 16, as bytes, and the number of a list of digits.

* `numeral b n` are the digits of `n`, and `padded b k n` has zeros before them.
* `value b s` is the number of a list of digits.
* `value_numeral` and `value_padded` are the round trips, and `isDigit_of_mem_numeral` says which
  bytes there are.
-/

namespace Mwr.CodeLib.Digits

open Mwr.CodeLib (Bytes)

variable {b n : Nat}

/-- The digits of a number. -/
def numeral (b n : Nat) : Bytes := (Nat.toDigits b n).map fun c => UInt8.ofNat c.toNat

/-- At least `k` digits. -/
def padded (b k n : Nat) : Bytes :=
  List.replicate (k - (numeral b n).length) '0'.toUInt8 ++ numeral b n

/-- The value of a digit in any base up to 16. -/
def digitValue (ch : UInt8) : Option Nat :=
  if '0'.toUInt8 ≤ ch && ch ≤ '9'.toUInt8 then some (ch.toNat - 48)
  else if 'a'.toUInt8 ≤ ch && ch ≤ 'f'.toUInt8 then some (ch.toNat - 87)
  else if 'A'.toUInt8 ≤ ch && ch ≤ 'F'.toUInt8 then some (ch.toNat - 55)
  else none

/-- A digit of the base. -/
def isDigit (b : Nat) (ch : UInt8) : Bool := (digitValue ch).any (· < b)

/-- The number of a list of digits, the first of which is the most significant. -/
def value (b : Nat) (s : Bytes) : Nat :=
  s.foldl (fun n ch => b * n + (digitValue ch).getD 0) 0

theorem value_concat (b : Nat) (s : Bytes) (ch : UInt8) :
    value b (s ++ [ch]) = b * value b s + (digitValue ch).getD 0 := by
  rw [value, List.foldl_append]
  rfl

/-- The byte of a digit. -/
theorem digitValue_digitChar {d : Nat} (hd : d < 16) :
    digitValue (UInt8.ofNat (Nat.digitChar d).toNat) = some d := by
  interval_cases d <;> rfl

/-- The digits of a number are those of its quotient and the remainder behind them. -/
theorem numeral_eq_if (hb : 1 < b) (n : Nat) :
    numeral b n = (if n < b then [] else numeral b (n / b)) ++
      [UInt8.ofNat (Nat.digitChar (n % b)).toNat] := by
  unfold numeral
  rw [Nat.toDigits_eq_if hb]
  split
  next hlt => rw [Nat.mod_eq_of_lt hlt]; rfl
  next => rw [List.map_append]; rfl

theorem numeral_ne_nil (b n : Nat) : numeral b n ≠ [] := by
  unfold numeral
  simp

theorem value_numeral (hb : 1 < b) (hb' : b ≤ 16) (n : Nat) : value b (numeral b n) = n := by
  induction n using Nat.strongRecOn with
  | ind n ih =>
    have hmod : n % b < b := Nat.mod_lt n (by omega)
    have hlast : digitValue (UInt8.ofNat (Nat.digitChar (n % b)).toNat) = some (n % b) :=
      digitValue_digitChar (by omega)
    rw [numeral_eq_if hb, value_concat, hlast, Option.getD_some]
    split
    next hlt =>
      show b * 0 + n % b = n
      rw [Nat.mul_zero, Nat.zero_add, Nat.mod_eq_of_lt hlt]
    next hge =>
      rw [ih (n / b) (Nat.div_lt_self (by omega) hb)]
      exact Nat.div_add_mod n b

theorem isDigit_of_mem_numeral (hb : 1 < b) (hb' : b ≤ 16) {ch : UInt8}
    (h : ch ∈ numeral b n) : isDigit b ch = true := by
  induction n using Nat.strongRecOn with
  | ind n ih =>
    have hmod : n % b < b := Nat.mod_lt n (by omega)
    rw [numeral_eq_if hb, List.mem_append, List.mem_singleton] at h
    rcases h with h | rfl
    · split at h
      next => cases h
      next hge => exact ih (n / b) (Nat.div_lt_self (by omega) hb) h
    · unfold isDigit
      rw [digitValue_digitChar (by omega)]
      simpa using hmod

/-- The first digit of a number is zero for zero only. -/
theorem head_numeral (hb : 1 < b) (hb' : b ≤ 16) (hn : n ≠ 0) :
    (numeral b n).head? ≠ some '0'.toUInt8 := by
  induction n using Nat.strongRecOn with
  | ind n ih =>
    rw [numeral_eq_if hb]
    split
    next hlt =>
      have hzero := digitValue_digitChar (d := n % b)
        (by rw [Nat.mod_eq_of_lt hlt]; omega)
      intro h
      rw [List.nil_append, List.head?_cons, Option.some.injEq] at h
      rw [h, Nat.mod_eq_of_lt hlt] at hzero
      exact hn (Option.some.inj hzero).symm
    next hge =>
      rw [List.head?_append_of_ne_nil _ (numeral_ne_nil b (n / b))]
      exact ih (n / b) (Nat.div_lt_self (by omega) hb)
        (Nat.ne_of_gt (Nat.div_pos (Nat.le_of_not_lt hge) (by omega)))

/-- Zeros before a number do not change it. -/
theorem value_padded (hb : 1 < b) (hb' : b ≤ 16) (k n : Nat) : value b (padded b k n) = n := by
  have hzeros : ∀ j s, value b (List.replicate j '0'.toUInt8 ++ s) = value b s := by
    intro j s
    induction j with
    | zero => rfl
    | succ j ih =>
      rw [List.replicate_succ, List.cons_append, ← ih]
      show List.foldl _ (b * 0 + 0) _ = _
      rw [Nat.mul_zero]
      rfl
  rw [padded, hzeros, value_numeral hb hb']

theorem isDigit_of_mem_padded {k : Nat} (hb : 1 < b) (hb' : b ≤ 16) {ch : UInt8}
    (h : ch ∈ padded b k n) : isDigit b ch = true := by
  rcases List.mem_append.1 h with h | h
  · rw [(List.mem_replicate.1 h).2]
    show decide (0 < b) = true
    exact decide_eq_true (by omega)
  · exact isDigit_of_mem_numeral hb hb' h

end Mwr.CodeLib.Digits
