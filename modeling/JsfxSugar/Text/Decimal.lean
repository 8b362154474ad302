import JsfxSugar.Text.Basic

/-! Decimal numerals. -/

namespace JsfxSugar.Text

/-- The decimal digits of a number, without leading zeros. -/
def ofNat (n : Nat) : Text :=
  Nat.toDigits 10 n

/-- A number with its sign, which is written only below zero. -/
def ofInt (z : Int) : Text :=
  if z < 0 then '-' :: ofNat z.natAbs else ofNat z.natAbs

/-- The number that a run of decimal digits stands for; leading zeros are allowed. -/
def toNat (digits : Text) : Nat :=
  Nat.ofDigitChars 10 digits 0

theorem le_ofDigitChars (t : Text) (n : Nat) : n ≤ Nat.ofDigitChars 10 t n := by
  induction t generalizing n with
  | nil => exact Nat.le_refl n
  | cons c t ih =>
    rw [Nat.ofDigitChars_cons]
    exact Nat.le_trans (by omega) (ih _)

/-- Reads digits on, after those that stand for `n`. -/
def readUpTo? (limit n : Nat) : Text → Option Nat
  | [] => if n ≤ limit then some n else none
  | c :: t => if n ≤ limit then readUpTo? limit (10 * n + (c.toNat - '0'.toNat)) t else none

/-- The number that a run of decimal digits stands for, unless it is above a limit. No digit is read
past the one that takes it there. -/
def toNatUpTo? (limit : Nat) (digits : Text) : Option Nat :=
  readUpTo? limit 0 digits

theorem readUpTo?_eq (limit n : Nat) (t : Text) :
    readUpTo? limit n t =
      if Nat.ofDigitChars 10 t n ≤ limit then some (Nat.ofDigitChars 10 t n) else none := by
  induction t generalizing n with
  | nil => rfl
  | cons c t ih =>
    rw [readUpTo?, ih, Nat.ofDigitChars_cons]
    split
    · rfl
    · rename_i h
      have hle := le_ofDigitChars t (10 * n + (c.toNat - '0'.toNat))
      rw [if_neg (by omega)]

theorem toNatUpTo?_eq (limit : Nat) (digits : Text) :
    toNatUpTo? limit digits = if toNat digits ≤ limit then some (toNat digits) else none :=
  readUpTo?_eq limit 0 digits

@[simp] theorem toNat_ofNat (n : Nat) : toNat (ofNat n) = n := by
  simp [toNat, ofNat]

theorem isDigit_of_mem_ofNat {n : Nat} {c : Char} (h : c ∈ ofNat n) : c.isDigit = true :=
  Nat.isDigit_of_mem_toDigits (by decide) (by decide) h

theorem ofNat_ne_nil (n : Nat) : ofNat n ≠ [] :=
  Nat.toDigits_ne_nil

end JsfxSugar.Text
