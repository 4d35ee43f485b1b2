/-
Numbers as they are written, and what they stand for.

A `Numeral` keeps the digits of a JSON number, because two readings of them are
needed and they do not agree everywhere. `toInt?` accepts whole numbers of 64
bits only, and minus zero is not one of them. `toBinary64?` reads any numeral but
is not correctly rounded: it takes as many digits as fit into 64 bits
(`significand`), rounds them, and rounds once more when it scales by the power of
ten. The second rounding is part of the format that texts are written for, so it
is kept step by step.
-/
import TrackedGraph.Binary64

set_option autoImplicit false

namespace TrackedGraph.Text

/-- A decimal digit. -/
def digit? (c : Char) : Option Nat :=
  if '0' ≤ c && c ≤ '9' then some (c.toNat - '0'.toNat) else none

/-- A number as it is written. The whole part has at least one digit and no
needless leading zero; fraction and exponent have digits where they are present. -/
structure Numeral where
  negative : Bool
  whole : List Nat
  /-- The digits behind the point. -/
  fraction : Option (List Nat)
  /-- The digits of the exponent, with whether it is negative. -/
  exponent : Option (Bool × List Nat)
deriving Inhabited

namespace Numeral

/-- The number that digits spell. -/
def spell (digits : List Nat) : Nat := digits.foldl (fun n d => 10 * n + d) 0

def maxUnsigned : Nat := 1 <<< 64 - 1

/-- A whole number: no point, no exponent, not minus zero, and within 64 bits,
without a sign or, if negative, with one. -/
def toInt? (x : Numeral) : Option Int :=
  if x.fraction.isSome || x.exponent.isSome then none
  else
    let n := spell x.whole
    if x.negative then
      if n == 0 || 1 <<< 63 < n then none else some (-(n : Int))
    else if maxUnsigned < n then none
    else some n

/-! ## Reading as floating point -/

/-- Takes digits for as long as the number fits into 64 bits. Returns it with the
number of digits taken and of digits left. -/
def takeDigits (start : Nat) : List Nat → Nat × Nat × Nat
  | [] => (start, 0, 0)
  | d :: ds =>
    let n := 10 * start + d
    if maxUnsigned < n then (start, 0, ds.length + 1)
    else
      let (m, taken, left) := takeDigits n ds
      (m, taken + 1, left)

/-- The digits that count and the power of ten that they are scaled by, exponent
aside: digits of the whole part that no longer fit scale up, digits of the
fraction that fit scale down. -/
def significand (x : Numeral) : Nat × Int :=
  let (n, _, left) := takeDigits 0 x.whole
  match x.fraction with
  | none => (n, left)
  | some ds =>
    let (m, taken, _) := takeDigits n ds
    (m, (left : Int) - taken)

/-- The power of ten, rounded to a number. -/
def powerOfTen (k : Nat) : Binary64 := Binary64.ofNat (Nat.pow 10 k)

/-- The largest exponent whose power of ten is finite. -/
def maxPower : Nat := 308

/-- Divides by `10 ^ k`, in steps that stay within the finite powers. -/
def scaleDown (x : Binary64) (k : Nat) : Binary64 :=
  if k ≤ maxPower then x.div (powerOfTen k)
  else if x.isZero then x
  else scaleDown (x.div (powerOfTen maxPower)) (k - maxPower)
termination_by k
decreasing_by
  simp only [maxPower] at *
  omega

/-- Multiplies by `10 ^ k`; nothing if the result is not finite. -/
def scaleUp? (x : Binary64) (k : Nat) : Option Binary64 :=
  if k ≤ maxPower then
    let y := x.mul (powerOfTen k)
    if y.isInfinite then none else some y
  else if x.isZero then some x
  else none

/-- The number scaled by a power of ten. -/
def scale? (n : Nat) (exponent : Int) : Option Binary64 :=
  let x := Binary64.ofNat n
  match exponent with
  | .ofNat k => scaleUp? x k
  | .negSucc k => some (scaleDown x (k + 1))

/-- Exponents beyond this are not read: they give zero or nothing. -/
def maxExponent : Nat := 1 <<< 31 - 1

/-- **The floating point number that a numeral stands for**; nothing if it is too large. -/
def toBinary64? (x : Numeral) : Option Binary64 := do
  let (n, shift) := x.significand
  let magnitude ← match x.exponent with
    | none => scale? n shift
    | some (down, digits) =>
      let e := spell digits
      if maxExponent < e then
        if n != 0 && !down then none else some ⟨0⟩
      else scale? n (if down then shift - e else shift + e)
  return if x.negative then magnitude.neg else magnitude

end Numeral

end TrackedGraph.Text
