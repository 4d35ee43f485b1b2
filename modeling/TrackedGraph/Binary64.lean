/-
Binary floating point of 64 bits, as far as values need it.

A number is its bit pattern, so that the sign of zero is kept and equality of
representations is decidable. There is one NaN. Arithmetic is exact: the
magnitude of a finite number is a quotient of natural numbers (`ratio`), and a
result is the number nearest to a quotient (`nearest`), half-way cases going to
the even neighbour. Products and quotients of numbers are then one rounding each
by construction, and nothing here rests on the machine's own arithmetic.
-/
set_option autoImplicit false

namespace TrackedGraph

/-- A 64-bit binary floating point number, by its bit pattern. -/
structure Binary64 where
  bits : UInt64
deriving DecidableEq, Inhabited

namespace Binary64

/-- The bit pattern of positive infinity: all exponent bits, no fraction. -/
def infinityBits : Nat := 2047 <<< 52

/-- The bit pattern without its sign. -/
def magnitudeBits (x : Binary64) : Nat := x.bits.toNat % 1 <<< 63

def isNaN (x : Binary64) : Bool := infinityBits < x.magnitudeBits

def isInfinite (x : Binary64) : Bool := x.magnitudeBits == infinityBits

def isZero (x : Binary64) : Bool := x.magnitudeBits == 0

/-- The one NaN. -/
def nan : Binary64 := ⟨0x7ff8000000000000⟩

/-- Reads a bit pattern; every pattern of a NaN is the one NaN. -/
def ofBits (bits : UInt64) : Binary64 :=
  if isNaN ⟨bits⟩ then nan else ⟨bits⟩

/-- Numeric equality: NaN equals nothing, and the two zeros are equal. -/
def equals (x y : Binary64) : Bool :=
  !x.isNaN && !y.isNaN && (x == y || (x.isZero && y.isZero))

/-- Flips the sign. -/
def neg (x : Binary64) : Binary64 := ⟨x.bits ^^^ 0x8000000000000000⟩

/-! ## Rounding -/

/-- The natural number nearest to `n / d`, a half going to the even one. -/
def roundHalfEven (n d : Nat) : Nat :=
  let q := n / d
  let r := n % d
  if d < 2 * r || (2 * r == d && q % 2 == 1) then q + 1 else q

/-- The exponent step of `n / d`: the number of doublings above the smallest
unit `2 ^ (-1074)` at which the quotient has 53 bits, or zero if it never has
that many. -/
def step (n d : Nat) : Nat :=
  let k := n.log2 + 1022 - d.log2
  let m := k - 1
  if d <<< (52 + k) ≤ n <<< 1074 then k else m

/-- **The nearest number to a quotient**, without sign; infinity where the
quotient is too large. Writing the rounded significand on top of the exponent
step makes a carry out of the significand the next exponent. -/
def nearest (n d : Nat) : Binary64 :=
  if n == 0 then ⟨0⟩ else
    let k := step n d
    let bits := k <<< 52 + roundHalfEven (n <<< 1074) (d <<< k)
    ⟨(min bits infinityBits).toUInt64⟩

/-- The magnitude of a finite number as a quotient. -/
def ratio (x : Binary64) : Nat × Nat :=
  let exponent := x.magnitudeBits >>> 52
  let fraction := x.magnitudeBits % 1 <<< 52
  if exponent == 0 then (fraction, 1 <<< 1074)
  else ((1 <<< 52 + fraction) <<< (exponent - 1), 1 <<< 1074)

/-- The product of two finite magnitudes, rounded once. -/
def mul (x y : Binary64) : Binary64 :=
  let (a, b) := x.ratio
  let (c, d) := y.ratio
  nearest (a * c) (b * d)

/-- The quotient of two finite magnitudes, rounded once. -/
def div (x y : Binary64) : Binary64 :=
  let (a, b) := x.ratio
  let (c, d) := y.ratio
  nearest (a * d) (b * c)

def ofNat (n : Nat) : Binary64 := nearest n 1

end Binary64

end TrackedGraph
