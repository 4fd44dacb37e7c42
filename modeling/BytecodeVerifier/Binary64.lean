/-!
# Binary64 — fractions of 53 significant bits

A fraction is held to 53 bits when it is some `m · 2ᵉ` with `m < 2⁵³`.  `Fraction.rounded` gives the
nearest such fraction, and of two which are equally near the one with an even `m`.  Exponents have
no bound, since what is computed here stays far from the ends of their range.
-/

namespace BytecodeVerifier

/-- A fraction which is not negative. -/
structure Fraction where
  numerator : Nat
  denominator : Nat
  deriving DecidableEq, Repr, Inhabited

namespace Fraction

/-- A number as a fraction. -/
def ofNat (n : Nat) : Fraction := ⟨n, 1⟩

/-- The product of two fractions. -/
def mul (x y : Fraction) : Fraction :=
  ⟨x.numerator * y.numerator, x.denominator * y.denominator⟩

/-- The quotient of two fractions. -/
def div (x y : Fraction) : Fraction :=
  ⟨x.numerator * y.denominator, x.denominator * y.numerator⟩

/-- The whole part of a fraction. -/
def whole (x : Fraction) : Nat := x.numerator / x.denominator

/-- The number nearest to a fraction, the even one of two. -/
def nearest (x : Fraction) : Nat :=
  let q := x.whole
  let twice := 2 * (x.numerator % x.denominator)
  if twice < x.denominator then q
  else if x.denominator < twice then q + 1
  else q + q % 2

/-- A fraction times `2ᵉ`. -/
def scaled (x : Fraction) (e : Int) : Fraction :=
  ⟨x.numerator * Nat.pow 2 e.toNat, x.denominator * Nat.pow 2 (-e).toNat⟩

/-- The exponent by which a positive fraction is scaled so that its whole part has 53 bits. -/
def exponent (x : Fraction) : Int :=
  let e : Int := 52 - ((x.numerator.log2 : Int) - (x.denominator.log2 : Int))
  if (x.scaled e).whole < 4503599627370496 then e + 1 else e

/-- The nearest fraction of 53 significant bits. -/
def rounded (x : Fraction) : Fraction :=
  if x.numerator = 0 then x else (ofNat (x.scaled x.exponent).nearest).scaled (-x.exponent)

end Fraction

end BytecodeVerifier
