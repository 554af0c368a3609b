import SigmaMethod.Text.Digits

/-!
# Decimal fractions

A binary fraction with a fixed number of places: its exact value is rounded to the nearest decimal with that many, and
of two that are equally near to the one with an even last digit.
-/

namespace SigmaMethod.Text

/-- The integer nearest to `num / den`; a half goes to the even one. -/
def roundQuotient (num den : Nat) : Nat :=
  let q := num / den
  let r := num % den
  if 2 * r < den ∨ 2 * r = den ∧ q % 2 = 0 then q else q + 1

def exactFraction (x : Float) : Nat × Nat :=
  let bits := x.toBits.toNat
  let fraction := bits % Nat.pow 2 52
  let exponent := bits / Nat.pow 2 52 % 2048
  if exponent = 0 then (fraction, Nat.pow 2 1074)
  else ((Nat.pow 2 52 + fraction) * Nat.pow 2 (exponent - 1075), Nat.pow 2 (1075 - exponent))

def decimalText (places units : Nat) : List Char :=
  digits (units / Nat.pow 10 places) ++ '.' :: (digits (units % Nat.pow 10 places)).leftpad places '0'

def fixedText (places : Nat) (x : Float) : List Char :=
  let (num, den) := exactFraction x
  decimalText places (roundQuotient (num * Nat.pow 10 places) den)

end SigmaMethod.Text
