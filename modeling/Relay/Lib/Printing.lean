import Mathlib.Data.Finset.Sort
import Mathlib.Data.List.DropRight
import Mathlib.Data.String.Basic
import Relay.Lib.Rounding

/-!
# Printed values

Texts stand in quotes when they are printed as parts of a list, and what would be misread there is
escaped. The quotes are single ones, unless only double ones keep the text free of escapes.

A number with a fractional part is printed by as few decimal digits as single it out among the
floats, and of several such decimals by the nearest.

## Scope

Beyond Latin-1 every character is printed as it is. The interpreter escapes some of those too, the
ones that the Unicode tables do not list as printable. A whole number is printed as an integer;
there is no telling here whether it was given as one.

## Main definitions

* `quoted`, `listText`, `namesText`: a text in quotes, a list of printed things, and one of names
* `sortedNames`: the names of a set in order
* `shortestDecimal`, `numberText`: the decimal that stands for a float, and how it is printed

## Main results

* `quoted_eq_of_plain`: a text without anything to escape is printed as it is
* `rounded_shortestDecimal`: a printed decimal is read as the float again
-/

namespace Relay

namespace Printing

/-! ### Texts -/

def apostrophe : Char := Char.ofNat 39

def quotation : Char := Char.ofNat 34

def backslash : Char := Char.ofNat 92

/-- Control characters, and what else Latin-1 has that is not printed as it is. -/
def Unprintable (c : Char) : Prop :=
  c.toNat < 32 ∨ (127 ≤ c.toNat ∧ c.toNat ≤ 160) ∨ c.toNat = 173

instance (c : Char) : Decidable (Unprintable c) := by
  unfold Unprintable
  infer_instance

/-- A character of a text that stands in quotes. -/
def escaped (quote c : Char) : List Char :=
  if c = quote ∨ c = backslash then [backslash, c]
  else if c.toNat = 9 then [backslash, 't']
  else if c.toNat = 10 then [backslash, 'n']
  else if c.toNat = 13 then [backslash, 'r']
  else if Unprintable c then
    [backslash, 'x', Nat.digitChar (c.toNat / 16), Nat.digitChar (c.toNat % 16)]
  else [c]

/-- The quotes that a text is put in. -/
def quoteOf (text : List Char) : Char :=
  if apostrophe ∈ text ∧ quotation ∉ text then quotation else apostrophe

/-- A text in quotes. -/
def quoted (text : String) : String :=
  let quote := quoteOf text.toList
  String.ofList (quote :: text.toList.flatMap (escaped quote) ++ [quote])

/-- A list of things that are printed. -/
def listText (items : List String) : String := "[" ++ ", ".intercalate items ++ "]"

/-- The names of a set in order. -/
def sortedNames (names : Finset String) : List String := names.sort (· ≤ ·)

@[simp] theorem mem_sortedNames {names : Finset String} {name : String} :
    name ∈ sortedNames names ↔ name ∈ names :=
  Finset.mem_sort _

/-- A list of names. -/
def namesText (names : List String) : String := listText (names.map quoted)

/-- A text in which nothing has to be escaped is printed between single quotes as it is. -/
theorem quoted_eq_of_plain {text : String}
    (h : ∀ c ∈ text.toList, c ≠ apostrophe ∧ c ≠ backslash ∧ ¬ Unprintable c) :
    quoted text = String.ofList (apostrophe :: text.toList ++ [apostrophe]) := by
  have hquote : quoteOf text.toList = apostrophe :=
    if_neg fun hmem => (h apostrophe hmem.1).1 rfl
  have hescaped : text.toList.flatMap (escaped apostrophe) = text.toList.flatMap fun c => [c] := by
    refine List.flatMap_congr fun c hc => ?_
    obtain ⟨hne, hback, hprint⟩ := h c hc
    have hcontrol : 32 ≤ c.toNat := not_lt.mp fun hlt => hprint (Or.inl hlt)
    rw [escaped, if_neg (not_or.mpr ⟨hne, hback⟩), if_neg (by omega), if_neg (by omega),
      if_neg (by omega), if_neg hprint]
  rw [quoted, hquote, hescaped, List.flatMap_singleton']

/-! ### Numbers -/

/-- The decimals with so many digits on either side of a positive number, the nearer one first. A
decimal is an integer and the power of ten it is multiplied by. -/
def decimalsAround (x : ℚ) (power : ℤ) : List (ℤ × ℤ) :=
  let near := Rounding.roundHalfEven (x / 10 ^ power)
  let other := if near ≤ x / 10 ^ power then near + 1 else near - 1
  [(near, power), (other, power)]

/-- The value of a decimal. -/
def decimalValue (d : ℤ × ℤ) : ℚ := d.1 * 10 ^ d.2

/-- The shortest decimal that is read as the float. Seventeen digits always suffice. -/
def shortestDecimal (x : ℚ) : Option (ℤ × ℤ) :=
  ((List.range 17).flatMap fun (n : ℕ) => decimalsAround x (Int.log 10 x - n)).find? fun d =>
    Rounding.rounded 53 (-1074) (decimalValue d) = x

/-- What is printed is read as the float again. -/
theorem rounded_shortestDecimal {x : ℚ} {d : ℤ × ℤ} (h : shortestDecimal x = some d) :
    Rounding.rounded 53 (-1074) (decimalValue d) = x := by
  rw [shortestDecimal] at h
  have hread := List.find?_some h
  exact of_decide_eq_true hread

example : shortestDecimal (201 / 2) = some (1005, -1) := by decide +kernel

/-- The digits of a number below one or with a fractional part, with the point after so many of
them. -/
def fractionText (digits : List Char) (point : ℤ) : List Char :=
  if point ≤ -4 then
    let places := (1 - point).toNat
    digits.take 1 ++ (if digits.length = 1 then [] else '.' :: digits.drop 1) ++ ['e', '-'] ++
      (if places < 10 then ['0'] else []) ++ Nat.toDigits 10 places
  else if point ≤ 0 then
    '0' :: '.' :: (List.replicate (-point).toNat '0' ++ digits)
  else digits.take point.toNat ++ '.' :: digits.drop point.toNat

/-- The text of a decimal that is no integer. -/
def decimalText (d : ℤ × ℤ) : List Char :=
  let digits := Nat.toDigits 10 d.1.toNat
  fractionText (digits.rdropWhile (· = '0')) (digits.length + d.2)

/-- A number as it is printed. -/
def numberText (x : ℚ) : String :=
  if x.den = 1 then toString x.num
  else
    let digits := ((shortestDecimal (Rounding.rounded 53 (-1074) |x|)).map decimalText).getD []
    (if x < 0 then "-" else "") ++ String.ofList digits

end Printing

end Relay
