/-!
# Numbers as texts

A numeral is a non-empty row of ASCII digits, with an optional plus sign in
front.  It names a word of a given width, so a numeral that is too large for
the width names nothing.

Reading of decimal texts as double-precision numbers: an optional sign, then
digits with an optional point and exponent, or one of the words `inf`,
`infinity` and `nan` in any case.  At least one digit stands in front of the
exponent.

Main definitions:

- `Decimal.parse?` reads a text into sign, digits and power of ten.
- `Decimal.toFloat` rounds the exact value to the nearest double.

Main results:

- `decimal?_nil`: the empty row is no numeral.
- `word?_lt`: a word that was read fits its width.
-/

namespace FuzzCampaign.Text

/-! ## Unsigned numerals -/

def digit? (c : Char) : Option Nat :=
  if '0' ≤ c ∧ c ≤ '9' then some (c.toNat - '0'.toNat) else none

/-- The value of a row of digits, read after `value`. -/
def decimalFrom? (value : Nat) : List Char → Option Nat
  | [] => some value
  | c :: rest =>
    match digit? c with
    | some d => decimalFrom? (10 * value + d) rest
    | none => none

/-- The value of a non-empty row of digits. -/
def decimal? (digits : List Char) : Option Nat :=
  if digits.isEmpty then none else decimalFrom? 0 digits

@[simp] theorem decimal?_nil : decimal? [] = none := rfl

/-- Drop one plus sign in front. -/
def dropPlus : List Char → List Char
  | '+' :: rest => rest
  | text => text

/-- The word of `width` bits named by a numeral. -/
def word? (width : Nat) (numeral : List Char) : Option Nat :=
  match decimal? (dropPlus numeral) with
  | some value => if value < Nat.pow 2 width then some value else none
  | none => none

/-- A word that was read fits its width. -/
theorem word?_lt {width value : Nat} {numeral : List Char}
    (h : word? width numeral = some value) : value < Nat.pow 2 width := by
  rw [word?] at h
  split at h
  · split at h
    · simp_all
    · simp at h
  · simp at h

/-- The 32-bit word named by a numeral. -/
def word32? (numeral : List Char) : Option UInt32 :=
  (word? 32 numeral).map fun value => UInt32.ofNat value

/-! ## Decimal fractions -/

/-- A decimal text, read but not yet rounded. -/
inductive Decimal where
  /-- The value `mantissa * 10 ^ exponent`, negated if `negative`. -/
  | finite (negative : Bool) (mantissa : Nat) (exponent : Int)
  | infinite (negative : Bool)
  | notANumber
  deriving Repr, DecidableEq

namespace Decimal

/-- The sign in front of a number, and what follows it. -/
def sign : List Char → Bool × List Char
  | '-' :: rest => (true, rest)
  | '+' :: rest => (false, rest)
  | text => (false, text)

/-- The leading digits, and what follows them. -/
def digits (text : List Char) : List Char × List Char :=
  text.span fun c => (digit? c).isSome

/-- The exponent part: nothing, or `e` with an optionally signed row of digits. -/
def exponent? : List Char → Option Int
  | [] => some 0
  | mark :: rest =>
    if mark = 'e' ∨ mark = 'E' then
      let (negative, numeral) := sign rest
      (decimal? numeral).map fun n => if negative then -(n : Int) else n
    else none

/-- Digits with an optional point and exponent. -/
def number? (negative : Bool) (text : List Char) : Option Decimal :=
  let (whole, rest) := digits text
  let (fraction, rest) :=
    match rest with
    | '.' :: rest => digits rest
    | rest => ([], rest)
  match decimal? (whole ++ fraction), exponent? rest with
  | some mantissa, some exponent =>
    some (.finite negative mantissa (exponent - fraction.length))
  | _, _ => none

def parse? (text : List Char) : Option Decimal :=
  let (negative, rest) := sign text
  let word := String.ofList (rest.map Char.toLower)
  if word = "inf" ∨ word = "infinity" then some (.infinite negative)
  else if word = "nan" then some .notANumber
  else number? negative rest

/-- The number of decimal digits of a positive number. -/
def width (n : Nat) : Nat := (Nat.toDigits 10 n).length

/-- The double nearest to `mantissa * 10 ^ exponent`.  Powers far outside the
range of doubles are decided by their size alone. -/
def magnitude (mantissa : Nat) (exponent : Int) : Float :=
  if mantissa = 0 then 0.0
  else
    let size := exponent + width mantissa
    if 400 < size then 1.0 / 0.0
    else if size < -400 then 0.0
    else if 0 ≤ exponent then Float.ofScientific (mantissa * Nat.pow 10 exponent.toNat) false 0
    else Float.ofScientific mantissa true (-exponent).toNat

def toFloat : Decimal → Float
  | .finite negative mantissa exponent =>
    let value := magnitude mantissa exponent
    if negative then -value else value
  | .infinite negative => if negative then -(1.0 / 0.0) else 1.0 / 0.0
  | .notANumber => 0.0 / 0.0

end Decimal

end FuzzCampaign.Text
