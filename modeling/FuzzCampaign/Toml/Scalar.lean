import FuzzCampaign.Text.Decimal
import FuzzCampaign.Text.Line

/-!
# Words and values of settings files

A settings file in the TOML format holds a table of values.  A table remembers
how it came about, because that decides whether later lines may add to it:

- a closed table was written between braces;
- a headed table has a header line of its own;
- an implied table was only passed through by a header;
- a dotted table was made by a dotted key.

Numbers with a fraction and points in time keep their written form.

Blanks, line ends, comments, keys and quoted texts.  Every reader takes the
characters that are left and answers what it read with the characters behind
it, or `none` when the input does not fit.

Booleans, integers, fractions and points in time.  A plain value is a row of
letters, digits and the signs `+`, `-`, `.`, `:` and `_`; only between a date and
a time there may be a space.

Main definitions:

- `Toml.Value`.
- `Toml.descend`: change the table that a path leads to.
- `Toml.assign`: enter a value under a dotted key.
- `Toml.lineEnd?`, `Toml.skipLayout`.
- `Toml.quoted?`: the four kinds of quoted texts.
- `Toml.key?`: dotted keys.
- `Toml.integer?`, `Toml.isFloat`, `Toml.isMoment`.
- `Toml.plain?`: the value that a plain row of characters stands for.
-/

namespace FuzzCampaign.Toml

/-! ## Values of settings files -/

/-- How a table came about. -/
inductive TableForm where
  | closed | headed | implied | dotted
  deriving Repr, DecidableEq

/-- A value of a settings file. -/
inductive Value where
  | text (content : String)
  | integer (value : Int)
  | float (numeral : String)
  | boolean (value : Bool)
  | moment (written : String)
  /-- A list of values; an open one grows by a table with every header. -/
  | array (isOpen : Bool) (items : List Value)
  | table (form : TableForm) (entries : List (String × Value))
  deriving Repr

/-- The entries of a table, in the order in which they were made. -/
abbrev Entries := List (String × Value)

namespace Entries

/-- Enter a value, in the place of an earlier one under the same key. -/
def set (entries : Entries) (key : String) (value : Value) : Entries :=
  if entries.any (·.1 == key) then
    entries.map fun entry => if entry.1 == key then (key, value) else entry
  else entries ++ [(key, value)]

/-- Remove the entry of a key. -/
def erase (entries : Entries) (key : String) : Entries := entries.filter (·.1 != key)

end Entries

/-- Whether a table may be passed through.  Closed tables are complete, and a
dotted key does not add to a table that has a header. -/
def TableForm.admits (form made : TableForm) : Bool :=
  match form with
  | .closed => false
  | .headed => made != .dotted
  | .implied => true
  | .dotted => true

/-- Change the table that a path leads to.  Tables that are missing on the way
are made in the given form; below an open array the way leads through its last
table. -/
def descend (made : TableForm) (change : TableForm → Entries → Option Entries) :
    List String → TableForm → Entries → Option Entries
  | [], form, entries => change form entries
  | key :: rest, _, entries =>
    match entries.lookup key with
    | none =>
      (descend made change rest made []).map fun inner => entries.set key (.table made inner)
    | some (.table form inner) =>
      if form.admits made then
        (descend made change rest form inner).map fun inner => entries.set key (.table form inner)
      else none
    | some (.array true rows) =>
      match rows.getLast? with
      | some (.table form inner) =>
        (descend made change rest form inner).map fun inner =>
          entries.set key (.array true (rows.dropLast ++ [.table form inner]))
      | _ => none
    | some _ => none

/-- Enter a new value into a table.  A dotted key ends in a dotted table, and a
plain key in one that is not. -/
def enter (isDotted : Bool) (key : String) (value : Value) (form : TableForm)
    (entries : Entries) : Option Entries :=
  if (form == .dotted) != isDotted then none
  else if (entries.lookup key).isSome then none
  else some (entries.set key value)

/-- Enter a value under a dotted key, relative to a table. -/
def assign (entries : Entries) (path : List String) (key : String) (value : Value) :
    Option Entries :=
  descend .dotted (enter (!path.isEmpty) key value) path .headed entries

/-! ## Words of settings files -/

/-- What is read from the front of some characters. -/
abbrev Reader (α : Type) := List Char → Option (α × List Char)

/-! ### Blanks and line ends -/

/-- A space or a tab. -/
def isBlank (c : Char) : Bool := c == ' ' || c == '\t'

/-- Drop the blanks in front. -/
def skipBlanks (input : List Char) : List Char := input.dropWhile isBlank

/-- A character that may stand in a comment or between quotes: anything but a
control character other than the tab. -/
def isPlain (c : Char) : Bool := c == '\t' || (32 ≤ c.toNat && c.toNat != 127)

/-- Drop a line feed, or a carriage return and a line feed. -/
def newline? : List Char → Option (List Char)
  | '\n' :: rest => some rest
  | '\r' :: '\n' :: rest => some rest
  | _ => none

/-- Drop a comment, if there is one. -/
def skipComment : List Char → List Char
  | '#' :: rest => rest.dropWhile isPlain
  | input => input

/-- Drop the end of a line: blanks, a comment, and a line break or the end of the
input. -/
def lineEnd? (input : List Char) : Option (List Char) :=
  match skipComment (skipBlanks input) with
  | [] => some []
  | rest => newline? rest

/-- Drop blanks, line breaks and comments that end with a line break, for at most
`fuel` lines. -/
def skipLines : Nat → List Char → List Char
  | 0, input => input
  | fuel + 1, input =>
    let rest := skipBlanks input
    match newline? (skipComment rest) with
    | some below => skipLines fuel below
    | none => rest

/-- Drop blanks, line breaks and comments. -/
def skipLayout (input : List Char) : List Char := skipLines (input.length + 1) input

/-! ### Escapes -/

/-- The value of a hexadecimal digit. -/
def hexDigit? (c : Char) : Option Nat :=
  if '0' ≤ c ∧ c ≤ '9' then some (c.toNat - 48)
  else if 'a' ≤ c ∧ c ≤ 'f' then some (c.toNat - 87)
  else if 'A' ≤ c ∧ c ≤ 'F' then some (c.toNat - 55)
  else none

/-- The value of a row of hexadecimal digits. -/
def hex? (digits : List Char) : Option Nat :=
  digits.foldlM (fun value c => (hexDigit? c).map (16 * value + ·)) 0

/-- The character with a number that is written in hexadecimal. -/
def scalar? (digits : List Char) : Option Char := do
  let n ← hex? digits
  if n.isValidChar then some (Char.ofNat n) else none

/-- The character that a letter behind a backslash stands for. -/
def escape? : Char → Option Char
  | 'b' => some '\x08'
  | 't' => some '\t'
  | 'n' => some '\n'
  | 'f' => some '\x0c'
  | 'r' => some '\r'
  | '"' => some '"'
  | '\\' => some '\\'
  | _ => none

/-- What stands behind a backslash: the character that is meant. -/
def escaped? : Reader Char
  | 'u' :: a :: b :: c :: d :: rest => (scalar? [a, b, c, d]).map (·, rest)
  | 'U' :: a :: b :: c :: d :: e :: f :: g :: h :: rest =>
    (scalar? [a, b, c, d, e, f, g, h]).map (·, rest)
  | c :: rest => (escape? c).map (·, rest)
  | [] => none

/-! ### Quoted texts -/

/-- The rest of a quoted text on one line, at most `fuel` characters.  Escapes
are read only when `escapes` says so. -/
def lineText (quote : Char) (escapes : Bool) : Nat → Reader (List Char)
  | 0, _ => none
  | _ + 1, [] => none
  | fuel + 1, c :: rest =>
    if c = quote then some ([], rest)
    else if escapes && c = '\\' then do
      let (meant, rest) ← escaped? rest
      let (text, rest) ← lineText quote escapes fuel rest
      some (meant :: text, rest)
    else if isPlain c then do
      let (text, rest) ← lineText quote escapes fuel rest
      some (c :: text, rest)
    else none

/-- Drop a line break behind a backslash, together with the blanks and line
breaks that follow; `none` when the backslash does not end its line. -/
def joinLines? (input : List Char) : Option (List Char) :=
  (newline? (skipBlanks input)).map fun rest => gap (rest.length + 1) rest
where
  /-- Drop blanks and line breaks. -/
  gap : Nat → List Char → List Char
    | 0, input => input
    | fuel + 1, input =>
      let rest := skipBlanks input
      match newline? rest with
      | some below => gap fuel below
      | none => rest

/-- The rest of a quoted text on several lines, at most `fuel` characters.  Up to
two quotes belong to the text, also directly in front of the three that end
it. -/
def linesText (quote : Char) (escapes : Bool) : Nat → Reader (List Char)
  | 0, _ => none
  | _ + 1, [] => none
  | fuel + 1, c :: rest =>
    if c = quote then
      let run := min 5 ((c :: rest).takeWhile (· == quote)).length
      let behind := (c :: rest).drop run
      if 3 ≤ run then some (List.replicate (run - 3) quote, behind)
      else do
        let (text, rest) ← linesText quote escapes fuel behind
        some (List.replicate run quote ++ text, rest)
    else if escapes && c = '\\' then
      match joinLines? rest with
      | some rest => linesText quote escapes fuel rest
      | none => do
        let (meant, rest) ← escaped? rest
        let (text, rest) ← linesText quote escapes fuel rest
        some (meant :: text, rest)
    else
      match newline? (c :: rest) with
      | some below => do
        let (text, rest) ← linesText quote escapes fuel below
        some ('\n' :: text, rest)
      | none =>
        if isPlain c then do
          let (text, rest) ← linesText quote escapes fuel rest
          some (c :: text, rest)
        else none

/-- A quoted text on one line, whose opening quote was read. -/
def lineText? (quote : Char) (input : List Char) : Option (String × List Char) :=
  (lineText quote (quote == '"') (input.length + 1) input).map fun (text, rest) =>
    (String.ofList text, rest)

/-- A quoted text on several lines, whose opening quotes were read.  A line break
directly behind them does not belong to the text. -/
def linesText? (quote : Char) (input : List Char) : Option (String × List Char) :=
  let body := (newline? input).getD input
  (linesText quote (quote == '"') (body.length + 1) body).map fun (text, rest) =>
    (String.ofList text, rest)

/-- A quoted text of any kind. -/
def quoted? : Reader String
  | '"' :: '"' :: '"' :: rest => linesText? '"' rest
  | '"' :: rest => lineText? '"' rest
  | '\x27' :: '\x27' :: '\x27' :: rest => linesText? '\x27' rest
  | '\x27' :: rest => lineText? '\x27' rest
  | _ => none

/-! ### Keys -/

/-- A character of a key without quotes. -/
def isBare (c : Char) : Bool := c.isAlphanum || c == '-' || c == '_'

/-- One part of a key. -/
def simpleKey? : Reader String
  | '"' :: rest => lineText? '"' rest
  | '\x27' :: rest => lineText? '\x27' rest
  | input =>
    let bare := input.takeWhile isBare
    if bare.isEmpty then none else some (String.ofList bare, input.dropWhile isBare)

/-- How many parts a key may have, and how deep values may be nested. -/
def depthLimit : Nat := 79

/-- The parts of a key, blanks around them, at most `fuel` of them. -/
def keyParts : Nat → Reader (List String)
  | 0, _ => none
  | fuel + 1, input => do
    let (part, rest) ← simpleKey? (skipBlanks input)
    match skipBlanks rest with
    | '.' :: rest => do
      let (parts, rest) ← keyParts fuel rest
      some (part :: parts, rest)
    | rest => some ([part], rest)

/-- A dotted key: the parts in front of the last one, and the last one. -/
def key? (input : List Char) : Option ((List String × String) × List Char) := do
  let (parts, rest) ← keyParts depthLimit input
  let last ← parts.getLast?
  some ((parts.dropLast, last), rest)

/-! ## Plain values of settings files -/

/-- A character of a plain value. -/
def isWordChar (c : Char) : Bool :=
  c.isAlphanum || c == '+' || c == '-' || c == '.' || c == ':' || c == '_'

/-! ### Numbers -/

/-- Drop a sign, and tell whether it was a minus. -/
def dropSign : List Char → Bool × List Char
  | '-' :: rest => (true, rest)
  | '+' :: rest => (false, rest)
  | input => (false, input)

/-- The digits of a row in which single underscores may stand between two
digits; `none` for any other row. -/
def groupedDigits? (isDigit : Char → Bool) (row : List Char) : Option (List Char) :=
  let groups := Text.pieces '_' row
  if groups.all fun group => !group.isEmpty && group.all isDigit then some groups.flatten
  else none

/-- The digits of a decimal numeral, which has no leading zero. -/
def wholeDigits? (row : List Char) : Option (List Char) := do
  let digits ← groupedDigits? Char.isDigit row
  match row with
  | ['0'] => some digits
  | '0' :: _ => none
  | _ => some digits

/-- A letter that announces the base of a numeral. -/
def base? : Char → Option Nat
  | 'x' => some 16
  | 'o' => some 8
  | 'b' => some 2
  | _ => none

/-- The value of a row of digits in a base. -/
def valueIn (base : Nat) (digits : List Char) : Nat :=
  digits.foldl (fun value c => base * value + (hexDigit? c).getD 0) 0

/-- Whether a character is a digit of a base. -/
def isDigitOf (base : Nat) (c : Char) : Bool := (hexDigit? c).any (· < base)

/-- The integer that a row of characters stands for, before its size is looked
at. -/
def unboundedInteger? (row : List Char) : Option Int :=
  match row with
  | '0' :: mark :: digits =>
    match base? mark with
    | some base => (groupedDigits? (isDigitOf base) digits).map fun digits =>
        (valueIn base digits : Int)
    | none => none
  | _ =>
    let (negative, numeral) := dropSign row
    (wholeDigits? numeral).map fun digits =>
      let size : Int := valueIn 10 digits
      if negative then -size else size

/-- The integer that a row of characters stands for.  It fits 64 bits with a
sign. -/
def integer? (row : List Char) : Option Int := do
  let value ← unboundedInteger? row
  if -9223372036854775808 ≤ value ∧ value < 9223372036854775808 then some value else none

/-- Whether a row is the exponent of a fraction, after its letter. -/
def isExponent (row : List Char) : Bool := (groupedDigits? Char.isDigit (dropSign row).2).isSome

/-- Whether a row of characters has the form of a fraction: a decimal numeral with
a point, an exponent or both, or one of the words `inf` and `nan`. -/
def hasFloatForm (row : List Char) : Bool :=
  let numeral := (dropSign row).2
  if numeral == ['i', 'n', 'f'] || numeral == ['n', 'a', 'n'] then true
  else
    let isMark := fun c : Char => c == 'e' || c == 'E'
    let mantissa := numeral.takeWhile (!isMark ·)
    let exponent := numeral.dropWhile (!isMark ·)
    let exponentFits := exponent.isEmpty || isExponent (exponent.drop 1)
    match Text.cutAt ['.'] mantissa with
    | some (whole, fraction) =>
      (wholeDigits? whole).isSome && (groupedDigits? Char.isDigit fraction).isSome && exponentFits
    | none => (wholeDigits? mantissa).isSome && !exponent.isEmpty && exponentFits

/-- Whether a row of characters stands for a fraction.  A numeral that is too
large for a double does not, unless it is negative. -/
def isFloat (row : List Char) : Bool :=
  hasFloatForm row &&
    match Text.Decimal.parse? (row.filter (· != '_')) with
    | some (.finite negative mantissa exponent) =>
      (Text.Decimal.finite negative mantissa exponent).toFloat != 1.0 / 0.0
    | _ => true

/-! ### Points in time -/

/-- The number that two digits stand for. -/
def twoDigits? (a b : Char) : Option Nat :=
  if a.isDigit && b.isDigit then some (10 * (a.toNat - 48) + (b.toNat - 48)) else none

/-- How many days a month has. -/
def daysOf (year month : Nat) : Nat :=
  if month = 2 then
    if year % 4 = 0 ∧ (year % 100 ≠ 0 ∨ year % 400 = 0) then 29 else 28
  else if month = 4 ∨ month = 6 ∨ month = 9 ∨ month = 11 then 30
  else 31

/-- Drop a date. -/
def date? : List Char → Option (List Char)
  | y₁ :: y₂ :: y₃ :: y₄ :: '-' :: m₁ :: m₂ :: '-' :: d₁ :: d₂ :: rest => do
    let century ← twoDigits? y₁ y₂
    let years ← twoDigits? y₃ y₄
    let month ← twoDigits? m₁ m₂
    let day ← twoDigits? d₁ d₂
    if 1 ≤ month ∧ month ≤ 12 ∧ 1 ≤ day ∧ day ≤ daysOf (100 * century + years) month then some rest
    else none
  | _ => none

/-- Drop the fraction of a second, if there is one. -/
def secondFraction? : List Char → Option (List Char)
  | '.' :: rest =>
    if (rest.takeWhile Char.isDigit).isEmpty then none else some (rest.dropWhile Char.isDigit)
  | rest => some rest

/-- Drop a time of day. -/
def time? : List Char → Option (List Char)
  | h₁ :: h₂ :: ':' :: m₁ :: m₂ :: ':' :: s₁ :: s₂ :: rest => do
    let hour ← twoDigits? h₁ h₂
    let minute ← twoDigits? m₁ m₂
    let second ← twoDigits? s₁ s₂
    if hour ≤ 23 ∧ minute ≤ 59 ∧ second ≤ 60 then secondFraction? rest else none
  | _ => none

/-- Whether a row of characters is a distance from universal time. -/
def isOffset : List Char → Bool
  | [] => true
  | ['Z'] => true
  | ['z'] => true
  | [sign, h₁, h₂, ':', m₁, m₂] =>
    (sign == '+' || sign == '-') && (twoDigits? h₁ h₂).any (· ≤ 23) &&
      (twoDigits? m₁ m₂).any (· ≤ 59)
  | _ => false

/-- Whether a row of characters is a time of day with an optional offset. -/
def isClock (row : List Char) : Bool := (time? row).any isOffset

/-- Whether a row of characters is a date, a time of day, or both. -/
def isMoment (row : List Char) : Bool :=
  match date? row with
  | some [] => true
  | some (mark :: rest) => (mark == 'T' || mark == 't') && isClock rest
  | none => time? row == some []

/-! ### Plain values -/

/-- The value that a plain row of characters stands for. -/
def plain? (row : List Char) : Option Value :=
  if row = ['t', 'r', 'u', 'e'] then some (.boolean true)
  else if row = ['f', 'a', 'l', 's', 'e'] then some (.boolean false)
  else if isMoment row then some (.moment (String.ofList row))
  else if isFloat row then some (.float (String.ofList row))
  else (integer? row).map .integer

/-- A plain value at the front of the input. -/
def plainValue? (input : List Char) : Option (Value × List Char) :=
  let row := input.takeWhile isWordChar
  let rest := input.dropWhile isWordChar
  match rest with
  | ' ' :: behind =>
    let clock := behind.takeWhile isWordChar
    if date? row == some [] && isClock clock then
      some (.moment (String.ofList (row ++ ' ' :: clock)), behind.dropWhile isWordChar)
    else (plain? row).map (·, rest)
  | _ => (plain? row).map (·, rest)

end FuzzCampaign.Toml
