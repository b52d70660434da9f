import Coherence.Text.Digits
/-!
# Numbers, truth values and dates

A configuration reads nothing off these values, but it holds only valid ones: `Toml.isScalar` says
which words are. Integers have 64 bits, a float must not be too large to be finite, and a date must
be a day of the calendar.
-/

namespace Coherence.Toml

/-- The digits of a run in which single underscores may stand between digits. -/
def digitRun? (isDigit : Char → Bool) : List Char → Option (List Char)
  | [] => none
  | [c] => if isDigit c then some [c] else none
  | c :: '_' :: rest => if isDigit c then (digitRun? isDigit rest).map (c :: ·) else none
  | c :: d :: rest => if isDigit c then (digitRun? isDigit (d :: rest)).map (c :: ·) else none

/-- The number that a list of decimal digits stands for. -/
def ofDecimal (digits : List Char) : Nat := Nat.ofDigitChars 10 digits 0

/-! ### Integers -/

def isOctal (c : Char) : Bool := '0' ≤ c && c ≤ '7'

def isBinary (c : Char) : Bool := c == '0' || c == '1'

def isHex (c : Char) : Bool := (Text.hexValue? c).isSome

/-- The least number that is no signed integer of 64 bits. -/
def integerBound : Nat := Nat.pow 2 63

/-- Is it a run of digits whose value has 63 bits? -/
def isWord (isDigit : Char → Bool) (value? : List Char → Option Nat) (word : List Char) : Bool :=
  match (digitRun? isDigit word).bind value? with
  | some n => n < integerBound
  | none => false

/-- The digits of a decimal integer without its sign; no zero stands in front of other digits. -/
def decimal? (word : List Char) : Option (List Char) :=
  match digitRun? Char.isDigit word with
  | some ('0' :: _ :: _) => none
  | digits => digits

/-- Is it an integer of 64 bits? -/
def isInteger (word : List Char) : Bool :=
  match word with
  | '0' :: 'x' :: rest => isWord isHex Text.ofHex? rest
  | '0' :: 'o' :: rest => isWord isOctal (fun ds => Nat.ofDigitChars 8 ds 0) rest
  | '0' :: 'b' :: rest => isWord isBinary (fun ds => Nat.ofDigitChars 2 ds 0) rest
  | _ =>
    match decimal? (Text.dropSign word) with
    | some digits =>
      if word.head? = some '-' then ofDecimal digits ≤ integerBound
      else ofDecimal digits < integerBound
    | none => false

/-! ### Floats -/

/-- The least number that rounds to no finite float of 64 bits. -/
def floatBound : Nat := Nat.pow 2 1024 - Nat.pow 2 970

/-- Is `m * 10 ^ e` finite as a float? The number of its integral digits decides, unless it is that
of the bound. -/
def isFinite (m : Nat) (e : Int) : Bool :=
  if m = 0 then true
  else
    let digits : Int := (Nat.toDigits 10 m).length + e
    if digits < 309 then true
    else if 309 < digits then false
    else if 0 ≤ e then m * Nat.pow 10 e.toNat < floatBound
    else m < floatBound * Nat.pow 10 (-e).toNat

/-- The value of an exponent, after its `e`. -/
def exponent? (word : List Char) : Option Int :=
  (digitRun? Char.isDigit (Text.dropSign word)).map fun digits =>
    if word.head? = some '-' then -(ofDecimal digits : Int) else ofDecimal digits

/-- Is it the letter in front of an exponent? -/
def isExponentMark (c : Char) : Bool := c == 'e' || c == 'E'

/-- Is it a float without sign? It has a fraction, an exponent, or both. -/
def isPositiveFloat (mustBeFinite : Bool) (word : List Char) : Bool :=
  let mantissa := word.takeWhile fun c => !isExponentMark c
  let whole := mantissa.takeWhile (· != '.')
  let fraction := (mantissa.dropWhile (· != '.')).drop 1
  let hasFraction := mantissa.contains '.'
  let hasExponent := word.any isExponentMark
  let exponent := (word.dropWhile fun c => !isExponentMark c).drop 1
  let fractionDigits := if hasFraction then digitRun? Char.isDigit fraction else some []
  let shift := if hasExponent then exponent? exponent else some 0
  match decimal? whole, fractionDigits, shift with
  | some ws, some fs, some e =>
    (hasFraction || hasExponent) &&
      (!mustBeFinite || isFinite (ofDecimal (ws ++ fs)) (e - fs.length))
  | _, _, _ => false

/-- Is it a float? -/
def isFloat (word : List Char) : Bool :=
  let unsigned := Text.dropSign word
  unsigned == ['i', 'n', 'f'] || unsigned == ['n', 'a', 'n'] ||
    isPositiveFloat (word.head? != some '-') unsigned

/-! ### Dates and times -/

/-- The value of a fixed number of digits, and what follows them. -/
def fixedDigits? (n : Nat) (word : List Char) : Option (Nat × List Char) :=
  let digits := word.take n
  if digits.length = n ∧ digits.all Char.isDigit then some (ofDecimal digits, word.drop n)
  else none

def dropChar? (c : Char) : List Char → Option (List Char)
  | d :: rest => if c = d then some rest else none
  | [] => none

def isLeapYear (year : Nat) : Bool := year % 4 == 0 && (year % 100 != 0 || year % 400 == 0)

def daysIn (year month : Nat) : Nat :=
  if month = 2 then (if isLeapYear year then 29 else 28)
  else if month = 4 ∨ month = 6 ∨ month = 9 ∨ month = 11 then 30 else 31

/-- Drops a date. -/
def dropDate? (word : List Char) : Option (List Char) := do
  let (year, rest) ← fixedDigits? 4 word
  let (month, rest) ← fixedDigits? 2 (← dropChar? '-' rest)
  let (day, rest) ← fixedDigits? 2 (← dropChar? '-' rest)
  if 1 ≤ month ∧ month ≤ 12 ∧ 1 ≤ day ∧ day ≤ daysIn year month then some rest else none

/-- Drops the fraction of a second, if there is one. -/
def dropSecondFraction? : List Char → Option (List Char)
  | '.' :: c :: rest => if c.isDigit then some (rest.dropWhile Char.isDigit) else none
  | ['.'] => none
  | rest => some rest

/-- Drops a time of day. -/
def dropTime? (word : List Char) : Option (List Char) := do
  let (hour, rest) ← fixedDigits? 2 word
  let (minute, rest) ← fixedDigits? 2 (← dropChar? ':' rest)
  let (second, rest) ← fixedDigits? 2 (← dropChar? ':' rest)
  if hour ≤ 23 ∧ minute ≤ 59 ∧ second ≤ 60 then dropSecondFraction? rest else none

/-- Is it nothing, or the distance from universal time? -/
def isOffset : List Char → Bool
  | [] => true
  | ['Z'] => true
  | ['z'] => true
  | sign :: rest =>
    (sign == '+' || sign == '-') && (do
      let (hour, rest) ← fixedDigits? 2 rest
      let (minute, rest) ← fixedDigits? 2 (← dropChar? ':' rest)
      return hour ≤ 23 ∧ minute ≤ 59 ∧ rest = []) == some true

/-- Is it a date? -/
def isDate (word : List Char) : Bool := dropDate? word == some []

/-- Is it a time of day, perhaps with a distance from universal time? -/
def isTimeWithOffset (word : List Char) : Bool :=
  match dropTime? word with
  | some rest => isOffset rest
  | none => false

/-- Is it a date, a time, or a date and a time with a `T` between them? -/
def isDateTime (word : List Char) : Bool :=
  dropTime? word == some [] ||
    match dropDate? word with
    | some [] => true
    | some (c :: rest) => (c == 'T' || c == 't') && isTimeWithOffset rest
    | none => false

/-! ### Words -/

/-- The characters that a number, a truth value or a date is made of. -/
def isWordChar (c : Char) : Bool :=
  c.isAlphanum || c == '+' || c == '-' || c == '_' || c == '.' || c == ':'

/-- Is the word a value? -/
def isScalar (word : List Char) : Bool :=
  word == ['t', 'r', 'u', 'e'] || word == ['f', 'a', 'l', 's', 'e'] || isInteger word ||
    isFloat word || isDateTime word

/-- Drops a number, a truth value or a date. A blank may stand between a date and a time. -/
def dropScalar? (text : List Char) : Option (List Char) :=
  let word := text.takeWhile isWordChar
  let rest := text.dropWhile isWordChar
  match rest with
  | ' ' :: c :: more =>
    if isDate word && c.isDigit then
      if isTimeWithOffset ((c :: more).takeWhile isWordChar) then
        some ((c :: more).dropWhile isWordChar)
      else none
    else if isScalar word then some rest else none
  | _ => if isScalar word then some rest else none

end Coherence.Toml
