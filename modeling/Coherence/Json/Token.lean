import Coherence.Text.Digits
/-!
# Lexical units of a document

`Json.Token.scan?` cuts a text into tokens. Blanks separate tokens and are dropped; a text with a
character or a lexeme that belongs to no token has no tokens at all.
-/

namespace Coherence.Json

/-- A lexical unit. A number is `none` if it is not an integer, or is negative zero; a string is
`none` if it has half of a surrogate pair. -/
inductive Token
  | leftBracket
  | rightBracket
  | leftBrace
  | rightBrace
  | comma
  | colon
  | null
  | bool (value : Bool)
  | number (value : Option Int)
  | string (value : Option String)
deriving DecidableEq

namespace Token

/-- The blanks that may stand between tokens. -/
def isBlank (c : Char) : Bool := c == ' ' || c == '\t' || c == '\n' || c == '\r'

/-! ### Numbers -/

/-- Drops a non-empty run of digits. -/
def dropDigits? : List Char → Option (List Char)
  | [] => none
  | c :: rest => if c.isDigit then some (rest.dropWhile Char.isDigit) else none

/-- Drops a fraction, if there is one; says whether there was. -/
def dropFraction? : List Char → Option (Bool × List Char)
  | '.' :: rest => (dropDigits? rest).map (true, ·)
  | rest => some (false, rest)

/-- Drops an exponent, if there is one; says whether there was. -/
def dropExponent? : List Char → Option (Bool × List Char)
  | 'e' :: rest => (dropDigits? (Text.dropSign rest)).map (true, ·)
  | 'E' :: rest => (dropDigits? (Text.dropSign rest)).map (true, ·)
  | rest => some (false, rest)

/-- Reads a number after its sign. A number starts with a zero only if the zero is all of its
integral part. -/
def number? (negative : Bool) (text : List Char) : Option (Token × List Char) := do
  let digits := text.takeWhile Char.isDigit
  if digits = [] ∨ (digits.head? = some '0' ∧ digits ≠ ['0']) then none
  let (hasFraction, rest) ← dropFraction? (text.dropWhile Char.isDigit)
  let (hasExponent, rest) ← dropExponent? rest
  let n := Nat.ofDigitChars 10 digits 0
  let value : Option Int :=
    if hasFraction ∨ hasExponent ∨ (negative ∧ n = 0) then none
    else some (if negative then -(n : Int) else n)
  some (.number value, rest)

/-! ### Strings -/

/-- The code point that a letter stands for after a backslash. -/
def escaped? : Char → Option Nat
  | '"' => some 0x22
  | '\\' => some 0x5c
  | '/' => some 0x2f
  | 'b' => some 0x08
  | 'f' => some 0x0c
  | 'n' => some 0x0a
  | 'r' => some 0x0d
  | 't' => some 0x09
  | _ => none

/-- Reads a string after its opening quote: its code points, halves of surrogate pairs apart, after
those in `seen` (last one first), and the text that follows its closing quote. -/
def codePoints? (seen : List Nat) : List Char → Option (List Nat × List Char)
  | [] => none
  | c :: rest =>
    if c = '"' then some (seen.reverse, rest)
    else if c = '\\' then
      match rest with
      | 'u' :: a :: b :: c :: d :: rest =>
        match Text.ofHex? [a, b, c, d] with
        | some u => codePoints? (u :: seen) rest
        | none => none
      | e :: rest =>
        match escaped? e with
        | some u => codePoints? (u :: seen) rest
        | none => none
      | [] => none
    else if c.toNat < 0x20 then none
    else codePoints? (c.toNat :: seen) rest

/-- The first half of a surrogate pair. -/
def isHighHalf (u : Nat) : Bool := 0xd800 ≤ u && u < 0xdc00

/-- The second half of a surrogate pair. -/
def isLowHalf (u : Nat) : Bool := 0xdc00 ≤ u && u < 0xe000

/-- Joins the surrogate pairs of a list of code points, after the characters in `seen` (last one
first); fails on a half that stands alone. -/
def joinHalves? (seen : List Char) : List Nat → Option String
  | [] => some (String.ofList seen.reverse)
  | [u] =>
    if isHighHalf u || isLowHalf u then none else some (String.ofList (Char.ofNat u :: seen).reverse)
  | u :: v :: rest =>
    if isHighHalf u then
      if isLowHalf v then
        joinHalves? (Char.ofNat (0x10000 + (u - 0xd800) * 0x400 + (v - 0xdc00)) :: seen) rest
      else none
    else if isLowHalf u then none
    else joinHalves? (Char.ofNat u :: seen) (v :: rest)

/-- Reads a string after its opening quote. -/
def string? (text : List Char) : Option (Token × List Char) :=
  (codePoints? [] text).map fun (units, rest) => (.string (joinHalves? [] units), rest)

/-! ### Texts -/

/-- Reads the token that starts with a given character. -/
def next? (c : Char) (rest : List Char) : Option (Token × List Char) :=
  match c with
  | '[' => some (.leftBracket, rest)
  | ']' => some (.rightBracket, rest)
  | '\x7b' => some (.leftBrace, rest)
  | '\x7d' => some (.rightBrace, rest)
  | ',' => some (.comma, rest)
  | ':' => some (.colon, rest)
  | '"' => string? rest
  | '-' => number? true rest
  | 'n' => match rest with
    | 'u' :: 'l' :: 'l' :: rest => some (.null, rest)
    | _ => none
  | 't' => match rest with
    | 'r' :: 'u' :: 'e' :: rest => some (.bool true, rest)
    | _ => none
  | 'f' => match rest with
    | 'a' :: 'l' :: 's' :: 'e' :: rest => some (.bool false, rest)
    | _ => none
  | c => if c.isDigit then number? false (c :: rest) else none

/-- The tokens of a text, with fuel for one step a character. -/
def scanWith : (fuel : Nat) → List Char → Option (List Token)
  | _, [] => some []
  | 0, _ :: _ => none
  | fuel + 1, c :: rest =>
    if isBlank c then scanWith fuel rest
    else match next? c rest with
      | some (t, rest) => (scanWith fuel rest).map (t :: ·)
      | none => none

def scan? (text : List Char) : Option (List Token) := scanWith text.length text

end Token

end Coherence.Json
