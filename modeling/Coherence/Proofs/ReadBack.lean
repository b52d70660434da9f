import Coherence.Proofs.Rendering
import Coherence.Proofs.Tokens
/-!
# Generated expressions are read back

The text of an expression says which expression it is, but for the locations in it. A reader
(`Expr.read?`) gets the expression back from the text: operations stand in parentheses, calls are words
with a parenthesis behind them, and the notation of each constant says where the constant ends, whatever
follows it (`Expr.readWith_text`). So two accepted expressions have the same code only if they are one
expression (`Expr.compile_unambiguous`). All of this takes names that are identifiers of the generated
code.
-/

namespace Coherence

/-! ### Words -/

namespace Text

/-- The characters of identifiers and numbers. -/
def isWordChar (c : Char) : Bool := c.isAlphanum || c == '_'

/-- A name that is an identifier of the generated code: letters, digits and underscores, without a digit
in front, and not a truth value. -/
structure Identifier (name : String) : Prop where
  word : ∀ c ∈ name.toList, isWordChar c = true
  start : ∃ c ∈ name.toList.head?, c.isDigit = false
  notTrue : name ≠ "true"
  notFalse : name ≠ "false"

instance (name : String) : Decidable (Identifier name) :=
  decidable_of_iff
    (name.toList.all isWordChar = true ∧ name.toList.head?.any (fun c => !c.isDigit) = true ∧
      name ≠ "true" ∧ name ≠ "false") (by
    simp only [List.all_eq_true, Option.any_eq_true, Bool.not_eq_true']
    exact ⟨fun ⟨hword, hstart, htrue, hfalse⟩ => ⟨hword, hstart, htrue, hfalse⟩,
      fun h => ⟨h.word, h.start, h.notTrue, h.notFalse⟩⟩)

/-- The text continues neither a word nor a call. -/
def EndsWord (rest : List Char) : Prop := ∀ c ∈ rest.head?, isWordChar c = false ∧ c ≠ '('

theorem EndsWord.of_cons {c : Char} {rest : List Char} (h : isWordChar c = false ∧ c ≠ '(') :
    EndsWord (c :: rest) := by
  rintro _ ⟨⟩
  exact h

theorem forall_mem_toDigits {P : Char → Prop} {b : Nat} (hb : 1 < b)
    (h : ∀ d < b, P (Nat.digitChar d)) (n : Nat) : ∀ c ∈ Nat.toDigits b n, P c := by
  induction n using Nat.strongRecOn with
  | ind n ih =>
      intro c hc
      by_cases hn : n < b
      · rw [Nat.toDigits_of_lt_base hn, List.mem_singleton] at hc
        exact hc ▸ h n hn
      · have hsmaller : n / b < n := Nat.div_lt_self (by omega) hb
        rw [Nat.toDigits_of_base_le hb (Nat.not_lt.mp hn), List.mem_append, List.mem_singleton] at hc
        rcases hc with hc | rfl
        · exact ih (n / b) hsmaller c hc
        · exact h (n % b) (Nat.mod_lt n (by omega))

theorem isWordChar_of_mem_toDigits (n : Nat) : ∀ c ∈ Nat.toDigits 10 n, isWordChar c = true :=
  forall_mem_toDigits (by omega) (by decide) n

theorem Identifier.ne_nil {name : String} (h : Identifier name) : name.toList ≠ [] := by
  intro hnil
  obtain ⟨c, hc, -⟩ := h.start
  rw [hnil] at hc
  cases hc

theorem exists_word_cons {word : List Char} (hne : word ≠ [])
    (hword : ∀ c ∈ word, isWordChar c = true) : ∃ c cs, word = c :: cs ∧ c ≠ ')' := by
  obtain ⟨c, cs, rfl⟩ := List.exists_cons_of_ne_nil hne
  refine ⟨c, cs, rfl, ?_⟩
  rintro rfl
  cases hword ')' List.mem_cons_self

/-! ### Lists with commas -/

/-- Texts with a comma and a blank in front of each. -/
def commaTail : List String → String
  | [] => ""
  | s :: rest => ", " ++ s ++ commaTail rest

theorem commaList_cons (s : String) (rest : List String) :
    commaList (s :: rest) = s ++ commaTail rest := by
  induction rest generalizing s with
  | nil => simp [commaList, commaTail]
  | cons t rest ih => simp only [commaList, commaTail, ih, String.append_assoc]

/-! ### String constants -/

/-- The character that a letter behind a backslash stands for. -/
def unescape? : Char → Option Char
  | 't' => some '\t'
  | 'r' => some '\r'
  | 'n' => some '\n'
  | '\x27' => some '\x27'
  | '"' => some '"'
  | '\\' => some '\\'
  | _ => none

/-- The first character of what a string constant holds, and what follows it. -/
def readChar? : List Char → Option (Char × List Char)
  | '\\' :: 'u' :: '\x7b' :: cs =>
    match cs.dropWhile (· != '\x7d') with
    | _ :: rest => (ofHex? (cs.takeWhile (· != '\x7d'))).map fun n => (Char.ofNat n, rest)
    | [] => none
  | '\\' :: e :: cs => (unescape? e).map (·, cs)
  | c :: cs => some (c, cs)
  | [] => none

/-- What a string constant holds up to its closing quote, and what follows that. -/
def readChars? : Nat → List Char → Option (List Char × List Char)
  | 0, _ => none
  | fuel + 1, cs =>
    if cs.head? = some '"' then some ([], cs.tail)
    else do
      let (c, cs) ← readChar? cs
      let (s, cs) ← readChars? fuel cs
      return (c :: s, cs)

theorem readChar?_codePoint (c : Char) (rest : List Char) :
    readChar? ('\\' :: 'u' :: '\x7b' :: (Nat.toDigits 16 c.toNat ++ '\x7d' :: rest)) =
      some (c, rest) := by
  have hdigits : ∀ d ∈ Nat.toDigits 16 c.toNat, (d != '\x7d') = true :=
    forall_mem_toDigits (by omega) (by decide) c.toNat
  have hend : ∀ d ∈ ('\x7d' :: rest).head?, (d != '\x7d') = false := by
    rintro _ ⟨⟩
    rfl
  obtain ⟨htake, hdrop⟩ := cut_append hdigits hend
  unfold readChar?
  simp only [htake, hdrop, ofHex?_toDigits, Option.map_some, Char.ofNat_toNat]

theorem readChar?_plain {c : Char} (h : c ≠ '\\') (rest : List Char) :
    readChar? (c :: rest) = some (c, rest) := by
  unfold readChar?
  split
  · rename_i heq
    exact absurd (List.cons.inj heq).1 h
  · rename_i heq
    exact absurd (List.cons.inj heq).1 h
  · rename_i heq
    cases heq
    rfl
  · rename_i heq
    cases heq

/-- Each character is read as it was written, and what is written for it does not start with a quote. -/
theorem readChar?_escape (c : Char) (rest : List Char) :
    readChar? (escape c ++ rest) = some (c, rest) ∧ (escape c ++ rest).head? ≠ some '"' := by
  unfold escape
  split
  · exact ⟨by rw [‹c = _›]; rfl, by simp⟩
  split
  · exact ⟨by rw [‹c = _›]; rfl, by simp⟩
  split
  · exact ⟨by rw [‹c = _›]; rfl, by simp⟩
  split
  · exact ⟨by rw [‹c = _›]; rfl, by simp⟩
  split
  · exact ⟨by rw [‹c = _›]; rfl, by simp⟩
  split
  · exact ⟨by rw [‹c = _›]; rfl, by simp⟩
  rename_i hquote hbackslash
  split
  · exact ⟨readChar?_plain hbackslash rest, by simpa using hquote⟩
  · simp only [List.append_assoc, List.cons_append, List.nil_append]
    exact ⟨readChar?_codePoint c rest, by simp⟩

/-- What a string constant holds is read back up to the closing quote. -/
theorem readChars?_escape (s : List Char) {fuel : Nat} (h : s.length < fuel) (rest : List Char) :
    readChars? fuel (s.flatMap escape ++ '"' :: rest) = some (s, rest) := by
  induction s generalizing fuel with
  | nil =>
      obtain ⟨fuel, rfl⟩ := Nat.exists_eq_add_one.mpr h
      rfl
  | cons c s ih =>
      obtain ⟨fuel, rfl⟩ := Nat.exists_eq_add_one.mpr (Nat.zero_lt_of_lt h)
      obtain ⟨hread, hopen⟩ := readChar?_escape c (s.flatMap escape ++ '"' :: rest)
      have hfuel : s.length < fuel := Nat.lt_of_succ_lt_succ h
      rw [List.flatMap_cons, List.append_assoc]
      unfold readChars?
      rw [if_neg hopen, hread]
      simp only [bind, Option.bind, ih hfuel]
      rfl

theorem length_le_flatMap_escape (s : List Char) : s.length ≤ (s.flatMap escape).length := by
  induction s with
  | nil => exact Nat.le_refl 0
  | cons c s ih =>
      have hone : 1 ≤ (escape c).length := by
        unfold escape
        repeat' split
        all_goals simp
      rw [List.flatMap_cons, List.length_append, List.length_cons]
      omega

end Text

/-! ### The reader -/

namespace Expr

/-- The operator between blanks at the start of a text, and what follows it. -/
def readOperator? : List Char → Option (BinaryOp × List Char)
  | ' ' :: '+' :: ' ' :: cs => some (.add, cs)
  | ' ' :: '-' :: ' ' :: cs => some (.sub, cs)
  | ' ' :: '*' :: ' ' :: cs => some (.mul, cs)
  | ' ' :: '=' :: '=' :: ' ' :: cs => some (.eq, cs)
  | ' ' :: '!' :: '=' :: ' ' :: cs => some (.notEq, cs)
  | ' ' :: '<' :: ' ' :: cs => some (.lt, cs)
  | ' ' :: '>' :: ' ' :: cs => some (.gt, cs)
  | ' ' :: '<' :: '=' :: ' ' :: cs => some (.ltEq, cs)
  | ' ' :: '>' :: '=' :: ' ' :: cs => some (.gtEq, cs)
  | ' ' :: '&' :: '&' :: ' ' :: cs => some (.and, cs)
  | ' ' :: '|' :: '|' :: ' ' :: cs => some (.or, cs)
  | _ => none

/-- What follows a closing parenthesis. -/
def readClosing? : List Char → Option (List Char)
  | ')' :: cs => some cs
  | _ => none

/-- The integer constant with these digits. -/
def ofDigits (negative : Bool) (digits : List Char) : Expr :=
  let n : Int := Nat.ofDigitChars 10 digits 0
  .literal (.int (Int64.ofInt (if negative then -n else n))) {}

/-- What a word stands for on its own: a truth value, a number, or a variable. -/
def ofWord (word : List Char) : Expr :=
  if word = "true".toList then .literal (.bool true) {}
  else if word = "false".toList then .literal (.bool false) {}
  else if word.head?.any Char.isDigit then ofDigits false word
  else .var (String.ofList word) {}

mutual

/-- The expression at the start of a text, without locations, and what follows it. -/
def readWith : Nat → List Char → Option (Expr × List Char)
  | fuel + 1, c :: cs =>
    if c = '(' then do
      let (lhs, cs) ← readWith fuel cs
      let (op, cs) ← readOperator? cs
      let (rhs, cs) ← readWith fuel cs
      let cs ← readClosing? cs
      return (.binary lhs op rhs {}, cs)
    else if c = '"' then do
      let (s, cs) ← Text.readChars? fuel cs
      return (.literal (.string (String.ofList s)) {}, cs)
    else if c = '-' then
      some (ofDigits true (cs.takeWhile Text.isWordChar), cs.dropWhile Text.isWordChar)
    else
      let word := (c :: cs).takeWhile Text.isWordChar
      match (c :: cs).dropWhile Text.isWordChar with
      | '(' :: cs => do
        let (args, cs) ← readArgs fuel cs
        return (.call (String.ofList word) args {}, cs)
      | rest => some (ofWord word, rest)
  | _, _ => none

/-- The arguments of a call up to its closing parenthesis, and what follows that. -/
def readArgs : Nat → List Char → Option (List Expr × List Char)
  | fuel + 1, cs =>
    if cs.head? = some ')' then some ([], cs.tail)
    else do
      let (arg, cs) ← readWith fuel cs
      let (args, cs) ← readMore fuel cs
      return (arg :: args, cs)
  | _, _ => none

/-- The arguments of a call that come after the first. -/
def readMore : Nat → List Char → Option (List Expr × List Char)
  | _ + 1, ')' :: cs => some ([], cs)
  | fuel + 1, ',' :: ' ' :: cs => do
    let (arg, cs) ← readWith fuel cs
    let (args, cs) ← readMore fuel cs
    return (arg :: args, cs)
  | _, _ => none

end

/-- The expression that a text is the text of, without locations. -/
def read? (text : String) : Option Expr :=
  match readWith text.toList.length text.toList with
  | some (e, []) => some e
  | _ => none

/-! ### What is recovered -/

mutual

/-- The expression without its locations. -/
def bare : Expr → Expr
  | .var ident _ => .var ident {}
  | .literal value _ => .literal value {}
  | .call ident args _ => .call ident (bareAll args) {}
  | .binary lhs op rhs _ => .binary (bare lhs) op (bare rhs) {}

def bareAll : List Expr → List Expr
  | [] => []
  | e :: es => bare e :: bareAll es

end

mutual

/-- The variables and functions that an expression mentions. -/
def names : Expr → List String
  | .var ident _ => [ident]
  | .literal .. => []
  | .call ident args _ => ident :: namesAll args
  | .binary lhs _ rhs _ => names lhs ++ names rhs

def namesAll : List Expr → List String
  | [] => []
  | e :: es => names e ++ namesAll es

end

/-! ### Reading back -/

theorem readOperator?_text (op : BinaryOp) (rest : List Char) :
    readOperator? (' ' :: (op.text.toList ++ ' ' :: rest)) = some (op, rest) := by
  cases op <;> rfl

section word

variable {fuel : Nat} {word : List Char} {rest : List Char}

/-- A text that starts with a word is not an operation, a string or a negative number. -/
theorem readWith_word : word ≠ [] → (∀ c ∈ word, Text.isWordChar c = true) →
    (∀ c ∈ rest.head?, Text.isWordChar c = false) →
    readWith (fuel + 1) (word ++ rest) =
      match rest with
      | '(' :: cs => do
        let (args, cs) ← readArgs fuel cs
        return (.call (String.ofList word) args {}, cs)
      | rest => some (ofWord word, rest) := by
  intro hne hword hrest
  obtain ⟨c, cs, rfl⟩ := List.exists_cons_of_ne_nil hne
  obtain ⟨htake, hdrop⟩ := Text.cut_append hword hrest
  have hc : Text.isWordChar c = true := hword c List.mem_cons_self
  rw [List.cons_append] at htake hdrop ⊢
  unfold readWith
  rw [if_neg (by rintro rfl; cases hc), if_neg (by rintro rfl; cases hc),
    if_neg (by rintro rfl; cases hc)]
  simp only [htake, hdrop]

theorem readWith_ends (hne : word ≠ []) (hword : ∀ c ∈ word, Text.isWordChar c = true)
    (hrest : Text.EndsWord rest) : readWith (fuel + 1) (word ++ rest) = some (ofWord word, rest) := by
  rw [readWith_word hne hword fun c hc => (hrest c hc).1]
  split
  · exact absurd rfl (hrest '(' rfl).2
  · rfl

theorem readWith_call (hne : word ≠ []) (hword : ∀ c ∈ word, Text.isWordChar c = true) :
    readWith (fuel + 1) (word ++ '(' :: rest) = (do
      let (args, cs) ← readArgs fuel rest
      return (.call (String.ofList word) args {}, cs)) :=
  readWith_word hne hword (by rintro _ ⟨⟩; rfl)

end word

theorem ofWord_ident {ident : String} (h : Text.Identifier ident) :
    ofWord ident.toList = .var ident {} := by
  have hdigit : ¬ident.toList.head?.any Char.isDigit = true := by
    obtain ⟨c, hc, hdigit⟩ := h.start
    rw [Option.mem_def.mp hc, Option.any_some, hdigit]
    exact Bool.false_ne_true
  unfold ofWord
  rw [if_neg (fun heq => h.notTrue (String.toList_inj.mp heq)),
    if_neg (fun heq => h.notFalse (String.toList_inj.mp heq)), if_neg hdigit, String.ofList_toList]

theorem ofWord_toDigits (n : Nat) : ofWord (Nat.toDigits 10 n) = ofDigits false (Nat.toDigits 10 n) := by
  obtain ⟨c, cs, hcs⟩ := List.exists_cons_of_ne_nil (Nat.toDigits_ne_nil (n := n) (b := 10))
  have hdigit : c.isDigit = true :=
    Nat.isDigit_of_mem_toDigits (b := 10) (n := n) (by omega) (by omega) (by simp [hcs])
  have hnot : ∀ word : String, word.toList.head?.any Char.isDigit = false →
      Nat.toDigits 10 n ≠ word.toList := by
    intro word hword heq
    rw [← heq, hcs, List.head?_cons, Option.any_some, hdigit] at hword
    cases hword
  unfold ofWord
  rw [if_neg (hnot "true" (by decide)), if_neg (hnot "false" (by decide)), if_pos]
  rw [hcs]
  exact hdigit

theorem ofDigits_toDigits (negative : Bool) (k : Nat) :
    ofDigits negative (Nat.toDigits 10 k) =
      .literal (.int (Int64.ofInt (if negative then -(k : Int) else k))) {} := by
  unfold ofDigits
  rw [Nat.ofDigitChars_ten_toDigits]

/-- An integer constant consists of digits, perhaps with a sign in front. -/
theorem toList_text_int (n : Int64) :
    (∃ k : Nat, n.toInt = k ∧ (Literal.int n).text.toList = Nat.toDigits 10 k) ∨
      ∃ k : Nat, n.toInt = -(k : Int) ∧ (Literal.int n).text.toList = '-' :: Nat.toDigits 10 k := by
  show (∃ k : Nat, n.toInt = k ∧ (Int.repr n.toInt).toList = _) ∨
    ∃ k : Nat, n.toInt = -(k : Int) ∧ (Int.repr n.toInt).toList = _
  cases n.toInt with
  | ofNat k => exact .inl ⟨k, rfl, Json.Token.toList_repr k⟩
  | negSucc k =>
      refine .inr ⟨k + 1, rfl, ?_⟩
      show ("-" ++ Nat.repr (k + 1)).toList = _
      rw [String.toList_append, Json.Token.toList_repr]
      rfl

theorem readWith_int (n : Int64) {fuel : Nat} {rest : List Char} (hrest : Text.EndsWord rest) :
    readWith (fuel + 1) ((Literal.int n).text.toList ++ rest) = some (.literal (.int n) {}, rest) := by
  rcases toList_text_int n with ⟨k, hk, htext⟩ | ⟨k, hk, htext⟩
  · rw [htext, readWith_ends Nat.toDigits_ne_nil (Text.isWordChar_of_mem_toDigits k) hrest,
      ofWord_toDigits, ofDigits_toDigits, if_neg Bool.false_ne_true, ← hk, Int64.ofInt_toInt]
  · obtain ⟨htake, hdrop⟩ := Text.cut_append (Text.isWordChar_of_mem_toDigits k)
      fun c hc => (hrest c hc).1
    rw [htext, List.cons_append]
    unfold readWith
    rw [if_neg (by decide), if_neg (by decide), if_pos rfl, htake, hdrop, ofDigits_toDigits,
      if_pos rfl, ← hk, Int64.ofInt_toInt]

theorem readWith_string (s : String) {fuel : Nat} {rest : List Char}
    (hfuel : (Literal.string s).text.toList.length ≤ fuel + 1) :
    readWith (fuel + 1) ((Literal.string s).text.toList ++ rest) =
      some (.literal (.string s) {}, rest) := by
  have htext : (Literal.string s).text.toList = '"' :: (s.toList.flatMap Text.escape ++ ['"']) := by
    simp [Literal.text, Text.constant]
  have hshort : s.toList.length < fuel := by
    have hle := Text.length_le_flatMap_escape s.toList
    simp only [htext, List.length_cons, List.length_append, List.length_nil] at hfuel
    omega
  rw [htext, List.cons_append, List.append_assoc]
  unfold readWith
  rw [if_neg (by decide), if_pos rfl]
  simp only [List.cons_append, List.nil_append, Text.readChars?_escape s.toList hshort rest,
    Option.bind_eq_bind, Option.bind_some, String.ofList_toList]
  rfl

theorem readWith_literal (value : Literal) {fuel : Nat} {rest : List Char}
    (hfuel : value.text.toList.length ≤ fuel + 1) (hrest : Text.EndsWord rest) :
    readWith (fuel + 1) (value.text.toList ++ rest) = some (.literal value {}, rest) := by
  cases value with
  | int n => exact readWith_int n hrest
  | bool b =>
      cases b with
      | true =>
          show readWith (fuel + 1) ("true".toList ++ rest) = _
          exact readWith_ends (by simp) (List.all_eq_true.mp (by decide)) hrest
      | false =>
          show readWith (fuel + 1) ("false".toList ++ rest) = _
          exact readWith_ends (by simp) (List.all_eq_true.mp (by decide)) hrest
  | string s => exact readWith_string s hfuel

theorem exists_literal_cons (value : Literal) : ∃ c cs, value.text.toList = c :: cs ∧ c ≠ ')' := by
  cases value with
  | int n =>
      rcases toList_text_int n with ⟨k, -, htext⟩ | ⟨k, -, htext⟩ <;> rw [htext]
      · exact Text.exists_word_cons Nat.toDigits_ne_nil (Text.isWordChar_of_mem_toDigits k)
      · exact ⟨'-', _, rfl, by decide⟩
  | bool b =>
      cases b with
      | true => exact ⟨'t', "rue".toList, by simp [Literal.text], by decide⟩
      | false => exact ⟨'f', "alse".toList, by simp [Literal.text], by decide⟩
  | string s =>
      refine ⟨'"', s.toList.flatMap Text.escape ++ ['"'], ?_, by decide⟩
      simp [Literal.text, Text.constant]

/-- The text of an expression has a first character, which closes nothing. -/
theorem exists_text_cons {e : Expr} (h : ∀ name ∈ e.names, Text.Identifier name) :
    ∃ c cs, e.text.toList = c :: cs ∧ c ≠ ')' := by
  cases e with
  | var ident location =>
      have hident : Text.Identifier ident := h ident List.mem_cons_self
      exact Text.exists_word_cons hident.ne_nil hident.word
  | literal value location => exact exists_literal_cons value
  | call ident args location =>
      have hident : Text.Identifier ident := h ident List.mem_cons_self
      obtain ⟨c, cs, hcs, hc⟩ := Text.exists_word_cons hident.ne_nil hident.word
      refine ⟨c, cs ++ ("(" ++ Text.commaList (texts args) ++ ")").toList, ?_, hc⟩
      simp [text, hcs]
  | binary lhs op rhs location =>
      refine ⟨'(', (text lhs ++ " " ++ op.text ++ " " ++ text rhs ++ ")").toList, ?_, by decide⟩
      simp [text]

theorem endsWord_commaTail (codes : List String) (rest : List Char) :
    Text.EndsWord ((Text.commaTail codes).toList ++ ')' :: rest) := by
  cases codes with
  | nil => exact .of_cons (by decide)
  | cons code codes =>
      simp only [Text.commaTail, String.toList_append, List.append_assoc]
      exact .of_cons (by decide)

-- The induction is on the expression. Each call of the reader takes a character off the text before the
-- next one, so that the length of the text is fuel enough.
mutual

/-- The text of an expression is read back in front of everything that does not continue a word. -/
theorem readWith_text : ∀ (e : Expr) (fuel : Nat) (rest : List Char),
    (∀ name ∈ e.names, Text.Identifier name) → e.text.toList.length ≤ fuel → Text.EndsWord rest →
      readWith fuel (e.text.toList ++ rest) = some (e.bare, rest)
  | .var ident location, fuel, rest, hnames, hfuel, hrest => by
      have hident : Text.Identifier ident := hnames ident List.mem_cons_self
      obtain ⟨fuel, rfl⟩ := Nat.exists_eq_add_one.mpr
        (Nat.lt_of_lt_of_le (List.length_pos_iff.mpr hident.ne_nil) hfuel)
      rw [text, readWith_ends hident.ne_nil hident.word hrest, ofWord_ident hident, bare]
  | .literal value location, fuel, rest, hnames, hfuel, hrest => by
      have hpos : 0 < value.text.toList.length := by
        obtain ⟨c, cs, hcs, -⟩ := exists_literal_cons value
        simp [hcs]
      obtain ⟨fuel, rfl⟩ := Nat.exists_eq_add_one.mpr (Nat.lt_of_lt_of_le hpos hfuel)
      exact readWith_literal value hfuel hrest
  | .call ident args location, fuel, rest, hnames, hfuel, hrest => by
      obtain ⟨hident, hargs⟩ := List.forall_mem_cons.mp hnames
      have htext : (Expr.call ident args location).text.toList =
          ident.toList ++ '(' :: ((Text.commaList (texts args)).toList ++ [')']) := by
        simp [text]
      rw [htext] at hfuel ⊢
      simp only [List.length_append, List.length_cons, List.length_nil] at hfuel
      obtain ⟨fuel, rfl⟩ : ∃ k, fuel = k + 1 := Nat.exists_eq_add_one.mpr (by omega)
      have hread := readArgs_texts args fuel rest hargs (by omega)
      simp only [List.append_assoc, List.cons_append, List.nil_append]
      rw [readWith_call hident.ne_nil hident.word, String.ofList_toList, hread]
      rfl
  | .binary lhs op rhs location, fuel, rest, hnames, hfuel, hrest => by
      obtain ⟨hlhs, hrhs⟩ := List.forall_mem_append.mp hnames
      have htext : (Expr.binary lhs op rhs location).text.toList =
          '(' :: (lhs.text.toList ++ ' ' :: (op.text.toList ++ ' ' :: (rhs.text.toList ++ [')']))) := by
        simp [text, String.toList_append]
      rw [htext] at hfuel ⊢
      simp only [List.length_cons, List.length_append] at hfuel
      obtain ⟨fuel, rfl⟩ : ∃ k, fuel = k + 1 := Nat.exists_eq_add_one.mpr (by omega)
      have hleft := readWith_text lhs fuel
        (' ' :: (op.text.toList ++ ' ' :: (rhs.text.toList ++ ')' :: rest))) hlhs (by omega)
        (.of_cons (by decide))
      have hright := readWith_text rhs fuel (')' :: rest) hrhs (by omega) (.of_cons (by decide))
      simp only [List.cons_append, List.append_assoc, List.nil_append]
      unfold readWith
      rw [if_pos rfl, hleft]
      simp only [Option.bind_eq_bind, Option.bind_some, readOperator?_text, hright]
      rfl

theorem readArgs_texts : ∀ (es : List Expr) (fuel : Nat) (rest : List Char),
    (∀ name ∈ namesAll es, Text.Identifier name) →
    (Text.commaList (texts es)).toList.length < fuel →
      readArgs fuel ((Text.commaList (texts es)).toList ++ ')' :: rest) = some (bareAll es, rest)
  | [], fuel, rest, _, hfuel => by
      obtain ⟨fuel, rfl⟩ := Nat.exists_eq_add_one.mpr (Nat.zero_lt_of_lt hfuel)
      rfl
  | e :: es, fuel, rest, hnames, hfuel => by
      obtain ⟨he, hes⟩ := List.forall_mem_append.mp hnames
      obtain ⟨c, cs, hcs, hc⟩ := exists_text_cons he
      have htext : (Text.commaList (texts (e :: es))).toList =
          e.text.toList ++ (Text.commaTail (texts es)).toList := by
        simp [texts, Text.commaList_cons]
      have hopen : (e.text.toList ++ ((Text.commaTail (texts es)).toList ++ ')' :: rest)).head? ≠
          some ')' := by
        simpa [hcs] using hc
      have hpos : 0 < e.text.toList.length := by simp [hcs]
      rw [htext] at hfuel ⊢
      rw [List.length_append] at hfuel
      obtain ⟨fuel, rfl⟩ : ∃ k, fuel = k + 1 := Nat.exists_eq_add_one.mpr (by omega)
      have hfirst := readWith_text e fuel ((Text.commaTail (texts es)).toList ++ ')' :: rest) he
        (by omega) (endsWord_commaTail (texts es) rest)
      have hmore := readMore_texts es fuel rest hes (by omega)
      rw [List.append_assoc]
      unfold readArgs
      rw [if_neg hopen, hfirst]
      simp only [Option.bind_eq_bind, Option.bind_some, hmore]
      rfl

theorem readMore_texts : ∀ (es : List Expr) (fuel : Nat) (rest : List Char),
    (∀ name ∈ namesAll es, Text.Identifier name) →
    (Text.commaTail (texts es)).toList.length < fuel →
      readMore fuel ((Text.commaTail (texts es)).toList ++ ')' :: rest) = some (bareAll es, rest)
  | [], fuel, rest, _, hfuel => by
      obtain ⟨fuel, rfl⟩ := Nat.exists_eq_add_one.mpr (Nat.zero_lt_of_lt hfuel)
      rfl
  | e :: es, fuel, rest, hnames, hfuel => by
      obtain ⟨he, hes⟩ := List.forall_mem_append.mp hnames
      have htext : (Text.commaTail (texts (e :: es))).toList =
          ',' :: ' ' :: (e.text.toList ++ (Text.commaTail (texts es)).toList) := by
        simp [texts, Text.commaTail]
      rw [htext] at hfuel ⊢
      simp only [List.length_append, List.length_cons] at hfuel
      obtain ⟨fuel, rfl⟩ : ∃ k, fuel = k + 1 := Nat.exists_eq_add_one.mpr (by omega)
      have hfirst := readWith_text e fuel ((Text.commaTail (texts es)).toList ++ ')' :: rest) he
        (by omega) (endsWord_commaTail (texts es) rest)
      have hmore := readMore_texts es fuel rest hes (by omega)
      simp only [List.append_assoc, List.cons_append]
      unfold readMore
      simp only [hfirst, Option.bind_eq_bind, Option.bind_some, hmore]
      rfl

end

/-- The text of an expression is read back as the expression. -/
theorem read?_text {e : Expr} (h : ∀ name ∈ e.names, Text.Identifier name) :
    read? e.text = some e.bare := by
  have hends : Text.EndsWord [] := by rintro _ ⟨⟩
  have hread := readWith_text e _ [] h (Nat.le_refl _) hends
  rw [List.append_nil] at hread
  unfold read?
  rw [hread]

mutual

theorem text_bare : ∀ e : Expr, e.bare.text = e.text
  | .var .. => rfl
  | .literal .. => rfl
  | .call ident args location => by simp only [bare, text, texts_bareAll]
  | .binary lhs op rhs location => by simp only [bare, text, text_bare lhs, text_bare rhs]

theorem texts_bareAll : ∀ es : List Expr, texts (bareAll es) = texts es
  | [] => rfl
  | e :: es => by simp only [bareAll, texts, text_bare e, texts_bareAll es]

end

/-- The code of an accepted expression is read back as the expression without its locations. So two
accepted expressions, checked against any tables and machines that the operations make, have the same code
exactly if they are the same up to locations. -/
theorem compile_unambiguous {t t' : SymbolTable} {m m' : Option StateMachine} {e e' : Expr}
    {code code' : String} {τ τ' : TypeSymbol} (ht : t.Keyed) (ht' : t'.Keyed)
    (hm : ∀ machine, m = some machine → machine.roster.Valid)
    (hm' : ∀ machine, m' = some machine → machine.roster.Valid)
    (h : e.compile t m = .ok (code, τ)) (h' : e'.compile t' m' = .ok (code', τ'))
    (hnames : ∀ name ∈ e.names, Text.Identifier name)
    (hnames' : ∀ name ∈ e'.names, Text.Identifier name) :
    read? code = some e.bare ∧ read? code' = some e'.bare ∧ (code = code' ↔ e.bare = e'.bare) := by
  rw [compile_eq_infer ht hm e] at h
  rw [compile_eq_infer ht' hm' e'] at h'
  obtain ⟨_, -, heq⟩ := map_eq_ok.mp h
  obtain ⟨_, -, heq'⟩ := map_eq_ok.mp h'
  obtain ⟨rfl, rfl⟩ := Prod.mk.inj heq
  obtain ⟨rfl, rfl⟩ := Prod.mk.inj heq'
  have hread : read? e.text = some e.bare := read?_text hnames
  have hread' : read? e'.text = some e'.bare := read?_text hnames'
  refine ⟨hread, hread', fun hsame => Option.some.inj ?_, fun hsame => ?_⟩
  · calc
      some e.bare = read? e.text := hread.symm
      _ = read? e'.text := by rw [hsame]
      _ = some e'.bare := hread'
  · calc
      e.text = e.bare.text := (text_bare e).symm
      _ = e'.bare.text := by rw [hsame]
      _ = e'.text := text_bare e'

/-- A table with the types of constants, a number `n` and a function on strings and numbers. -/
def logTable : SymbolTable :=
  let int : TypeSymbol := .builtin intName none
  let string : TypeSymbol := .builtin stringName none
  ((((SymbolTable.initial.bind (.type int)).bind (.type (.builtin boolName none))).bind
    (.type string)).bind (.func
      { ident := "log", returnType := int, params := [⟨string, "s"⟩, ⟨int, "n"⟩] })).push.bind
    (.var { ident := "n", type := int })

/-- A call whose first argument holds a comma, a parenthesis and a quote, compared with a difference. -/
def logged (location : Location) : Expr :=
  .binary (.call "log" [.literal (.string "\", 1)") location, .literal (.int (-2)) {}] location) .ltEq
    (.binary (.var "n" location) .sub (.literal (.int (-2)) {}) {}) {}

def loggedText : String := "(log(\"\\\", 1)\", -2) <= (n - -2))"

/-- Wherever it stands, it has this code, and the code is read back as the expression. -/
theorem compile_unambiguous_logged :
    (logged {}).compile logTable none = .ok (loggedText, .builtin boolName none) ∧
    (logged { file := "log.json", line := 3, column := 5 }).compile logTable none =
      .ok (loggedText, .builtin boolName none) ∧
    (logged { file := "log.json", line := 3, column := 5 }).bare = (logged {}).bare ∧
    read? loggedText = some (logged {}) := by
  have hkeyed : logTable.Keyed :=
    (((((SymbolTable.Sound.initial.keyed.bind _).bind _).bind _).bind _).push).bind _
  have hvalid : ∀ machine : StateMachine, none = some machine → machine.roster.Valid := by
    rintro _ ⟨⟩
  have hcode : ∀ location, (logged location).compile logTable none =
      .ok (loggedText, .builtin boolName none) := by
    intro location
    rfl
  have hnames : ∀ location, ∀ name ∈ (logged location).names, Text.Identifier name := by
    intro location
    show ∀ name ∈ ["log", "n"], Text.Identifier name
    decide
  obtain ⟨hread, -, hsame⟩ := compile_unambiguous hkeyed hkeyed hvalid hvalid
    (hcode {}) (hcode { file := "log.json", line := 3, column := 5 }) (hnames _) (hnames _)
  exact ⟨hcode _, hcode _, (hsame.mp rfl).symm, hread⟩

end Expr

end Coherence
