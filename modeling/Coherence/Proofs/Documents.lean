import Coherence.Proofs.Grammar
/-!
# Reading a written document

The text of a document is made of the tokens of the document, however its strings are written
(`Json.spaced_textWith`), and these tokens stand for the document (`Json.stands_tokens`). So the text holds
the document, and is read as it (`Json.parse?_textWith`).
-/

namespace Coherence.Json

/-! ### Texts -/

section textWith

variable (quote : String → String)

mutual

/-- The text of a document, with a way to write strings. -/
def textWith : Json → String
  | .null => "null"
  | .bool true => "true"
  | .bool false => "false"
  | .number n => Int.repr n
  | .string s => quote s
  | .array items => "[" ++ itemsTextWith items ++ "]"
  | .object members => "\x7b" ++ membersTextWith members ++ "\x7d"
  | .unreadable => "-0"

def itemsTextWith : List Json → String
  | [] => ""
  | [v] => textWith v
  | v :: w :: rest => textWith v ++ "," ++ itemsTextWith (w :: rest)

def membersTextWith : List (String × Json) → String
  | [] => ""
  | [(name, v)] => quote name ++ ":" ++ textWith v
  | (name, v) :: m :: rest => quote name ++ ":" ++ textWith v ++ "," ++ membersTextWith (m :: rest)

end

end textWith

mutual

theorem textWith_quoted : ∀ j : Json, textWith quoted j = text j
  | .null => rfl
  | .bool true => rfl
  | .bool false => rfl
  | .number n => rfl
  | .string s => rfl
  | .array items => by rw [textWith, text, itemsTextWith_quoted items]
  | .object members => by rw [textWith, text, membersTextWith_quoted members]
  | .unreadable => rfl

theorem itemsTextWith_quoted : ∀ items : List Json, itemsTextWith quoted items = itemsText items
  | [] => rfl
  | [v] => textWith_quoted v
  | v :: w :: rest => by
      rw [itemsTextWith, itemsText, textWith_quoted v, itemsTextWith_quoted (w :: rest)]

theorem membersTextWith_quoted : ∀ members : List (String × Json),
    membersTextWith quoted members = membersText members
  | [] => rfl
  | [(name, v)] => by rw [membersTextWith, membersText, textWith_quoted v]
  | (name, v) :: m :: rest => by
      rw [membersTextWith, membersText, textWith_quoted v, membersTextWith_quoted (m :: rest)]

end

mutual

/-- The tokens of a document. -/
def tokens : Json → List Token
  | .null => [.null]
  | .bool b => [.bool b]
  | .number n => [.number (some n)]
  | .string s => [.string (some s)]
  | .array items => .leftBracket :: (itemsTokens items ++ [.rightBracket])
  | .object members => .leftBrace :: (membersTokens members ++ [.rightBrace])
  | .unreadable => [.number none]

def itemsTokens : List Json → List Token
  | [] => []
  | [v] => tokens v
  | v :: w :: rest => tokens v ++ .comma :: itemsTokens (w :: rest)

def membersTokens : List (String × Json) → List Token
  | [] => []
  | [(name, v)] => .string (some name) :: .colon :: tokens v
  | (name, v) :: m :: rest =>
    .string (some name) :: .colon :: (tokens v ++ .comma :: membersTokens (m :: rest))

end

open Token

mutual

/-- The text of a document has the tokens of the document, in front of a text that ends a number. -/
theorem spaced_textWith {quote : String → String} (hquote : ∀ s, Quotes (quote s) s) :
    ∀ (j : Json) (rest : List Char) {ts : List Token}, Delimits rest → Spaced ts rest →
    Spaced (tokens j ++ ts) ((textWith quote j).toList ++ rest)
  | .null, rest, _, _, h => by
      rw [textWith, tokens]
      exact .token .null h
  | .bool true, rest, _, _, h => by
      rw [textWith, tokens]
      exact .token .true h
  | .bool false, rest, _, _, h => by
      rw [textWith, tokens]
      exact .token .false h
  | .number n, _, _, hd, h => by
      rw [textWith, tokens]
      exact .token (lexeme_repr n hd) h
  | .string s, _, _, _, h => by
      rw [textWith, tokens]
      exact .token (lexeme_quotes (hquote s) _) h
  | .array items, rest, ts, _, h => by
      have hitems := spaced_itemsTextWith hquote items (']' :: rest) (delimits_cons (by decide))
        (.token .rightBracket h)
      rw [textWith, tokens, String.toList_append, String.toList_append, List.append_assoc,
        List.append_assoc, List.cons_append, List.append_assoc]
      exact .token .leftBracket hitems
  | .object members, rest, ts, _, h => by
      have hmembers := spaced_membersTextWith hquote members ('\x7d' :: rest)
        (delimits_cons (by decide)) (.token .rightBrace h)
      rw [textWith, tokens, String.toList_append, String.toList_append, List.append_assoc,
        List.append_assoc, List.cons_append, List.append_assoc]
      exact .token .leftBrace hmembers
  | .unreadable, rest, _, hd, h => by
      rw [textWith, tokens]
      exact .token (.negative (number_toDigits true 0 hd)) h

theorem spaced_itemsTextWith {quote : String → String} (hquote : ∀ s, Quotes (quote s) s) :
    ∀ (items : List Json) (rest : List Char) {ts : List Token}, Delimits rest → Spaced ts rest →
    Spaced (itemsTokens items ++ ts) ((itemsTextWith quote items).toList ++ rest)
  | [], _, _, _, h => h
  | [v], rest, _, hd, h => spaced_textWith hquote v rest hd h
  | v :: w :: items, rest, ts, hd, h => by
      have hitems := spaced_itemsTextWith hquote (w :: items) rest hd h
      have hv := spaced_textWith hquote v (',' :: ((itemsTextWith quote (w :: items)).toList ++ rest))
        (delimits_cons (by decide)) (.token .comma hitems)
      rw [itemsTextWith, itemsTokens, String.toList_append, String.toList_append, List.append_assoc,
        List.append_assoc, List.append_assoc]
      exact hv

theorem spaced_membersTextWith {quote : String → String} (hquote : ∀ s, Quotes (quote s) s) :
    ∀ (members : List (String × Json)) (rest : List Char) {ts : List Token}, Delimits rest →
    Spaced ts rest → Spaced (membersTokens members ++ ts) ((membersTextWith quote members).toList ++ rest)
  | [], _, _, _, h => h
  | [(name, v)], rest, ts, hd, h => by
      have hv := spaced_textWith hquote v rest hd h
      rw [membersTextWith, membersTokens, String.toList_append, String.toList_append, List.append_assoc,
        List.append_assoc]
      exact .token (lexeme_quotes (hquote name) _) (.token .colon hv)
  | (name, v) :: m :: members, rest, ts, hd, h => by
      have hmembers := spaced_membersTextWith hquote (m :: members) rest hd h
      have hv := spaced_textWith hquote v
        (',' :: ((membersTextWith quote (m :: members)).toList ++ rest))
        (delimits_cons (by decide)) (.token .comma hmembers)
      rw [membersTextWith, membersTokens, String.toList_append, String.toList_append,
        String.toList_append, String.toList_append, List.append_assoc, List.append_assoc,
        List.append_assoc, List.append_assoc, List.cons_append, List.cons_append, List.append_assoc]
      exact .token (lexeme_quotes (hquote name) _) (.token .colon hv)

end

/-! ### Tokens -/

/-- Reading undoes writing item by item. -/
theorem mapM_map_eq_some {α β : Type} {f : β → Option α} {g : α → β} {xs : List α}
    (h : ∀ x ∈ xs, f (g x) = some x) : (xs.map g).mapM f = some xs := by
  induction xs with
  | nil => rfl
  | cons x xs ih =>
      obtain ⟨hx, hxs⟩ := List.forall_mem_cons.mp h
      rw [List.map_cons, List.mapM_cons, hx, ih hxs]
      rfl

/-- Names that were read spoil no object. -/
theorem ofMembers_some (members : List (String × Json)) :
    ofMembers (members.map fun m => (some m.1, m.2)) = .object members := by
  have hnames : (members.map fun m => (some m.1, m.2)).mapM
      (fun (m : Option String × Json) => m.1.map (·, m.2)) = some members :=
    mapM_map_eq_some fun _ _ => rfl
  unfold ofMembers
  rw [hnames]

mutual

/-- The tokens of a document stand for the document. -/
theorem stands_tokens : ∀ (j : Json) (rest : List Token), Stands j (tokens j ++ rest) rest
  | .null, _ => by
      rw [tokens]
      exact .null
  | .bool _, _ => by
      rw [tokens]
      exact .bool
  | .number _, _ => by
      rw [tokens]
      exact .number
  | .string _, _ => by
      rw [tokens]
      exact .string
  | .array [], _ => by
      rw [tokens]
      exact .emptyArray
  | .array (v :: items), rest => by
      rw [tokens, List.cons_append, List.append_assoc]
      exact .array (itemsStand_tokens (v :: items) rest nofun)
  | .object [], _ => by
      rw [tokens]
      exact .emptyObject
  | .object ((name, v) :: members), rest => by
      rw [tokens, List.cons_append, List.append_assoc]
      exact .object (membersStand_tokens ((name, v) :: members) rest nofun) (ofMembers_some _)
  | .unreadable, _ => by
      rw [tokens]
      exact .unreadableNumber

theorem itemsStand_tokens : ∀ (items : List Json) (rest : List Token), items ≠ [] →
    ItemsStand items (itemsTokens items ++ .rightBracket :: rest) rest
  | [], _, h => absurd rfl h
  | [v], rest, _ => .last (stands_tokens v _)
  | v :: w :: items, rest, _ => by
      rw [itemsTokens, List.append_assoc]
      exact .more (stands_tokens v _) (itemsStand_tokens (w :: items) rest nofun)

theorem membersStand_tokens : ∀ (members : List (String × Json)) (rest : List Token), members ≠ [] →
    MembersStand (members.map fun m => (some m.1, m.2))
      (membersTokens members ++ .rightBrace :: rest) rest
  | [], _, h => absurd rfl h
  | [(name, v)], rest, _ => .last (stands_tokens v _)
  | (name, v) :: m :: members, rest, _ => by
      rw [membersTokens, List.cons_append, List.cons_append, List.append_assoc]
      exact .more (stands_tokens v _) (membersStand_tokens (m :: members) rest nofun)

end

/-- A written text holds its document, however its strings are written. -/
theorem holds_textWith {quote : String → String} (hquote : ∀ s, Token.Quotes (quote s) s) (j : Json) :
    Holds (textWith quote j) j := by
  have hspaced := spaced_textWith hquote j [] nofun .nil
  have hstands := stands_tokens j []
  simp only [List.append_nil] at hspaced hstands
  exact ⟨tokens j, hspaced, hstands⟩

/-- A written document is read as itself, however its strings are written. -/
theorem parse?_textWith {quote : String → String} (hquote : ∀ s, Token.Quotes (quote s) s) (j : Json) :
    parse? (textWith quote j) = some j := (holds_textWith hquote j).parse?

/-! ### Nesting -/

/-- The number of brackets open after a token, if `depth` were open before it. -/
def Token.depthAfter (depth : Nat) : Token → Nat
  | .leftBracket => depth + 1
  | .leftBrace => depth + 1
  | .rightBracket => depth - 1
  | .rightBrace => depth - 1
  | _ => depth

/-- The greatest number of brackets open at once in a list of tokens, if `depth` are open before it. -/
def Token.deepest (depth : Nat) : List Token → Nat
  | [] => depth
  | t :: ts => max depth (deepest (t.depthAfter depth) ts)

/-- The greatest number of brackets open at once in a text. -/
def nestingOf (text : String) : Nat := ((Token.scan? text.toList).map (Token.deepest 0)).getD 0

mutual

/-- The greatest number of brackets open at once in a document. -/
def nesting : Json → Nat
  | .array items => nestingOfItems items + 1
  | .object members => nestingOfMembers members + 1
  | _ => 0

/-- The greatest number of brackets open at once in a document of a list. -/
def nestingOfItems : List Json → Nat
  | [] => 0
  | v :: rest => max (nesting v) (nestingOfItems rest)

/-- The greatest number of brackets open at once in a member of a list. -/
def nestingOfMembers : List (String × Json) → Nat
  | [] => 0
  | (_, v) :: rest => max (nesting v) (nestingOfMembers rest)

end

namespace Token

theorem le_deepest (depth : Nat) (ts : List Token) : depth ≤ deepest depth ts := by
  cases ts with
  | nil => exact Nat.le_refl _
  | cons t ts => exact Nat.le_max_left _ _

/-- A token that is no bracket does not count. -/
theorem deepest_cons {t : Token} {depth : Nat} (h : t.depthAfter depth = depth) (ts : List Token) :
    deepest depth (t :: ts) = deepest depth ts := by
  rw [deepest, h]
  exact Nat.max_eq_right (le_deepest depth ts)

theorem deepest_leaf {t : Token} {depth : Nat} (h : t.depthAfter depth = depth) (ts : List Token) :
    deepest depth ([t] ++ ts) = max (depth + 0) (deepest depth ts) := by
  rw [List.singleton_append, deepest, h, Nat.add_zero]

end Token

open Token

mutual

/-- The tokens of a document nest as deeply as the document. -/
theorem deepest_tokens : ∀ (j : Json) (depth : Nat) (ts : List Token),
    deepest depth (tokens j ++ ts) = max (depth + nesting j) (deepest depth ts)
  | .null, depth, ts => by
      rw [tokens, nesting.eq_def]
      exact deepest_leaf rfl ts
  | .bool b, depth, ts => by
      rw [tokens, nesting.eq_def]
      exact deepest_leaf rfl ts
  | .number n, depth, ts => by
      rw [tokens, nesting.eq_def]
      exact deepest_leaf rfl ts
  | .string s, depth, ts => by
      rw [tokens, nesting.eq_def]
      exact deepest_leaf rfl ts
  | .array items, depth, ts => by
      have hitems := deepest_itemsTokens items (depth + 1) (.rightBracket :: ts)
      have hts := le_deepest depth ts
      rw [tokens, nesting, List.cons_append, List.append_assoc, List.singleton_append, deepest, depthAfter,
        hitems, deepest, depthAfter, Nat.add_sub_cancel]
      omega
  | .object members, depth, ts => by
      have hmembers := deepest_membersTokens members (depth + 1) (.rightBrace :: ts)
      rw [tokens, nesting, List.cons_append, List.append_assoc, List.singleton_append, deepest, depthAfter,
        hmembers, deepest, depthAfter, Nat.add_sub_cancel]
      omega
  | .unreadable, depth, ts => by
      rw [tokens, nesting.eq_def]
      exact deepest_leaf rfl ts

theorem deepest_itemsTokens : ∀ (items : List Json) (depth : Nat) (ts : List Token),
    deepest depth (itemsTokens items ++ ts) = max (depth + nestingOfItems items) (deepest depth ts)
  | [], depth, ts => (Nat.max_eq_right (le_deepest depth ts)).symm
  | [v], depth, ts => by
      rw [itemsTokens, nestingOfItems, nestingOfItems, Nat.max_zero]
      exact deepest_tokens v depth ts
  | v :: w :: items, depth, ts => by
      rw [itemsTokens, List.append_assoc, deepest_tokens v, List.cons_append, deepest_cons rfl,
        deepest_itemsTokens (w :: items), nestingOfItems.eq_2 v]
      omega

theorem deepest_membersTokens : ∀ (members : List (String × Json)) (depth : Nat) (ts : List Token),
    deepest depth (membersTokens members ++ ts) =
      max (depth + nestingOfMembers members) (deepest depth ts)
  | [], depth, ts => (Nat.max_eq_right (le_deepest depth ts)).symm
  | [(name, v)], depth, ts => by
      rw [membersTokens, nestingOfMembers, nestingOfMembers, Nat.max_zero, List.cons_append,
        List.cons_append, deepest_cons rfl, deepest_cons rfl]
      exact deepest_tokens v depth ts
  | (name, v) :: m :: members, depth, ts => by
      rw [membersTokens, List.cons_append, List.cons_append, deepest_cons rfl, deepest_cons rfl,
        List.append_assoc, deepest_tokens v, List.cons_append, deepest_cons rfl,
        deepest_membersTokens (m :: members), nestingOfMembers.eq_2 name v]
      omega

end

/-- The text of a document nests as deeply as the document. -/
theorem nestingOf_textWith {quote : String → String} (hquote : ∀ s, Quotes (quote s) s) (j : Json) :
    nestingOf (textWith quote j) = nesting j := by
  have hscan := (spaced_textWith hquote j [] nofun .nil).scan?
  rw [List.append_nil] at hscan
  have hdeepest := deepest_tokens j 0 []
  unfold nestingOf
  rw [hscan, Option.map_some, Option.getD_some, hdeepest, deepest, Nat.zero_add, Nat.max_zero]

end Coherence.Json
