import Coherence.Proofs.Tokens
/-!
# The grammar of documents

The texts that hold a document, without fuel: what a token looks like in front of a text (`Token.Lexeme`),
tokens with blanks between them (`Token.Spaced`), and the tokens of a value (`Stands`). Blanks may stand
between any two tokens; numbers may have fractions and exponents, strings any of the escapes, and halves
of surrogate pairs may stand alone, which makes the value one without content. A text is read as the
document that it holds, and not read if it holds none (`parse?_eq_some_iff`).
-/

namespace Coherence.Json

namespace Token

/-! ### Tokens -/

/-- The text goes on with the token, then with `rest`. -/
inductive Lexeme : Token → (text rest : List Char) → Prop
  | leftBracket {rest} : Lexeme .leftBracket ('[' :: rest) rest
  | rightBracket {rest} : Lexeme .rightBracket (']' :: rest) rest
  | leftBrace {rest} : Lexeme .leftBrace ('\x7b' :: rest) rest
  | rightBrace {rest} : Lexeme .rightBrace ('\x7d' :: rest) rest
  | comma {rest} : Lexeme .comma (',' :: rest) rest
  | colon {rest} : Lexeme .colon (':' :: rest) rest
  | null {rest} : Lexeme .null ('n' :: 'u' :: 'l' :: 'l' :: rest) rest
  | true {rest} : Lexeme (.bool true) ('t' :: 'r' :: 'u' :: 'e' :: rest) rest
  | false {rest} : Lexeme (.bool false) ('f' :: 'a' :: 'l' :: 's' :: 'e' :: rest) rest
  | positive {value text rest} : Number .false value text rest → Lexeme (.number value) text rest
  | negative {value text rest} :
      Number .true value text rest → Lexeme (.number value) ('-' :: text) rest
  | string {us text rest} :
      Units text us rest → Lexeme (.string (joinHalves? [] us)) ('"' :: text) rest

theorem Lexeme.scan? {t : Token} {text rest : List Char} (h : Lexeme t text rest) {ts : List Token}
    (hrest : scan? rest = some ts) : scan? text = some (t :: ts) := by
  cases h with
  | positive h =>
      obtain ⟨c, cs, rfl, hc⟩ : ∃ c cs, text = c :: cs ∧ c.isDigit = .true := by
        obtain ⟨digits, ⟨hne, hdigits⟩⟩ := h
        obtain ⟨c, cs, rfl⟩ := List.exists_cons_of_ne_nil hne
        exact ⟨c, _, rfl, hdigits c List.mem_cons_self⟩
      exact scan?_token (isBlank_digit hc) ((next?_digit hc cs).trans h.number?) hrest
  | negative h => exact scan?_token (c := '-') rfl h.number? hrest
  | string h => exact scan?_token (c := '"') rfl h.string? hrest
  | _ => exact scan?_token rfl rfl hrest

/-- The text is made of these tokens, with blanks in front of each of them and at the end. -/
inductive Spaced : List Token → List Char → Prop
  | nil : Spaced [] []
  | blank {c ts cs} : isBlank c = true → Spaced ts cs → Spaced ts (c :: cs)
  | token {t ts cs rest} : Lexeme t cs rest → Spaced ts rest → Spaced (t :: ts) cs

theorem Spaced.scan? {ts : List Token} {cs : List Char} (h : Spaced ts cs) : scan? cs = some ts := by
  induction h with
  | nil => exact scan?_nil
  | blank hc _ ih => exact (scan?_blank hc _).trans ih
  | token hlexeme _ ih => exact hlexeme.scan? ih

theorem lexeme_quotes {text s : String} (h : Quotes text s) (rest : List Char) :
    Lexeme (.string (some s)) (text.toList ++ rest) rest := by
  obtain ⟨cs, htext, hspells⟩ := h
  obtain ⟨us, hunits, hjoin⟩ := hspells.units rest
  have hlexeme := Lexeme.string hunits
  rw [hjoin, List.reverse_nil, List.nil_append, String.ofList_toList] at hlexeme
  rw [htext, List.cons_append, List.append_assoc]
  exact hlexeme

theorem lexeme_repr (n : Int) {rest : List Char} (h : Delimits rest) :
    Lexeme (.number (some n)) ((Int.repr n).toList ++ rest) rest := by
  cases n with
  | ofNat n =>
      have hnumber := number_toDigits .false n h
      show Lexeme _ ((Nat.repr n).toList ++ rest) rest
      rw [toList_repr]
      exact .positive hnumber
  | negSucc n =>
      have hnumber := number_toDigits .true (n + 1) h
      show Lexeme _ (("-" ++ Nat.repr (n + 1)).toList ++ rest) rest
      rw [String.toList_append, toList_repr, List.append_assoc]
      exact .negative hnumber

/-! ### Tokens that are read -/

/-- A text of tokens does not start with a character that no token starts with. -/
theorem Spaced.head_ne {ts : List Token} {rest : List Char} (h : Spaced ts rest) {d : Char}
    (hblank : isBlank d = false) (hnext : ∀ cs, next? d cs = none) : ∀ c ∈ rest.head?, c ≠ d := by
  rintro c hc rfl
  obtain ⟨cs, rfl⟩ := List.head?_eq_some_iff.mp hc
  have hscan : scanWith (cs.length + 1) (c :: cs) = some ts := h.scan?
  rw [scanWith, hblank, hnext] at hscan
  cases hscan

/-- What stands in front of tokens does not continue a number, unless it is a digit. -/
theorem Spaced.delimits {ts : List Token} {rest : List Char} (h : Spaced ts rest)
    (hdigit : ∀ c ∈ rest.head?, c.isDigit = false) : Delimits rest := fun c hc =>
  ⟨hdigit c hc, h.head_ne rfl (fun _ => rfl) c hc, h.head_ne rfl (fun _ => rfl) c hc,
    h.head_ne rfl (fun _ => rfl) c hc⟩

/-- Where a run of digits ends, no digit follows. -/
theorem head?_dropWhile_isDigit (cs : List Char) :
    ∀ c ∈ (cs.dropWhile Char.isDigit).head?, c.isDigit = false := by
  intro c hc
  have hnot := List.head?_dropWhile_not Char.isDigit cs
  rw [hc] at hnot
  simpa using hnot

theorem digits_of_dropDigits? {cs rest : List Char} (h : dropDigits? cs = some rest) :
    ∃ digits, cs = digits ++ rest ∧ Digits digits ∧ ∀ c ∈ rest.head?, c.isDigit = false := by
  unfold dropDigits? at h
  split at h
  · cases h
  · rename_i c cs
    split at h
    · rename_i hc
      cases h
      refine ⟨c :: cs.takeWhile Char.isDigit, ?_, ⟨nofun, ?_⟩, head?_dropWhile_isDigit cs⟩
      · rw [List.cons_append, List.takeWhile_append_dropWhile]
      · exact List.forall_mem_cons.mpr ⟨hc, fun d hd => List.all_eq_true.mp List.all_takeWhile d hd⟩
    · cases h

theorem fraction_of_dropFraction? {cs rest : List Char} {present : Bool}
    (h : dropFraction? cs = some (present, rest)) (hcs : ∀ c ∈ cs.head?, c.isDigit = false) :
    Fraction present cs rest ∧ ∀ c ∈ rest.head?, c.isDigit = false := by
  unfold dropFraction? at h
  split at h
  · obtain ⟨rest', hdigits, heq⟩ := Option.map_eq_some_iff.mp h
    cases heq
    obtain ⟨digits, rfl, hdigits, hends⟩ := digits_of_dropDigits? hdigits
    exact ⟨.present digits hdigits, hends⟩
  · cases h
    exact ⟨.absent, hcs⟩

theorem dropSign_eq (cs : List Char) :
    ∃ sign, (sign = [] ∨ sign = ['+'] ∨ sign = ['-']) ∧ cs = sign ++ Text.dropSign cs := by
  unfold Text.dropSign
  split
  · exact ⟨['+'], .inr (.inl rfl), rfl⟩
  · exact ⟨['-'], .inr (.inr rfl), rfl⟩
  · exact ⟨[], .inl rfl, rfl⟩

theorem exponent_of_dropExponent? {cs rest : List Char} {present : Bool}
    (h : dropExponent? cs = some (present, rest)) (hcs : ∀ c ∈ cs.head?, c.isDigit = false) :
    Exponent present cs rest ∧ ∀ c ∈ rest.head?, c.isDigit = false := by
  have hpresent : ∀ e cs, (e = 'e' ∨ e = 'E') →
      (dropDigits? (Text.dropSign cs)).map (true, ·) = some (present, rest) →
      Exponent present (e :: cs) rest ∧ ∀ c ∈ rest.head?, c.isDigit = false := by
    intro e cs he h
    obtain ⟨rest', hdigits, heq⟩ := Option.map_eq_some_iff.mp h
    cases heq
    obtain ⟨digits, hcs, hdigits, hends⟩ := digits_of_dropDigits? hdigits
    obtain ⟨sign, hsign, hsplit⟩ := dropSign_eq cs
    rw [hsplit, hcs]
    exact ⟨.present e sign digits he hsign hdigits, hends⟩
  unfold dropExponent? at h
  split at h
  · exact hpresent 'e' _ (.inl rfl) h
  · exact hpresent 'E' _ (.inr rfl) h
  · cases h
    exact ⟨.absent, hcs⟩

theorem number_of_number? {negative : Bool} {cs rest : List Char} {t : Token} {ts : List Token}
    (h : number? negative cs = some (t, rest)) (hrest : Spaced ts rest) :
    ∃ value, t = .number value ∧ Number negative value cs rest := by
  unfold number? at h
  by_cases hdigits : cs.takeWhile Char.isDigit = [] ∨
      ((cs.takeWhile Char.isDigit).head? = some '0' ∧ cs.takeWhile Char.isDigit ≠ ['0'])
  · simp only [if_pos hdigits] at h
    cases h
  · simp only [if_neg hdigits] at h
    obtain ⟨hne, hzero⟩ := not_or.mp hdigits
    obtain ⟨⟨_, rest₁⟩, hfraction, h⟩ := Option.bind_eq_some_iff.mp h
    obtain ⟨⟨_, rest₂⟩, hexponent, h⟩ := Option.bind_eq_some_iff.mp h
    cases h
    obtain ⟨hfraction, hends⟩ := fraction_of_dropFraction? hfraction (head?_dropWhile_isDigit cs)
    obtain ⟨hexponent, hends⟩ := exponent_of_dropExponent? hexponent hends
    have hrun : Digits (cs.takeWhile Char.isDigit) :=
      ⟨hne, fun c hc => List.all_eq_true.mp List.all_takeWhile c hc⟩
    have hnumber : Number negative _ (cs.takeWhile Char.isDigit ++ cs.dropWhile Char.isDigit) rest₂ :=
      .mk _ hrun (fun hhead => Decidable.of_not_not fun hne => hzero ⟨hhead, hne⟩) hfraction hexponent
        (hrest.delimits hends)
    rw [List.takeWhile_append_dropWhile] at hnumber
    exact ⟨_, rfl, hnumber⟩

theorem lexeme_of_next? {c : Char} {cs rest : List Char} {t : Token} {ts : List Token}
    (h : next? c cs = some (t, rest)) (hrest : Spaced ts rest) : Lexeme t (c :: cs) rest := by
  unfold next? at h
  split at h
  · cases h; exact .leftBracket
  · cases h; exact .rightBracket
  · cases h; exact .leftBrace
  · cases h; exact .rightBrace
  · cases h; exact .comma
  · cases h; exact .colon
  · obtain ⟨⟨us, rest'⟩, hus, heq⟩ := Option.map_eq_some_iff.mp h
    cases heq
    obtain ⟨us', rfl, hunits⟩ := units_of_codePoints? hus
    exact .string hunits
  · obtain ⟨value, rfl, hnumber⟩ := number_of_number? h hrest
    exact .negative hnumber
  · split at h <;> cases h
    exact .null
  · split at h <;> cases h
    exact .true
  · split at h <;> cases h
    exact .false
  · split at h
    · obtain ⟨value, rfl, hnumber⟩ := number_of_number? h hrest
      exact .positive hnumber
    · cases h

theorem spaced_of_scanWith {fuel : Nat} {cs : List Char} {ts : List Token}
    (h : scanWith fuel cs = some ts) : Spaced ts cs := by
  induction fuel generalizing cs ts with
  | zero =>
      cases cs with
      | nil => cases h; exact .nil
      | cons c cs => cases h
  | succ fuel ih =>
      cases cs with
      | nil => cases h; exact .nil
      | cons c cs =>
          rw [scanWith] at h
          split at h
          · rename_i hblank
            exact .blank hblank (ih h)
          · cases hnext : next? c cs with
            | none =>
                rw [hnext] at h
                cases h
            | some p =>
                rw [hnext] at h
                obtain ⟨ts', hts', rfl⟩ := Option.map_eq_some_iff.mp h
                have hrest := ih hts'
                exact .token (lexeme_of_next? hnext hrest) hrest

/-- The tokens that the scanner finds are those that the text is made of. -/
theorem scan?_eq_some_iff {cs : List Char} {ts : List Token} : scan? cs = some ts ↔ Spaced ts cs :=
  ⟨spaced_of_scanWith, Spaced.scan?⟩

end Token

/-! ### Values -/

mutual

/-- The tokens go on with those of the value, then with `rest`. -/
inductive Stands : Json → (tokens rest : List Token) → Prop
  | null {rest} : Stands .null (.null :: rest) rest
  | bool {b rest} : Stands (.bool b) (.bool b :: rest) rest
  | number {n rest} : Stands (.number n) (.number (some n) :: rest) rest
  | string {s rest} : Stands (.string s) (.string (some s) :: rest) rest
  | unreadableNumber {rest} : Stands .unreadable (.number none :: rest) rest
  | unreadableString {rest} : Stands .unreadable (.string none :: rest) rest
  | emptyArray {rest} : Stands (.array []) (.leftBracket :: .rightBracket :: rest) rest
  | array {items ts rest} : ItemsStand items ts rest → Stands (.array items) (.leftBracket :: ts) rest
  | emptyObject {rest} : Stands (.object []) (.leftBrace :: .rightBrace :: rest) rest
  | object {members j ts rest} : MembersStand members ts rest → ofMembers members = j →
      Stands j (.leftBrace :: ts) rest

/-- The tokens go on with those of an array's items and its closing bracket. -/
inductive ItemsStand : List Json → (tokens rest : List Token) → Prop
  | last {v ts rest} : Stands v ts (.rightBracket :: rest) → ItemsStand [v] ts rest
  | more {v items ts ts' rest} : Stands v ts (.comma :: ts') → ItemsStand items ts' rest →
      ItemsStand (v :: items) ts rest

/-- The tokens go on with those of an object's members and its closing brace. -/
inductive MembersStand : List (Option String × Json) → (tokens rest : List Token) → Prop
  | last {name v ts rest} : Stands v ts (.rightBrace :: rest) →
      MembersStand [(name, v)] (.string name :: .colon :: ts) rest
  | more {name v members ts ts' rest} : Stands v ts (.comma :: ts') → MembersStand members ts' rest →
      MembersStand ((name, v) :: members) (.string name :: .colon :: ts) rest

end

/-- The first token of a value closes nothing. -/
theorem Stands.exists_cons {j : Json} {ts rest : List Token} (h : Stands j ts rest) :
    ∃ t ts', ts = t :: ts' ∧ t ≠ .rightBracket ∧ t ≠ .rightBrace := by
  cases h <;> exact ⟨_, _, rfl, nofun, nofun⟩

theorem ItemsStand.exists_cons {items : List Json} {ts rest : List Token}
    (h : ItemsStand items ts rest) : ∃ t ts', ts = t :: ts' ∧ t ≠ .rightBracket := by
  have hfirst : ∃ v rest', Stands v ts rest' := by
    cases h with
    | last h => exact ⟨_, _, h⟩
    | more h _ => exact ⟨_, _, h⟩
  obtain ⟨v, rest', h⟩ := hfirst
  obtain ⟨t, ts', hts, ht, -⟩ := h.exists_cons
  exact ⟨t, ts', hts, ht⟩

theorem MembersStand.exists_cons {members : List (Option String × Json)} {ts rest : List Token}
    (h : MembersStand members ts rest) : ∃ name ts', ts = .string name :: ts' := by
  cases h <;> exact ⟨_, _, rfl⟩

section steps

variable {fuel : Nat} {ts rest rest' : List Token} {v : Json}

theorem value?_leftBracket {t : Token} (ht : t ≠ .rightBracket) {items : List Json}
    (h : items? fuel (t :: ts) = some (items, rest)) :
    value? (fuel + 1) (.leftBracket :: t :: ts) = some (.array items, rest) := by
  rw [value?, h]
  · rfl
  · rintro _ ⟨⟩
    exact ht rfl

theorem value?_leftBrace {t : Token} (ht : t ≠ .rightBrace) {members : List (Option String × Json)}
    (h : members? fuel (t :: ts) = some (members, rest)) :
    value? (fuel + 1) (.leftBrace :: t :: ts) = some (ofMembers members, rest) := by
  rw [value?, h]
  · rfl
  · rintro _ ⟨⟩
    exact ht rfl

theorem items?_last (h : value? fuel ts = some (v, .rightBracket :: rest)) :
    items? (fuel + 1) ts = some ([v], rest) := by
  rw [items?, h]

theorem items?_more (h : value? fuel ts = some (v, .comma :: rest)) {items : List Json}
    (hrest : items? fuel rest = some (items, rest')) :
    items? (fuel + 1) ts = some (v :: items, rest') := by
  rw [items?, h]
  dsimp only
  rw [hrest]
  rfl

theorem members?_last {name : Option String} (h : value? fuel ts = some (v, .rightBrace :: rest)) :
    members? (fuel + 1) (.string name :: .colon :: ts) = some ([(name, v)], rest) := by
  rw [members?, h]

theorem members?_more {name : Option String} (h : value? fuel ts = some (v, .comma :: rest))
    {members : List (Option String × Json)} (hrest : members? fuel rest = some (members, rest')) :
    members? (fuel + 1) (.string name :: .colon :: ts) = some ((name, v) :: members, rest') := by
  rw [members?, h]
  dsimp only
  rw [hrest]
  rfl

end steps

mutual

/-- A value has a token. -/
theorem Stands.length_lt : ∀ {j : Json} {ts rest : List Token}, Stands j ts rest →
    rest.length < ts.length
  | _, _, _, .null => Nat.lt_succ_self _
  | _, _, _, .bool => Nat.lt_succ_self _
  | _, _, _, .number => Nat.lt_succ_self _
  | _, _, _, .string => Nat.lt_succ_self _
  | _, _, _, .unreadableNumber => Nat.lt_succ_self _
  | _, _, _, .unreadableString => Nat.lt_succ_self _
  | _, _, _, .emptyArray => Nat.lt_add_of_pos_right Nat.two_pos
  | _, _, _, .emptyObject => Nat.lt_add_of_pos_right Nat.two_pos
  | _, _, _, .array h => Nat.lt_succ_of_lt h.length_lt
  | _, _, _, .object h _ => Nat.lt_succ_of_lt h.length_lt

theorem ItemsStand.length_lt : ∀ {items : List Json} {ts rest : List Token}, ItemsStand items ts rest →
    rest.length < ts.length
  | _, _, _, .last h => Nat.lt_of_succ_lt h.length_lt
  | _, _, _, .more hv h => Nat.lt_trans h.length_lt (Nat.lt_of_succ_lt hv.length_lt)

theorem MembersStand.length_lt : ∀ {members : List (Option String × Json)} {ts rest : List Token},
    MembersStand members ts rest → rest.length < ts.length
  | _, _, _, .last h => Nat.lt_add_right 2 (Nat.lt_of_succ_lt h.length_lt)
  | _, _, _, .more hv h =>
    Nat.lt_add_right 2 (Nat.lt_trans h.length_lt (Nat.lt_of_succ_lt hv.length_lt))

end

mutual

/-- A value is read off its tokens, with fuel for twice their number. -/
theorem Stands.value? : ∀ {j : Json} {ts rest : List Token}, Stands j ts rest → ∀ fuel,
    2 * ts.length ≤ 2 * rest.length + fuel + 1 → value? fuel ts = some (j, rest)
  | _, _, _, h, 0, hfuel => by
      have hlt := h.length_lt
      omega
  | _, _, _, .null, _ + 1, _ => rfl
  | _, _, _, .bool, _ + 1, _ => rfl
  | _, _, _, .number, _ + 1, _ => rfl
  | _, _, _, .string, _ + 1, _ => rfl
  | _, _, _, .unreadableNumber, _ + 1, _ => rfl
  | _, _, _, .unreadableString, _ + 1, _ => rfl
  | _, _, _, .emptyArray, _ + 1, _ => rfl
  | _, _, _, .emptyObject, _ + 1, _ => rfl
  | _, _, _, .array h, fuel + 1, hfuel => by
      rw [List.length_cons] at hfuel
      have hitems := h.items? fuel (by omega)
      obtain ⟨t, ts, rfl, ht⟩ := h.exists_cons
      exact value?_leftBracket ht hitems
  | _, _, _, .object h hj, fuel + 1, hfuel => by
      rw [List.length_cons] at hfuel
      have hmembers := h.members? fuel (by omega)
      obtain ⟨name, ts, rfl⟩ := h.exists_cons
      rw [value?_leftBrace (t := .string name) nofun hmembers, hj]

theorem ItemsStand.items? : ∀ {items : List Json} {ts rest : List Token}, ItemsStand items ts rest →
    ∀ fuel, 2 * ts.length ≤ 2 * rest.length + fuel → items? fuel ts = some (items, rest)
  | _, _, _, h, 0, hfuel => by
      have hlt := h.length_lt
      omega
  | _, _, rest, .last h, fuel + 1, hfuel => by
      have hvalue := h.value? fuel (by rw [List.length_cons]; omega)
      exact items?_last hvalue
  | _, _, rest, .more hv h, fuel + 1, hfuel => by
      -- What is left for the other items is at least a comma shorter.
      have hlt := hv.length_lt
      have hlt' := h.length_lt
      rw [List.length_cons] at hlt
      have hvalue := hv.value? fuel (by rw [List.length_cons]; omega)
      exact items?_more hvalue (h.items? fuel (by omega))

theorem MembersStand.members? : ∀ {members : List (Option String × Json)} {ts rest : List Token},
    MembersStand members ts rest → ∀ fuel, 2 * ts.length ≤ 2 * rest.length + fuel →
    members? fuel ts = some (members, rest)
  | _, _, _, h, 0, hfuel => by
      have hlt := h.length_lt
      omega
  | _, _, rest, .last h, fuel + 1, hfuel => by
      simp only [List.length_cons] at hfuel
      have hvalue := h.value? fuel (by rw [List.length_cons]; omega)
      exact members?_last hvalue
  | _, _, rest, .more hv h, fuel + 1, hfuel => by
      have hlt := hv.length_lt
      have hlt' := h.length_lt
      simp only [List.length_cons] at hfuel hlt
      have hvalue := hv.value? fuel (by rw [List.length_cons]; omega)
      exact members?_more hvalue (h.members? fuel (by omega))

end

/-- The text holds the document: it is made of the tokens of the document, with blanks between them. -/
def Holds (text : String) (j : Json) : Prop := ∃ ts, Token.Spaced ts text.toList ∧ Stands j ts []

theorem Holds.parse? {text : String} {j : Json} (h : Holds text j) : parse? text = some j := by
  obtain ⟨ts, hspaced, hstands⟩ := h
  have hvalue := hstands.value? (2 * ts.length + 1) (by omega)
  unfold Json.parse?
  rw [hspaced.scan?, Option.bind_eq_bind, Option.bind_some, hvalue]

mutual

theorem stands_of_value? : ∀ {fuel : Nat} {ts rest : List Token} {j : Json},
    value? fuel ts = some (j, rest) → Stands j ts rest
  | 0, _, _, _, h => by cases h
  | fuel + 1, ts, rest, j, h => by
      unfold value? at h
      split at h
      · cases h
      · cases h; exact .null
      · cases h; exact .bool
      · cases h; exact .number
      · cases h; exact .unreadableNumber
      · cases h; exact .string
      · cases h; exact .unreadableString
      · cases h; exact .emptyArray
      · rename_i heq
        cases heq
        obtain ⟨⟨items, rest'⟩, hitems, heq⟩ := Option.map_eq_some_iff.mp h
        cases heq
        exact .array (itemsStand_of_items? hitems)
      · cases h; exact .emptyObject
      · rename_i heq
        cases heq
        obtain ⟨⟨members, rest'⟩, hmembers, heq⟩ := Option.map_eq_some_iff.mp h
        cases heq
        exact .object (membersStand_of_members? hmembers) rfl
      · cases h

theorem itemsStand_of_items? : ∀ {fuel : Nat} {ts rest : List Token} {items : List Json},
    items? fuel ts = some (items, rest) → ItemsStand items ts rest
  | 0, _, _, _, h => by cases h
  | fuel + 1, ts, rest, items, h => by
      unfold items? at h
      split at h
      · rename_i v rest' hv
        obtain ⟨⟨items', _⟩, hitems, heq⟩ := Option.map_eq_some_iff.mp h
        cases heq
        exact .more (stands_of_value? hv) (itemsStand_of_items? hitems)
      · rename_i v rest' hv
        cases h
        exact .last (stands_of_value? hv)
      · cases h

theorem membersStand_of_members? : ∀ {fuel : Nat} {ts rest : List Token}
    {members : List (Option String × Json)},
    members? fuel ts = some (members, rest) → MembersStand members ts rest
  | 0, _, _, _, h => by cases h
  | fuel + 1, ts, rest, members, h => by
      unfold members? at h
      split at h
      · cases h
      · rename_i heq
        cases heq
        split at h
        · rename_i v rest' hv
          obtain ⟨⟨members', _⟩, hmembers, heq⟩ := Option.map_eq_some_iff.mp h
          cases heq
          exact .more (stands_of_value? hv) (membersStand_of_members? hmembers)
        · rename_i v rest' hv
          cases h
          exact .last (stands_of_value? hv)
        · cases h
      · cases h

end

/-- A text is read as the document that it holds. -/
theorem parse?_eq_some_iff {text : String} {j : Json} : parse? text = some j ↔ Holds text j := by
  refine ⟨fun h => ?_, Holds.parse?⟩
  unfold parse? at h
  obtain ⟨ts, hscan, h⟩ := Option.bind_eq_some_iff.mp h
  split at h
  · rename_i hvalue
    cases h
    exact ⟨ts, Token.scan?_eq_some_iff.mp hscan, stands_of_value? hvalue⟩
  · cases h

end Coherence.Json
