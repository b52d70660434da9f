import Coherence.Json.Parser
import Coherence.Json.Printer
/-!
# The tokens of a text

The scanner needs no more fuel than characters, so it can be read as a rule for the first token of a text
(`Token.scan?_token`). A number (`Token.Number`) is one token if the text goes on with something else, and
a string is the token of its code units (`Token.Units`). A string may be written in several ways: a
character as it is, by an escape with a letter, by its code point, or by the two halves of a surrogate pair
(`Token.Spells`); all of them stand for the same string (`Token.Spells.units`).
-/

namespace Coherence.Json

namespace Token

/-! ### Code units of a string -/

section codePoints

variable (seen : List Nat) {cs : List Char}

theorem codePoints?_quote : codePoints? seen ('"' :: cs) = some (seen.reverse, cs) := by
  rw [codePoints?.eq_def]
  rfl

theorem codePoints?_plain {c : Char} (hquote : c ≠ '"') (hbackslash : c ≠ '\\')
    (hcontrol : 0x20 ≤ c.toNat) : codePoints? seen (c :: cs) = codePoints? (c.toNat :: seen) cs := by
  rw [codePoints?.eq_def]
  dsimp only
  rw [if_neg hquote, if_neg hbackslash, if_neg (Nat.not_lt.mpr hcontrol)]

theorem codePoints?_letter {e : Char} {u : Nat} (h : escaped? e = some u) :
    codePoints? seen ('\\' :: e :: cs) = codePoints? (u :: seen) cs := by
  have hu : e ≠ 'u' := by
    rintro rfl
    cases h
  rw [codePoints?.eq_def]
  dsimp only
  rw [if_neg (by decide), if_pos rfl]
  split
  · rename_i heq
    exact absurd (List.cons.inj heq).1 hu
  · rename_i heq
    cases heq
    rw [h]
  · rename_i heq
    cases heq

theorem codePoints?_unit {w x y z : Char} {u : Nat} (h : Text.ofHex? [w, x, y, z] = some u) :
    codePoints? seen ('\\' :: 'u' :: w :: x :: y :: z :: cs) = codePoints? (u :: seen) cs := by
  rw [codePoints?.eq_def]
  dsimp only
  rw [if_neg (by decide), if_pos rfl]
  split
  · rename_i heq
    cases heq
    rw [h]
  · rename_i hne heq
    cases heq
    exact absurd rfl (hne w x y z cs rfl)
  · rename_i heq
    cases heq

end codePoints

/-- The text goes on with these code units of a string, then with the closing quote. -/
inductive Units : (text : List Char) → (us : List Nat) → (rest : List Char) → Prop
  | quote {rest} : Units ('"' :: rest) [] rest
  | plain {c cs us rest} (hquote : c ≠ '"') (hbackslash : c ≠ '\\') (hcontrol : 0x20 ≤ c.toNat) :
      Units cs us rest → Units (c :: cs) (c.toNat :: us) rest
  | letter {e u cs us rest} (h : escaped? e = some u) :
      Units cs us rest → Units ('\\' :: e :: cs) (u :: us) rest
  | unit {w x y z u cs us rest} (h : Text.ofHex? [w, x, y, z] = some u) :
      Units cs us rest → Units ('\\' :: 'u' :: w :: x :: y :: z :: cs) (u :: us) rest

theorem Units.codePoints? {cs rest : List Char} {us : List Nat} (h : Units cs us rest) (seen : List Nat) :
    codePoints? seen cs = some (seen.reverse ++ us, rest) := by
  induction h generalizing seen with
  | quote => rw [codePoints?_quote, List.append_nil]
  | plain hquote hbackslash hcontrol _ ih =>
      rw [codePoints?_plain seen hquote hbackslash hcontrol, ih, List.reverse_cons, List.append_assoc]
      rfl
  | letter h _ ih =>
      rw [codePoints?_letter seen h, ih, List.reverse_cons, List.append_assoc]
      rfl
  | unit h _ ih =>
      rw [codePoints?_unit seen h, ih, List.reverse_cons, List.append_assoc]
      rfl

/-- What is read as code units of a string are code units. -/
theorem units_of_codePoints? {seen us : List Nat} {cs rest : List Char}
    (h : codePoints? seen cs = some (us, rest)) :
    ∃ us', us = seen.reverse ++ us' ∧ Units cs us' rest := by
  cases cs with
  | nil => cases h
  | cons c cs =>
      rw [codePoints?.eq_def] at h
      dsimp only at h
      by_cases hquote : c = '"'
      · rw [if_pos hquote] at h
        cases h
        rw [hquote]
        exact ⟨[], (List.append_nil _).symm, .quote⟩
      rw [if_neg hquote] at h
      by_cases hbackslash : c = '\\'
      · rw [if_pos hbackslash] at h
        rw [hbackslash]
        split at h
        · -- a code point
          rename_i w x y z cs
          cases hu : Text.ofHex? [w, x, y, z] with
          | none => simp only [hu, reduceCtorEq] at h
          | some u =>
              rw [hu] at h
              obtain ⟨us', rfl, hunits⟩ := units_of_codePoints? h
              exact ⟨u :: us', by simp, .unit hu hunits⟩
        · -- an escape with a letter
          rename_i e cs _
          cases hu : escaped? e with
          | none => simp only [hu, reduceCtorEq] at h
          | some u =>
              rw [hu] at h
              obtain ⟨us', rfl, hunits⟩ := units_of_codePoints? h
              exact ⟨u :: us', by simp, .letter hu hunits⟩
        · cases h
      rw [if_neg hbackslash] at h
      by_cases hcontrol : c.toNat < 0x20
      · rw [if_pos hcontrol] at h
        cases h
      · rw [if_neg hcontrol] at h
        obtain ⟨us', rfl, hunits⟩ := units_of_codePoints? h
        exact ⟨c.toNat :: us', by simp, .plain hquote hbackslash (Nat.not_lt.mp hcontrol) hunits⟩
termination_by cs.length

theorem Units.length_lt {cs rest : List Char} {us : List Nat} (h : Units cs us rest) :
    rest.length < cs.length := by
  induction h with
  | quote => exact Nat.lt_succ_self _
  | plain _ _ _ _ ih => exact Nat.lt_succ_of_lt ih
  | letter _ _ ih => exact Nat.lt_add_right 2 ih
  | unit _ _ ih => exact Nat.lt_add_right 6 ih

/-! ### Scanning without fuel -/

theorem length_dropDigits? {cs rest : List Char} (h : dropDigits? cs = some rest) :
    rest.length ≤ cs.length := by
  unfold dropDigits? at h
  split at h
  · cases h
  · split at h
    · cases h
      exact Nat.le_succ_of_le (List.dropWhile_sublist _).length_le
    · cases h

theorem length_dropSign (cs : List Char) : (Text.dropSign cs).length ≤ cs.length := by
  unfold Text.dropSign
  split
  · exact Nat.le_succ _
  · exact Nat.le_succ _
  · exact Nat.le_refl _

theorem length_dropFraction? {cs rest : List Char} {b : Bool} (h : dropFraction? cs = some (b, rest)) :
    rest.length ≤ cs.length := by
  unfold dropFraction? at h
  split at h
  · obtain ⟨rest', hrest, heq⟩ := Option.map_eq_some_iff.mp h
    cases heq
    exact Nat.le_succ_of_le (length_dropDigits? hrest)
  · cases h
    exact Nat.le_refl _

theorem length_dropExponent? {cs rest : List Char} {b : Bool} (h : dropExponent? cs = some (b, rest)) :
    rest.length ≤ cs.length := by
  have hdigits : ∀ {cs : List Char}, (dropDigits? (Text.dropSign cs)).map (true, ·) = some (b, rest) →
      rest.length ≤ cs.length := by
    intro cs h
    obtain ⟨rest', hrest, heq⟩ := Option.map_eq_some_iff.mp h
    cases heq
    exact Nat.le_trans (length_dropDigits? hrest) (length_dropSign cs)
  unfold dropExponent? at h
  split at h
  · exact Nat.le_succ_of_le (hdigits h)
  · exact Nat.le_succ_of_le (hdigits h)
  · cases h
    exact Nat.le_refl _

theorem length_number? {negative : Bool} {cs rest : List Char} {t : Token}
    (h : number? negative cs = some (t, rest)) :
    rest.length ≤ (cs.dropWhile Char.isDigit).length := by
  unfold number? at h
  by_cases hdigits : cs.takeWhile Char.isDigit = [] ∨
      ((cs.takeWhile Char.isDigit).head? = some '0' ∧ cs.takeWhile Char.isDigit ≠ ['0'])
  · simp only [if_pos hdigits] at h
    cases h
  · simp only [if_neg hdigits] at h
    obtain ⟨⟨_, rest₁⟩, hfraction, h⟩ := Option.bind_eq_some_iff.mp h
    obtain ⟨⟨_, rest₂⟩, hexponent, h⟩ := Option.bind_eq_some_iff.mp h
    cases h
    exact Nat.le_trans (length_dropExponent? hexponent) (length_dropFraction? hfraction)

theorem length_next? {c : Char} {cs rest : List Char} {t : Token} (h : next? c cs = some (t, rest)) :
    rest.length ≤ cs.length := by
  have hshort : (cs.dropWhile Char.isDigit).length ≤ cs.length := (List.dropWhile_sublist _).length_le
  have hsingle : ∀ {t' : Token}, some (t', cs) = some (t, rest) → rest.length ≤ cs.length := by
    rintro _ ⟨⟩
    exact Nat.le_refl _
  unfold next? at h
  split at h <;> try exact hsingle h
  · -- a string
    obtain ⟨⟨us, rest'⟩, hus, heq⟩ := Option.map_eq_some_iff.mp h
    cases heq
    obtain ⟨us', -, hunits⟩ := units_of_codePoints? hus
    exact Nat.le_of_lt hunits.length_lt
  · -- a negative number
    exact Nat.le_trans (length_number? h) hshort
  · -- `null`
    split at h <;> cases h
    exact Nat.le_add_right _ 3
  · -- `true`
    split at h <;> cases h
    exact Nat.le_add_right _ 3
  · -- `false`
    split at h <;> cases h
    exact Nat.le_add_right _ 4
  · -- a number
    split at h
    · rename_i hdigit
      have hnumber := length_number? h
      rw [List.dropWhile_cons_of_pos hdigit] at hnumber
      exact Nat.le_trans hnumber hshort
    · cases h

/-- More fuel than characters makes no difference. -/
theorem scanWith_eq {fuel fuel' : Nat} {cs : List Char} (h : cs.length ≤ fuel) (h' : cs.length ≤ fuel') :
    scanWith fuel cs = scanWith fuel' cs := by
  induction fuel generalizing fuel' cs with
  | zero =>
      obtain rfl := List.length_eq_zero_iff.mp (Nat.le_zero.mp h)
      cases fuel' <;> rfl
  | succ fuel ih =>
      cases cs with
      | nil => cases fuel' <;> rfl
      | cons c cs =>
          cases fuel' with
          | zero => cases h'
          | succ fuel' =>
              replace h := Nat.le_of_succ_le_succ h
              replace h' := Nat.le_of_succ_le_succ h'
              unfold scanWith
              rw [ih h h']
              cases hnext : next? c cs with
              | none => rfl
              | some p =>
                  have hshort := length_next? hnext
                  dsimp only
                  rw [ih (Nat.le_trans hshort h) (Nat.le_trans hshort h')]

theorem scan?_nil : scan? [] = some [] := rfl

theorem scan?_blank {c : Char} (hc : isBlank c = true) (cs : List Char) : scan? (c :: cs) = scan? cs := by
  show scanWith (cs.length + 1) (c :: cs) = _
  unfold scanWith
  rw [if_pos hc]
  rfl

/-- The first token of a text, and those of what follows it. -/
theorem scan?_token {c : Char} {cs rest : List Char} {t : Token} {ts : List Token}
    (hc : isBlank c = false) (hnext : next? c cs = some (t, rest)) (h : scan? rest = some ts) :
    scan? (c :: cs) = some (t :: ts) := by
  have hrest : scanWith cs.length rest = some ts :=
    (scanWith_eq (length_next? hnext) (Nat.le_refl _)).trans h
  show scanWith (cs.length + 1) (c :: cs) = _
  unfold scanWith
  rw [hc, hnext]
  dsimp only
  rw [hrest]
  rfl

/-! ### Numbers -/

/-- The text does not continue a number. -/
def Delimits (rest : List Char) : Prop :=
  ∀ c ∈ rest.head?, c.isDigit = false ∧ c ≠ '.' ∧ c ≠ 'e' ∧ c ≠ 'E'

def Digits (digits : List Char) : Prop := digits ≠ [] ∧ ∀ c ∈ digits, c.isDigit = true

theorem dropDigits?_append {digits rest : List Char} (h : Digits digits)
    (hrest : ∀ c ∈ rest.head?, c.isDigit = false) : dropDigits? (digits ++ rest) = some rest := by
  obtain ⟨hne, hdigits⟩ := h
  obtain ⟨c, cs, rfl⟩ := List.exists_cons_of_ne_nil hne
  obtain ⟨hc, hcs⟩ := List.forall_mem_cons.mp hdigits
  rw [List.cons_append, dropDigits?, if_pos hc, (Text.cut_append hcs hrest).2]

/-- A fraction in front of a text, or none. -/
inductive Fraction : (present : Bool) → (text rest : List Char) → Prop
  | absent {rest} : Fraction false rest rest
  | present (digits : List Char) {rest} : Digits digits → Fraction true ('.' :: (digits ++ rest)) rest

/-- An exponent in front of a text, or none. -/
inductive Exponent : (present : Bool) → (text rest : List Char) → Prop
  | absent {rest} : Exponent false rest rest
  | present (e : Char) (sign digits : List Char) {rest} : (e = 'e' ∨ e = 'E') →
      (sign = [] ∨ sign = ['+'] ∨ sign = ['-']) → Digits digits →
      Exponent true (e :: (sign ++ (digits ++ rest))) rest

theorem dropSign_append {sign digits rest : List Char} (h : sign = [] ∨ sign = ['+'] ∨ sign = ['-'])
    (hdigits : Digits digits) : Text.dropSign (sign ++ (digits ++ rest)) = digits ++ rest := by
  rcases h with rfl | rfl | rfl
  · obtain ⟨hne, hdigits⟩ := hdigits
    obtain ⟨c, cs, rfl⟩ := List.exists_cons_of_ne_nil hne
    have hc := hdigits c List.mem_cons_self
    show Text.dropSign (c :: (cs ++ rest)) = _
    unfold Text.dropSign
    split
    · rename_i heq
      rw [(List.cons.inj heq).1] at hc
      cases hc
    · rename_i heq
      rw [(List.cons.inj heq).1] at hc
      cases hc
    · rfl
  · rfl
  · rfl

/-- What follows a fraction does not continue its digits, nor start another fraction. -/
theorem Exponent.ends {present : Bool} {cs rest : List Char} (h : Exponent present cs rest)
    (hrest : Delimits rest) : ∀ c ∈ cs.head?, c.isDigit = false ∧ c ≠ '.' := by
  cases h with
  | absent => exact fun c hc => ⟨(hrest c hc).1, (hrest c hc).2.1⟩
  | present e sign digits he =>
      rintro _ ⟨⟩
      rcases he with rfl | rfl <;> decide

theorem Fraction.dropFraction? {present : Bool} {cs rest : List Char} (h : Fraction present cs rest)
    (hrest : ∀ c ∈ rest.head?, c.isDigit = false ∧ c ≠ '.') :
    dropFraction? cs = some (present, rest) := by
  cases h with
  | absent =>
      unfold Token.dropFraction?
      split
      · exact absurd rfl (hrest '.' rfl).2
      · rfl
  | present digits hdigits =>
      show (dropDigits? (digits ++ rest)).map (true, ·) = _
      rw [dropDigits?_append hdigits fun c hc => (hrest c hc).1, Option.map_some]

theorem Exponent.dropExponent? {present : Bool} {cs rest : List Char} (h : Exponent present cs rest)
    (hrest : Delimits rest) : dropExponent? cs = some (present, rest) := by
  cases h with
  | absent =>
      unfold Token.dropExponent?
      split
      · exact absurd rfl (hrest 'e' rfl).2.2.1
      · exact absurd rfl (hrest 'E' rfl).2.2.2
      · rfl
  | present e sign digits he hsign hdigits =>
      have hdrop : (dropDigits? (Text.dropSign (sign ++ (digits ++ rest)))).map (true, ·) =
          some (true, rest) := by
        rw [dropSign_append hsign hdigits, dropDigits?_append hdigits fun c hc => (hrest c hc).1,
          Option.map_some]
      rcases he with rfl | rfl
      · exact hdrop
      · exact hdrop

/-- The content of a number with the integral part `n`. -/
def content (negative fraction exponent : Bool) (n : Nat) : Option Int :=
  if fraction ∨ exponent ∨ (negative ∧ n = 0) then none else some (if negative then -(n : Int) else n)

/-- A number without its sign in front of a text that does not continue it. -/
inductive Number (negative : Bool) : (value : Option Int) → (text rest : List Char) → Prop
  | mk (digits : List Char) {fraction exponent cs cs' rest} (hdigits : Digits digits)
      (hzero : digits.head? = some '0' → digits = ['0']) (hfraction : Fraction fraction cs cs')
      (hexponent : Exponent exponent cs' rest) (hrest : Delimits rest) :
      Number negative (content negative fraction exponent (Nat.ofDigitChars 10 digits 0))
        (digits ++ cs) rest

theorem Number.number? {negative : Bool} {value : Option Int} {cs rest : List Char}
    (h : Number negative value cs rest) : number? negative cs = some (.number value, rest) := by
  obtain ⟨digits, hdigits, hzero, hfraction, hexponent, hrest⟩ := h
  rename_i fraction exponent cs cs'
  have hcs' := hexponent.ends hrest
  have hcs : ∀ c ∈ cs.head?, c.isDigit = false := by
    cases hfraction with
    | absent => exact fun c hc => (hcs' c hc).1
    | present =>
        rintro _ ⟨⟩
        rfl
  obtain ⟨htake, hdrop⟩ := Text.cut_append hdigits.2 hcs
  have hplain : ¬(digits = [] ∨ (digits.head? = some '0' ∧ digits ≠ ['0'])) := by
    rintro (hnil | ⟨hhead, hne⟩)
    · exact hdigits.1 hnil
    · exact hne (hzero hhead)
  unfold Token.number?
  simp only [htake, hdrop, if_neg hplain, hfraction.dropFraction? hcs', hexponent.dropExponent? hrest,
    Option.bind_eq_bind, Option.bind_some]
  rfl

theorem eq_zero_of_head?_toDigits {n : Nat} (h : (Nat.toDigits 10 n).head? = some '0') : n = 0 := by
  induction n using Nat.strongRecOn with
  | ind n ih =>
      by_cases hn : n < 10
      · rw [Nat.toDigits_of_lt_base hn] at h
        exact Nat.digitChar_eq_zero.mp (Option.some.inj h)
      · obtain ⟨c, cs, hcs⟩ := List.exists_cons_of_ne_nil (Nat.toDigits_ne_nil (n := n / 10) (b := 10))
        rw [Nat.toDigits_of_base_le (by omega) (by omega), hcs] at h
        have hzero := ih (n / 10) (by omega) (by rw [hcs]; exact h)
        omega

theorem number_toDigits (negative : Bool) (n : Nat) {rest : List Char} (h : Delimits rest) :
    Number negative (content negative false false n) (Nat.toDigits 10 n ++ rest) rest := by
  have hdigits : Digits (Nat.toDigits 10 n) :=
    ⟨Nat.toDigits_ne_nil, fun c hc => Nat.isDigit_of_mem_toDigits (by omega) (by omega) hc⟩
  have hnumber : Number negative _ (Nat.toDigits 10 n ++ rest) rest :=
    .mk _ hdigits (fun hzero => by rw [eq_zero_of_head?_toDigits hzero]; rfl) .absent .absent h
  rwa [Nat.ofDigitChars_ten_toDigits] at hnumber

/-! ### Strings -/

/-- The characters stand for those of a string, in one of the ways to write each of them: as it is, by an
escape with a letter, by its code point, or by the halves of a surrogate pair. -/
inductive Spells : List Char → List Char → Prop
  | nil : Spells [] []
  | plain {c cs s} (hquote : c ≠ '"') (hbackslash : c ≠ '\\') (hcontrol : 0x20 ≤ c.toNat) :
      Spells cs s → Spells (c :: cs) (c :: s)
  | letter {e cs c s} (h : escaped? e = some c.toNat) : Spells cs s → Spells ('\\' :: e :: cs) (c :: s)
  | unit {w x y z cs c s} (h : Text.ofHex? [w, x, y, z] = some c.toNat) :
      Spells cs s → Spells ('\\' :: 'u' :: w :: x :: y :: z :: cs) (c :: s)
  | pair {w x y z w' x' y' z' high low cs s} (h : Text.ofHex? [w, x, y, z] = some high)
      (h' : Text.ofHex? [w', x', y', z'] = some low) (hhigh : isHighHalf high = true)
      (hlow : isLowHalf low = true) :
      Spells cs s → Spells ('\\' :: 'u' :: w :: x :: y :: z :: '\\' :: 'u' :: w' :: x' :: y' :: z' :: cs)
        (Char.ofNat (0x10000 + (high - 0xd800) * 0x400 + (low - 0xdc00)) :: s)

theorem isHighHalf_toNat (c : Char) : isHighHalf c.toNat = false := by
  have hvalid : c.toNat < 0xd800 ∨ (0xdfff < c.toNat ∧ c.toNat < 0x110000) := c.valid
  unfold isHighHalf
  rw [Bool.and_eq_false_iff, decide_eq_false_iff_not, decide_eq_false_iff_not]
  omega

theorem isLowHalf_toNat (c : Char) : isLowHalf c.toNat = false := by
  have hvalid : c.toNat < 0xd800 ∨ (0xdfff < c.toNat ∧ c.toNat < 0x110000) := c.valid
  unfold isLowHalf
  rw [Bool.and_eq_false_iff, decide_eq_false_iff_not, decide_eq_false_iff_not]
  omega

/-- The code point of a character stands for the character. -/
theorem joinHalves?_toNat (c : Char) (seen : List Char) (us : List Nat) :
    joinHalves? seen (c.toNat :: us) = joinHalves? (c :: seen) us := by
  cases us with
  | nil => simp [joinHalves?, isHighHalf_toNat, isLowHalf_toNat, Char.ofNat_toNat]
  | cons u us => simp [joinHalves?, isHighHalf_toNat, isLowHalf_toNat, Char.ofNat_toNat]

theorem Units.string? {cs rest : List Char} {us : List Nat} (h : Units cs us rest) :
    string? cs = some (.string (joinHalves? [] us), rest) := by
  rw [Token.string?, h.codePoints? [], Option.map_some]
  rfl

/-- What is written so are code units of that string: two for a pair, one for any other character. -/
theorem Spells.units {cs s : List Char} (h : Spells cs s) (rest : List Char) :
    ∃ us, Units (cs ++ '"' :: rest) us rest ∧
      ∀ seen, joinHalves? seen us = some (String.ofList (seen.reverse ++ s)) := by
  induction h with
  | nil =>
      refine ⟨[], .quote, fun seen => ?_⟩
      rw [List.append_nil]
      rfl
  | @plain c cs s hquote hbackslash hcontrol _ ih =>
      obtain ⟨us, hunits, hjoin⟩ := ih
      refine ⟨c.toNat :: us, .plain hquote hbackslash hcontrol hunits, fun seen => ?_⟩
      rw [joinHalves?_toNat, hjoin]
      simp
  | @letter e cs c s h _ ih =>
      obtain ⟨us, hunits, hjoin⟩ := ih
      refine ⟨c.toNat :: us, .letter h hunits, fun seen => ?_⟩
      rw [joinHalves?_toNat, hjoin]
      simp
  | @unit w x y z cs c s h _ ih =>
      obtain ⟨us, hunits, hjoin⟩ := ih
      refine ⟨c.toNat :: us, .unit h hunits, fun seen => ?_⟩
      rw [joinHalves?_toNat, hjoin]
      simp
  | @pair w x y z w' x' y' z' high low cs s h h' hhigh hlow _ ih =>
      obtain ⟨us, hunits, hjoin⟩ := ih
      refine ⟨high :: low :: us, .unit h (.unit h' hunits), fun seen => ?_⟩
      rw [joinHalves?, if_pos hhigh, if_pos hlow, hjoin]
      simp

/-! ### Quoted strings -/

theorem Spells.append {cs s cs' s' : List Char} (h : Spells cs s) (h' : Spells cs' s') :
    Spells (cs ++ cs') (s ++ s') := by
  induction h with
  | nil => exact h'
  | plain hquote hbackslash hcontrol _ ih => exact .plain hquote hbackslash hcontrol ih
  | letter h _ ih => exact .letter h ih
  | unit h _ ih => exact .unit h ih
  | pair h h' hhigh hlow _ ih => exact .pair h h' hhigh hlow ih

theorem Spells.flatMap {spell : Char → List Char} (h : ∀ c, Spells (spell c) [c]) (s : List Char) :
    Spells (s.flatMap spell) s := by
  induction s with
  | nil => exact .nil
  | cons c s ih => exact (h c).append ih

theorem ofHex?_digitChar {a b c d : Nat} (ha : a < 16) (hb : b < 16) (hc : c < 16) (hd : d < 16) :
    Text.ofHex? [Nat.digitChar a, Nat.digitChar b, Nat.digitChar c, Nat.digitChar d] =
      some (16 * (16 * (16 * a + b) + c) + d) := by
  unfold Text.ofHex?
  simp [Text.hexValue?_digitChar _ ha, Text.hexValue?_digitChar _ hb, Text.hexValue?_digitChar _ hc,
    Text.hexValue?_digitChar _ hd]

theorem spells_escape (c : Char) : Spells (escape c) [c] := by
  unfold escape
  split
  · exact .letter (by rw [‹c = _›]; rfl) .nil
  split
  · exact .letter (by rw [‹c = _›]; rfl) .nil
  split
  · exact .letter (by rw [‹c = _›]; rfl) .nil
  split
  · exact .letter (by rw [‹c = _›]; rfl) .nil
  split
  · exact .letter (by rw [‹c = _›]; rfl) .nil
  split
  · exact .letter (by rw [‹c.toNat = _›]; rfl) .nil
  split
  · exact .letter (by rw [‹c.toNat = _›]; rfl) .nil
  split
  · rename_i hcontrol
    refine .unit ((ofHex?_digitChar (a := 0) (b := 0) (by omega) (by omega) (c := c.toNat / 16)
      (d := c.toNat % 16) (by omega) (by omega)).trans ?_) .nil
    congr 1
    omega
  · rename_i hquote hbackslash _ _ _ _ _ hcontrol
    exact .plain hquote hbackslash (Nat.not_lt.mp hcontrol) .nil

/-- The code unit as an escape of four hexadecimal digits. -/
def unitEscape (u : Nat) : List Char :=
  ['\\', 'u', Nat.digitChar (u / 4096), Nat.digitChar (u / 256 % 16), Nat.digitChar (u / 16 % 16),
    Nat.digitChar (u % 16)]

/-- A character in ASCII: one outside of it by its code point, or by the halves of a surrogate pair. -/
def asciiEscape (c : Char) : List Char :=
  if c.toNat < 0x7f then escape c
  else if c.toNat < 0x10000 then unitEscape c.toNat
  else unitEscape (0xd800 + (c.toNat - 0x10000) / 0x400) ++
    unitEscape (0xdc00 + (c.toNat - 0x10000) % 0x400)

theorem ofHex?_unitEscape {u : Nat} (h : u < 0x10000) :
    Text.ofHex? [Nat.digitChar (u / 4096), Nat.digitChar (u / 256 % 16), Nat.digitChar (u / 16 % 16),
      Nat.digitChar (u % 16)] = some u := by
  rw [ofHex?_digitChar (by omega) (by omega) (by omega) (by omega)]
  congr 1
  omega

theorem spells_asciiEscape (c : Char) : Spells (asciiEscape c) [c] := by
  have hvalid : c.toNat < 0xd800 ∨ (0xdfff < c.toNat ∧ c.toNat < 0x110000) := c.valid
  unfold asciiEscape
  split
  · exact spells_escape c
  split
  · rename_i hbmp
    exact .unit (ofHex?_unitEscape hbmp) .nil
  · rename_i hbmp
    have hchar : c = Char.ofNat (0x10000 + (0xd800 + (c.toNat - 0x10000) / 0x400 - 0xd800) * 0x400 +
        (0xdc00 + (c.toNat - 0x10000) % 0x400 - 0xdc00)) := by
      rw [show 0x10000 + (0xd800 + (c.toNat - 0x10000) / 0x400 - 0xd800) * 0x400 +
        (0xdc00 + (c.toNat - 0x10000) % 0x400 - 0xdc00) = c.toNat by omega, Char.ofNat_toNat]
    conv => rhs; rw [hchar]
    refine .pair (ofHex?_unitEscape (by omega)) (ofHex?_unitEscape (by omega)) ?_ ?_ .nil
    · unfold isHighHalf
      rw [Bool.and_eq_true, decide_eq_true_iff, decide_eq_true_iff]
      omega
    · unfold isLowHalf
      rw [Bool.and_eq_true, decide_eq_true_iff, decide_eq_true_iff]
      omega

/-- The text is the string in quotes, written in one of the ways. -/
def Quotes (text s : String) : Prop := ∃ cs, text.toList = '"' :: (cs ++ ['"']) ∧ Spells cs s.toList

theorem quotes_quoted (s : String) : Quotes (quoted s) s :=
  ⟨s.toList.flatMap escape, by simp [quoted, String.toList_append], .flatMap spells_escape _⟩

/-- A string in quotes, in ASCII. -/
def asciiQuoted (s : String) : String :=
  "\"" ++ String.ofList (s.toList.flatMap asciiEscape) ++ "\""

theorem quotes_asciiQuoted (s : String) : Quotes (asciiQuoted s) s :=
  ⟨s.toList.flatMap asciiEscape, by simp [asciiQuoted, String.toList_append],
    .flatMap spells_asciiEscape _⟩

/-! ### Tokens in front of a text -/

theorem delimits_cons {c : Char} {cs : List Char}
    (h : c.isDigit = false ∧ c ≠ '.' ∧ c ≠ 'e' ∧ c ≠ 'E') : Delimits (c :: cs) := by
  rintro _ ⟨⟩
  exact h

theorem next?_digit {c : Char} (h : c.isDigit = true) (cs : List Char) :
    next? c cs = number? false (c :: cs) := by
  unfold next?
  split <;> try cases h
  exact if_pos h

theorem isBlank_digit {c : Char} (h : c.isDigit = true) : isBlank c = false := by
  have hne : ∀ d : Char, d.isDigit = false → (c == d) = false := by
    rintro d hd
    rw [beq_eq_false_iff_ne]
    rintro rfl
    rw [h] at hd
    cases hd
  unfold isBlank
  rw [hne ' ' rfl, hne '\t' rfl, hne '\n' rfl, hne '\r' rfl]
  rfl

theorem toList_repr (n : Nat) : (Nat.repr n).toList = Nat.toDigits 10 n := by
  rw [Nat.repr_eq_ofList_toDigits, String.toList_ofList]

end Token

end Coherence.Json
