/-!
# Digits

Readers of numbers share these: hexadecimal digits of either case, and the sign in front of a
number. Decimal numbers are read by `Nat.ofDigitChars`.
-/

namespace Coherence.Text

/-- The value of a hexadecimal digit. -/
def hexValue? (c : Char) : Option Nat :=
  if '0' ≤ c ∧ c ≤ '9' then some (c.toNat - '0'.toNat)
  else if 'a' ≤ c ∧ c ≤ 'f' then some (c.toNat - 'a'.toNat + 10)
  else if 'A' ≤ c ∧ c ≤ 'F' then some (c.toNat - 'A'.toNat + 10)
  else none

/-- The number that a list of hexadecimal digits stands for, if all of them are such digits. -/
def ofHex? (digits : List Char) : Option Nat :=
  (digits.mapM hexValue?).map fun values => values.foldl (fun n v => 16 * n + v) 0

theorem hexValue?_digitChar : ∀ n < 16, hexValue? (Nat.digitChar n) = some n := by decide

/-- Hexadecimal digits stand for the number that they were made of. -/
theorem ofHex?_toDigits (n : Nat) : ofHex? (Nat.toDigits 16 n) = some n := by
  have hvalues : ∃ values, (Nat.toDigits 16 n).mapM hexValue? = some values ∧
      values.foldl (fun n v => 16 * n + v) 0 = n := by
    induction n using Nat.strongRecOn with
    | ind n ih =>
        by_cases hn : n < 16
        · refine ⟨[n], ?_, by simp⟩
          rw [Nat.toDigits_of_lt_base hn]
          simp [hexValue?_digitChar n hn]
        · obtain ⟨values, hvalues, hfold⟩ := ih (n / 16) (by omega)
          refine ⟨values ++ [n % 16], ?_, ?_⟩
          · rw [Nat.toDigits_of_base_le (by omega) (by omega), List.mapM_append, hvalues]
            simp [hexValue?_digitChar (n % 16) (by omega)]
          · rw [List.foldl_append, hfold, List.foldl_cons, List.foldl_nil]
            omega
  obtain ⟨values, hvalues, hfold⟩ := hvalues
  unfold ofHex?
  rw [hvalues, Option.map_some, hfold]

/-- A run of characters is cut off where it is not continued. -/
theorem cut_append {p : Char → Bool} {run rest : List Char} (hrun : ∀ c ∈ run, p c = true)
    (hrest : ∀ c ∈ rest.head?, p c = false) :
    (run ++ rest).takeWhile p = run ∧ (run ++ rest).dropWhile p = rest := by
  have hnone : rest.takeWhile p = [] ∧ rest.dropWhile p = rest := by
    cases rest with
    | nil => exact ⟨rfl, rfl⟩
    | cons c cs =>
        have hc : ¬p c = true := by simp [hrest c rfl]
        exact ⟨List.takeWhile_cons_of_neg hc, List.dropWhile_cons_of_neg hc⟩
  constructor
  · rw [List.takeWhile_append_of_pos hrun, hnone.1, List.append_nil]
  · rw [List.dropWhile_append_of_pos hrun, hnone.2]

/-- Drops the sign of a number, if there is one. -/
def dropSign : List Char → List Char
  | '+' :: rest => rest
  | '-' :: rest => rest
  | rest => rest

end Coherence.Text
