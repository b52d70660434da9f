import Coherence.Symbol
/-!
# Compile errors

The ways in which a declaration can fail, with their codes and messages. All but a frame stack out
of balance and a `Breach` concern one declaration: the others go on.
-/

namespace Coherence

/-- An assumption of the compiler about its own data that does not hold. -/
inductive Breach
  /-- A function's name is bound to a symbol of another kind. -/
  | funcKey (found : SymbolKind)
  /-- A variable's name is bound to a symbol of another kind. -/
  | varKey (found : SymbolKind)
  /-- A type's turn has come and its registration was neither made nor refused. -/
  | unsettled
  /-- A function has more parameter types than names, or fewer. -/
  | unaligned
  /-- The type of a structure's field is found a second time. -/
  | resolvedTwice (field : String)
  /-- The position kept for a name is past the last item. -/
  | position (index : Nat)
deriving DecidableEq, Inhabited

def Breach.text : Breach → String
  | funcKey found => "function key bound to " ++ found.text
  | varKey found => "variable key bound to " ++ found.text
  | unsettled => "registration is always settled"
  | unaligned => "parameter types and names must be index-aligned"
  | resolvedTwice field => "field `" ++ field ++ "` resolved twice"
  | position index => "no item at position " ++ Nat.repr index

/-- Why a declaration failed. -/
inductive CompileError
  /-- No open frame binds the name to a symbol of this kind. -/
  | unresolved (kind : SymbolKind) (name : String) (location : Location)
  /-- A type's name is not bound to a type. -/
  | undefinedType (name : String) (location : Location)
  /-- The frame binds the name to a symbol of this kind already. -/
  | duplicate (kind : SymbolKind) (name : String) (location : Location)
  /-- The stack of frames is out of balance. -/
  | unbalanced (depth : Nat)
  /-- Another declaration owes the unit already. -/
  | outputTaken (file : String) (location : Location)
  /-- An operand, argument or result has the wrong type. -/
  | typeMismatch (expected found : String) (location : Location)
  /-- A call has the wrong number of arguments. -/
  | argumentCount (func : String) (expected found : Nat) (location : Location)
  /-- The left-hand side of an assignment is no variable. -/
  | notAssignable (location : Location)
  /-- A state machine was declared inside another one. -/
  | nestedMachine (ident : String) (location : Location)
  /-- The compiler stops where it stands. -/
  | breach (reason : Breach)
deriving DecidableEq, Inhabited

namespace CompileError

/-- Does the error end the whole run? -/
def isFatal : CompileError → Bool
  | unbalanced _ => true
  | breach _ => true
  | _ => false

/-- The code under which the error is reported. -/
def code : CompileError → String
  | unresolved .. => "E0101"
  | undefinedType .. => "E0102"
  | duplicate .. => "E0103"
  | unbalanced .. => "E0104"
  | outputTaken .. => "E0105"
  | typeMismatch .. => "E0201"
  | argumentCount .. => "E0202"
  | notAssignable .. => "E0203"
  | nestedMachine .. => "E0301"
  | breach _ => "panic"

/-- Where the error arose. -/
def location? : CompileError → Option Location
  | unresolved _ _ location => some location
  | undefinedType _ location => some location
  | duplicate _ _ location => some location
  | unbalanced _ => none
  | outputTaken _ location => some location
  | typeMismatch _ _ location => some location
  | argumentCount _ _ _ location => some location
  | notAssignable location => some location
  | nestedMachine _ location => some location
  | breach _ => none

/-- The error in words. -/
def message : CompileError → String
  | unresolved kind name _ => "unresolved " ++ kind.text ++ " `" ++ name ++ "`"
  | undefinedType name _ => "undefined type `" ++ name ++ "`"
  | duplicate kind name _ => "duplicate " ++ kind.text ++ " `" ++ name ++ "` in the same scope"
  | unbalanced depth => "scope stack out of balance at depth " ++ Nat.repr depth
  | outputTaken file _ =>
    "output file `" ++ file ++ "` is already generated by another declaration"
  | typeMismatch expected found _ =>
    "type mismatch: expected `" ++ expected ++ "`, found `" ++ found ++ "`"
  | argumentCount func expected found _ =>
    "`" ++ func ++ "` takes " ++ Nat.repr expected ++ " argument(s) but " ++ Nat.repr found
      ++ " were supplied"
  | notAssignable _ => "left-hand side of an assignment must be a variable"
  | nestedMachine ident _ =>
    "state machine `" ++ ident ++ "` cannot be declared inside another machine"
  | breach reason => reason.text

end CompileError

/-! ### Results of steps that can fail -/

section results

variable {ε α β : Type}

theorem bind_eq_ok {x : Except ε α} {f : α → Except ε β} {b : β} :
    (x >>= f) = .ok b ↔ ∃ a, x = .ok a ∧ f a = .ok b := by
  cases x <;> simp [bind, Except.bind]

theorem bind_eq_error {x : Except ε α} {f : α → Except ε β} {e : ε} :
    (x >>= f) = .error e ↔ x = .error e ∨ ∃ a, x = .ok a ∧ f a = .error e := by
  cases x <;> simp [bind, Except.bind]

theorem map_eq_ok {x : Except ε α} {f : α → β} {b : β} :
    x.map f = .ok b ↔ ∃ a, x = .ok a ∧ f a = b := by
  cases x <;> simp [Except.map]

theorem map_eq_error {x : Except ε α} {f : α → β} {e : ε} : x.map f = .error e ↔ x = .error e := by
  cases x <;> simp [Except.map]

theorem toOption_eq_some {x : Except ε α} {a : α} : x.toOption = some a ↔ x = .ok a := by
  cases x <;> simp [Except.toOption]

end results

/-- The failure of one declaration, named by its identifier. -/
structure DeclError where
  decl : String
  error : CompileError
deriving DecidableEq, Inhabited

def DeclError.message (e : DeclError) : String := "in `" ++ e.decl ++ "`: " ++ e.error.message

end Coherence
