import Coherence.Func
/-!
# Symbols

A symbol is what a name is bound to. Each lookup asks for a kind, so a type and a function may share
a name.
-/

namespace Coherence

/-- The kinds of named things. -/
inductive SymbolKind
  | type
  | func
  | var
  | machine
deriving DecidableEq, Inhabited

/-- The kind as named in a message. -/
def SymbolKind.text : SymbolKind → String
  | type => "type"
  | func => "function"
  | var => "variable"
  | machine => "state machine"

/-- A parameter or local variable. -/
structure Var where
  ident : String
  location : Location := {}
  type : TypeSymbol
deriving DecidableEq, Inhabited

def Var.code (v : Var) : String := v.ident

/-- What a name is bound to. -/
inductive Symbol
  | type (type : TypeSymbol)
  | func (func : Func)
  | var (var : Var)
deriving DecidableEq, Inhabited

namespace Symbol

/-- The name that the symbol is declared under. -/
def name : Symbol → String
  | type t => t.ident
  | func f => f.ident
  | var v => v.ident

def kind : Symbol → SymbolKind
  | type _ => .type
  | func _ => .func
  | var _ => .var

/-- What a frame finds the symbol by. -/
def key (s : Symbol) : String × SymbolKind := (s.name, s.kind)

theorem key_eq_iff {s : Symbol} {name : String} {kind : SymbolKind} :
    s.key = (name, kind) ↔ s.name = name ∧ s.kind = kind := Prod.ext_iff

def location : Symbol → Location
  | type t => t.location
  | func f => f.location
  | var v => v.location

end Symbol

end Coherence
