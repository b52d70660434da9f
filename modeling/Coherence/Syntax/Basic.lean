import Coherence.Attributes
import Coherence.Location
/-!
# Declaration trees

A protocol specification is a list of declarations: functions, types, and state machines that hold
declarations of their own. Types are mentioned by name (`TypeName`) and found when a declaration is
compiled, so the order of declarations is free.
-/

namespace Coherence

/-- A type, mentioned by its name. -/
structure TypeName where
  ident : String
  location : Location := {}
deriving DecidableEq, Inhabited

/-! ### Expressions and statements -/

/-- A constant. -/
inductive Literal
  | int (value : Int64)
  | bool (value : Bool)
  | string (value : String)
deriving DecidableEq, Inhabited

inductive BinaryOp
  | add
  | sub
  | mul
  | eq
  | notEq
  | lt
  | gt
  | ltEq
  | gtEq
  | and
  | or
deriving DecidableEq, Inhabited

/-- The operator's spelling in generated code. -/
def BinaryOp.text : BinaryOp → String
  | add => "+"
  | sub => "-"
  | mul => "*"
  | eq => "=="
  | notEq => "!="
  | lt => "<"
  | gt => ">"
  | ltEq => "<="
  | gtEq => ">="
  | and => "&&"
  | or => "||"

/-- An expression of a function body. -/
inductive Expr
  /-- A parameter or local variable. -/
  | var (ident : String) (location : Location)
  | literal (value : Literal) (location : Location)
  /-- The call of a function by its name. -/
  | call (ident : String) (args : List Expr) (location : Location)
  | binary (lhs : Expr) (op : BinaryOp) (rhs : Expr) (location : Location)
deriving Inhabited

def Expr.location : Expr → Location
  | .var _ location => location
  | .literal _ location => location
  | .call _ _ location => location
  | .binary _ _ _ location => location

/-- A statement of a function body. -/
inductive Stmt
  /-- An expression evaluated for its effects. -/
  | eval (expr : Expr) (location : Location)
  | ret (value : Option Expr) (location : Location)
  | assign (lhs rhs : Expr) (location : Location)
  /-- A local variable, perhaps with its first value. -/
  | declare (type : TypeName) (ident : String) (init : Option Expr) (location : Location)
  | branch (cond : Expr) (thenBlock : List Stmt) (elseBlock : Option (List Stmt))
      (location : Location)
deriving Inhabited

/-! ### Declarations -/

/-- A parameter of a function. -/
structure Formal where
  type : TypeName
  ident : String
  location : Location := {}
  pairs : Pairs := .empty
deriving DecidableEq, Inhabited

/-- The declaration of a function; without statements its implementation lies elsewhere. -/
structure FuncDecl where
  returnType : TypeName
  ident : String
  formals : List Formal := []
  pairs : Pairs := .empty
  statements : Option (List Stmt) := none
  location : Location := {}
deriving Inhabited

/-- The declaration of a structure's field. -/
structure FieldDecl where
  type : TypeName
  ident : String
  location : Location := {}
deriving DecidableEq, Inhabited

/-- The shape of a declared type. -/
inductive TypeBody
  | primitive
  | record (fields : List FieldDecl)
  | enumeration (values : List String)
deriving DecidableEq, Inhabited

/-- The declaration of a type. -/
structure TypeDecl where
  ident : String
  body : TypeBody := .primitive
  pairs : Pairs := .empty
  location : Location := {}
deriving DecidableEq, Inhabited

/-- The declaration of a state machine, with members of some kind. -/
structure MachineDecl (δ : Type) where
  ident : String
  pairs : Pairs := .empty
  members : List δ := []
  location : Location := {}
deriving Inhabited

/-- A declaration. -/
inductive Decl
  | func (decl : FuncDecl)
  | type (decl : TypeDecl)
  | machine (decl : MachineDecl Decl)
deriving Inhabited

namespace FuncDecl

/-- The statements of the body; a body without statements is no body. -/
def body? (d : FuncDecl) : Option (List Stmt) :=
  match d.statements with
  | some [] => none
  | statements => statements

/-- The attributes that the pairs stand for. -/
def attributes (d : FuncDecl) : Attributes := .ofPairs d.pairs

/-- No definition is generated for the function. -/
def isExternal (d : FuncDecl) : Bool := d.attributes.external || d.body?.isNone

end FuncDecl

namespace TypeDecl

def attributes (d : TypeDecl) : Attributes := .ofPairs d.pairs

end TypeDecl

namespace Decl

def ident : Decl → String
  | .func d => d.ident
  | .type d => d.ident
  | .machine d => d.ident

def location : Decl → Location
  | .func d => d.location
  | .type d => d.location
  | .machine d => d.location

mutual

/-- The number of declarations in a declaration, itself and its members. -/
def count : Decl → Nat
  | .func _ => 1
  | .type _ => 1
  | .machine ⟨_, _, members, _⟩ => 1 + countAll members

def countAll : List Decl → Nat
  | [] => 0
  | d :: ds => count d + countAll ds

end

end Decl

end Coherence
