import Coherence.StateMachine
import Coherence.SymbolTable
import Coherence.Syntax.Basic
/-!
# Types of expressions

`Expr.infer` finds the type of an expression among the symbols in scope, or says what is wrong with
it. Constants have the types that `int`, `bool` and `string` name in scope. Of the functions of one
name, those of the enclosing machine come before those in scope.
-/

namespace Coherence

/-- The type of integer constants and of arithmetic. -/
def intName : String := "int"

/-- The type of truth values, comparisons and conditions. -/
def boolName : String := "bool"

/-- The type of string constants. -/
def stringName : String := "string"

def Literal.typeName : Literal → String
  | .int _ => intName
  | .bool _ => boolName
  | .string _ => stringName

/-- The name of the type that an operator's operands must have; comparisons take any. -/
def BinaryOp.operandName : BinaryOp → Option String
  | add | sub | mul => some intName
  | and | or => some boolName
  | eq | notEq | lt | gt | ltEq | gtEq => none

/-- Fails unless two types are the same. -/
def expectType (expected found : TypeSymbol) (location : Location) : Except CompileError Unit :=
  if expected.same found then .ok ()
  else .error (.typeMismatch expected.ident found.ident location)

/-- The function of a name that a machine has so far. -/
def ownFunc (machine : Option StateMachine) (ident : String) : Except CompileError (Option Func) :=
  match machine with
  | some m => m.findFunc ident
  | none => .ok none

/-- The function that a call means. -/
def callee (t : SymbolTable) (machine : Option StateMachine) (ident : String)
    (location : Location) : Except CompileError Func := do
  match ← ownFunc machine ident with
  | some f => .ok f
  | none => t.findFunc ident location

def BinaryOp.result (op : BinaryOp) (t : SymbolTable) (operand : TypeSymbol)
    (location : Location) : Except CompileError TypeSymbol :=
  match op.operandName with
  | some name => do
    let type ← t.resolveType name location
    expectType type operand location
    return type
  | none => t.resolveType boolName location

namespace Expr

mutual

/-- The type of an expression. -/
def infer (t : SymbolTable) (machine : Option StateMachine) : Expr → Except CompileError TypeSymbol
  | .var ident location => (t.findVar ident location).map Var.type
  | .literal value location => t.resolveType value.typeName location
  | .call ident args location => do
    let f ← callee t machine ident location
    if f.params.length = args.length then
      checkArgs t machine args f.params
      return f.returnType
    else .error (.argumentCount f.ident f.params.length args.length location)
  | .binary lhs op rhs location => do
    let left ← infer t machine lhs
    let right ← infer t machine rhs
    expectType left right location
    op.result t left location

/-- Checks the arguments of a call against the parameters, from left to right. -/
def checkArgs (t : SymbolTable) (machine : Option StateMachine) :
    List Expr → List Param → Except CompileError Unit
  | arg :: args, param :: params => do
    let found ← infer t machine arg
    expectType param.type found arg.location
    checkArgs t machine args params
  | _, _ => .ok ()

end

end Expr

end Coherence
