import Coherence.Body.Infer
import Coherence.Body.Text
import Coherence.Listing
/-!
# Function bodies

`Body.generate` checks the statements of a function body one after another and writes each as soon
as it is accepted. It runs in the frame of the body: local variables are bound there, and every
block of an `if` gets a frame of its own, closed after it. What was bound and written before a failing
statement stays.
-/

namespace Coherence

/-- What a body is checked against. -/
structure BodyContext where
  /-- The machine that the function belongs to, with the functions it has so far. -/
  machine : Option StateMachine
  returnType : TypeSymbol

/-- How far the statements of a body got. -/
structure BodyOutcome where
  table : SymbolTable
  listing : Listing
  error : Option CompileError := none

/-- The outcome of a block, with the block's frame closed. -/
def BodyOutcome.close (o : BodyOutcome) : BodyOutcome := { o with table := o.table.close }

@[simp]
theorem BodyOutcome.table_close (o : BodyOutcome) : o.close.table = o.table.close := rfl

@[simp]
theorem BodyOutcome.listing_close (o : BodyOutcome) : o.close.listing = o.listing := rfl

@[simp]
theorem BodyOutcome.error_close (o : BodyOutcome) : o.close.error = o.error := rfl

namespace BodyContext

variable (c : BodyContext) (t : SymbolTable)

/-- Checks a `return`. A function without result returns none. -/
def checkReturn (location : Location) : Option Expr → Except CompileError Unit
  | none =>
    if c.returnType.isVoid then .ok ()
    else .error (.typeMismatch c.returnType.ident TypeSymbol.voidName location)
  | some value => do
    let found ← value.infer t c.machine
    if c.returnType.isVoid then
      .error (.typeMismatch TypeSymbol.voidName found.ident location)
    else expectType c.returnType found location

/-- Checks an assignment: a variable on the left, and equal types. -/
def checkAssign (lhs rhs : Expr) (location : Location) : Except CompileError Unit :=
  match lhs with
  | .var .. => do
    let left ← lhs.infer t c.machine
    let right ← rhs.infer t c.machine
    expectType left right location
  | _ => .error (.notAssignable location)

def checkCond (cond : Expr) : Except CompileError Unit := do
  let found ← cond.infer t c.machine
  let bool ← t.resolveType boolName cond.location
  expectType bool found cond.location

/-- Checks the first value of a variable of some type. -/
def checkInit (type : TypeSymbol) : Option Expr → Except CompileError Unit
  | none => .ok ()
  | some init => do
    let found ← init.infer t c.machine
    expectType type found init.location

/-- Checks the declaration of a local variable and binds it. The variable is not in scope in its own
first value. -/
def declareLocal (type : TypeName) (ident : String) (init : Option Expr) (location : Location) :
    Except CompileError (TypeSymbol × SymbolTable) := do
  let symbol ← t.resolveType type.ident type.location
  checkInit c t symbol init
  let table ← t.declare (.var { ident, location, type := symbol })
  return (symbol, table)

end BodyContext

namespace Body

/-- Writes a line if a check succeeded. -/
def emit (t : SymbolTable) (out : Listing) (line : String) :
    Except CompileError Unit → BodyOutcome
  | .ok _ => { table := t, listing := out.line line }
  | .error e => { table := t, listing := out, error := e }

@[simp]
theorem table_emit (t : SymbolTable) (out : Listing) (line : String)
    (check : Except CompileError Unit) : (emit t out line check).table = t := by
  cases check <;> rfl

def returnText : Option Expr → String
  | none => "return;"
  | some value => "return " ++ value.text ++ ";"

def localText (cType ident : String) : Option Expr → String
  | none => cType ++ " " ++ ident ++ ";"
  | some init => cType ++ " " ++ ident ++ " = " ++ init.text ++ ";"

/-- The line that opens the first block of an `if`. -/
def thenText (cond : Expr) : String := "if (" ++ cond.text ++ ") \x7b"

/-- The line that opens the second block of an `if`. -/
def elseText : String := "\x7d else \x7b"

def endText : String := "\x7d"

mutual

/-- Checks and writes one statement. -/
def generateOne (c : BodyContext) (t : SymbolTable) (out : Listing) : Stmt → BodyOutcome
  | .eval expr _ => emit t out (expr.text ++ ";") ((expr.infer t c.machine).map fun _ => ())
  | .ret value location => emit t out (returnText value) (c.checkReturn t location value)
  | .assign lhs rhs location =>
    emit t out (lhs.text ++ " = " ++ rhs.text ++ ";") (c.checkAssign t lhs rhs location)
  | .declare type ident init location =>
    match c.declareLocal t type ident init location with
    | .ok (symbol, table) => { table, listing := out.line (localText symbol.cIdent ident init) }
    | .error e => { table := t, listing := out, error := e }
  | .branch cond thenBlock none _ =>
    match c.checkCond t cond with
    | .error e => { table := t, listing := out, error := e }
    | .ok _ =>
      let first := (generate c t.push (out.line (thenText cond)).indent thenBlock).close
      match first.error with
      | some _ => first
      | none => { first with listing := first.listing.dedent.line endText }
  | .branch cond thenBlock (some elseBlock) _ =>
    match c.checkCond t cond with
    | .error e => { table := t, listing := out, error := e }
    | .ok _ =>
      let first := (generate c t.push (out.line (thenText cond)).indent thenBlock).close
      match first.error with
      | some _ => first
      | none =>
        let second := (generate c first.table.push (first.listing.dedent.line elseText).indent
          elseBlock).close
        match second.error with
        | some _ => second
        | none => { second with listing := second.listing.dedent.line endText }

/-- Checks and writes statements up to the first one that fails. -/
def generate (c : BodyContext) (t : SymbolTable) (out : Listing) : List Stmt → BodyOutcome
  | [] => { table := t, listing := out }
  | s :: rest =>
    let first := generateOne c t out s
    match first.error with
    | some _ => first
    | none => generate c first.table first.listing rest

end

/-- The text of a function's body, indented as it stands in the definition. -/
def text (c : BodyContext) (t : SymbolTable) (statements : List Stmt) :
    Except CompileError String × SymbolTable :=
  let outcome := generate c t { depth := 1 } statements
  match outcome.error with
  | some e => (.error e, outcome.table)
  | none => (.ok outcome.listing.text, outcome.table)

end Body

end Coherence
