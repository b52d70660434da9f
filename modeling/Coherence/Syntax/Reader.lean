import Coherence.Json.Decoder
import Coherence.Json.Parser
import Coherence.Syntax.Basic
/-!
# Reading declaration trees

One decoder for each node of the tree. A decoder of nodes that hold nodes of their own kind takes
fuel; every such level opens a bracket, so the brackets that may be opened are fuel enough.
`Decl.readAll?` reads a specification from the text of a document.
-/

namespace Coherence

open Decoder

/-- The greatest number of brackets open at once in what is kept of a document. -/
def Decoder.maxNesting : Nat := 127

def Location.decode : Decoder Location :=
  record ["file", "line", "column"] fun
    | room, [file, line, column] => do
      return {
        file := ← defaulted "" string room file
        line := ← defaulted 0 uint32 room line
        column := ← defaulted 0 uint32 room column }
    | _, _ => none

/-- Reads the field for the position of a node. -/
def Decoder.position : Nat → Option Json → Option Location := defaulted {} Location.decode

/-- Reads the field for the pairs of a declaration. -/
def Decoder.annotations : Nat → Option Json → Option Pairs := defaulted .empty (dictionary string)

def TypeName.decode : Decoder TypeName :=
  record ["ident", "location"] fun
    | room, [ident, location] => do
      return { ident := ← required string room ident, location := ← position room location }
    | _, _ => none

/-! ### Expressions and statements -/

def Literal.decode : Decoder Literal :=
  variant [] [
    ("Int", Decoder.int64.map .int),
    ("Bool", Decoder.bool.map .bool),
    ("String", Decoder.string.map .string)]

def BinaryOp.decode : Decoder BinaryOp :=
  variant [
    ("Add", .add), ("Sub", .sub), ("Mul", .mul), ("Eq", .eq), ("NotEq", .notEq), ("Lt", .lt),
    ("Gt", .gt), ("LtEq", .ltEq), ("GtEq", .gtEq), ("And", .and), ("Or", .or)] []

/-- Reads an expression that is nested less deeply than the fuel. -/
def Expr.decodeWith : (fuel : Nat) → Decoder Expr
  | 0 => fun _ _ => none
  | fuel + 1 =>
    let expr := decodeWith fuel
    variant [] [
      ("Var", record ["ident", "location"] fun
        | room, [ident, location] => do
          return .var (← required string room ident) (← position room location)
        | _, _ => none),
      ("Literal", record ["value", "location"] fun
        | room, [value, location] => do
          return .literal (← required Literal.decode room value) (← position room location)
        | _, _ => none),
      ("Call", record ["ident", "args", "location"] fun
        | room, [ident, args, location] => do
          return .call (← required string room ident) (← defaulted [] (list expr) room args)
            (← position room location)
        | _, _ => none),
      ("Binary", record ["lhs", "op", "rhs", "location"] fun
        | room, [lhs, op, rhs, location] => do
          return .binary (← required expr room lhs) (← required BinaryOp.decode room op)
            (← required expr room rhs) (← position room location)
        | _, _ => none)]

/-- Reads an expression. -/
def Expr.decode : Decoder Expr := fun room => decodeWith room room

/-- Reads a statement that is nested less deeply than the fuel. -/
def Stmt.decodeWith : (fuel : Nat) → Decoder Stmt
  | 0 => fun _ _ => none
  | fuel + 1 =>
    let block := list (decodeWith fuel)
    variant [] [
      ("Expr", record ["expr", "location"] fun
        | room, [expr, location] => do
          return .eval (← required Expr.decode room expr) (← position room location)
        | _, _ => none),
      ("Return", record ["value", "location"] fun
        | room, [value, location] => do
          return .ret (← defaulted none (optional Expr.decode) room value)
            (← position room location)
        | _, _ => none),
      ("Assign", record ["lhs", "rhs", "location"] fun
        | room, [lhs, rhs, location] => do
          return .assign (← required Expr.decode room lhs) (← required Expr.decode room rhs)
            (← position room location)
        | _, _ => none),
      ("Local", record ["type", "ident", "init", "location"] fun
        | room, [type, ident, init, location] => do
          return .declare (← required TypeName.decode room type) (← required string room ident)
            (← defaulted none (optional Expr.decode) room init) (← position room location)
        | _, _ => none),
      ("If", record ["cond", "then_block", "else_block", "location"] fun
        | room, [cond, thenBlock, elseBlock, location] => do
          return .branch (← required Expr.decode room cond) (← required block room thenBlock)
            (← defaulted none (optional block) room elseBlock) (← position room location)
        | _, _ => none)]

def Stmt.decode : Decoder Stmt := fun room => decodeWith room room

/-! ### Declarations -/

def Formal.decode : Decoder Formal :=
  record ["type", "ident", "location", "pairs"] fun
    | room, [type, ident, location, pairs] => do
      return {
        type := ← required TypeName.decode room type
        ident := ← required string room ident
        location := ← position room location
        pairs := ← annotations room pairs }
    | _, _ => none

def FuncDecl.decode : Decoder FuncDecl :=
  record ["return_type", "ident", "formals", "pairs", "statements", "location"] fun
    | room, [returnType, ident, formals, pairs, statements, location] => do
      return {
        returnType := ← required TypeName.decode room returnType
        ident := ← required string room ident
        formals := ← defaulted [] (list Formal.decode) room formals
        pairs := ← annotations room pairs
        statements := ← defaulted none (optional (list Stmt.decode)) room statements
        location := ← position room location }
    | _, _ => none

def FieldDecl.decode : Decoder FieldDecl :=
  record ["type", "ident", "location"] fun
    | room, [type, ident, location] => do
      return {
        type := ← required TypeName.decode room type
        ident := ← required string room ident
        location := ← position room location }
    | _, _ => none

def TypeBody.decode : Decoder TypeBody :=
  variant [("Primitive", .primitive)] [
    ("Structure", (list FieldDecl.decode).map .record),
    ("Enumeration", (list string).map .enumeration)]

def TypeDecl.decode : Decoder TypeDecl :=
  record ["ident", "body", "pairs", "location"] fun
    | room, [ident, body, pairs, location] => do
      return {
        ident := ← required string room ident
        body := ← defaulted .primitive TypeBody.decode room body
        pairs := ← annotations room pairs
        location := ← position room location }
    | _, _ => none

/-- Reads the declaration of a state machine, given how its members are read. -/
def MachineDecl.decode {δ : Type} (member : Decoder δ) : Decoder (MachineDecl δ) :=
  record ["ident", "pairs", "decls", "location"] fun
    | room, [ident, pairs, decls, location] => do
      return {
        ident := ← required string room ident
        pairs := ← annotations room pairs
        members := ← defaulted [] (list member) room decls
        location := ← position room location }
    | _, _ => none

namespace Decl

/-- Reads a declaration that is nested less deeply than the fuel. -/
def decodeWith : (fuel : Nat) → Decoder Decl
  | 0 => fun _ _ => none
  | fuel + 1 =>
    variant [] [
      ("Func", FuncDecl.decode.map .func),
      ("Type", TypeDecl.decode.map .type),
      ("Machine", (MachineDecl.decode (decodeWith fuel)).map .machine)]

/-- Reads a declaration. -/
def decode : Decoder Decl := fun room => decodeWith room room

/-- The declarations in a document. -/
def ofJson? (document : Json) : Option (List Decl) := list decode maxNesting document

/-- The declarations in the text of a document. -/
def readAll? (source : String) : Option (List Decl) := (Json.parse? source).bind ofJson?

end Decl

end Coherence
