import Coherence.Json.Printer
import Coherence.Syntax.Basic
/-!
# Writing declaration trees

Each node as a document: a record as an object with all its fields, a variant as an object with its
name as the only member, or as its name if it has no data. `Decl.writeAll` writes a specification.
-/

namespace Coherence

/-- A variant with data. -/
def Json.variant (name : String) (data : Json) : Json := .object [(name, data)]

def Location.toJson (l : Location) : Json :=
  .object [("file", .string l.file), ("line", .number l.line.toNat),
    ("column", .number l.column.toNat)]

/-- The pairs of a declaration as a document. -/
def Json.ofPairs (pairs : Pairs) : Json :=
  .object (pairs.entries.map fun e => (e.1, .string e.2))

def TypeName.toJson (t : TypeName) : Json :=
  .object [("ident", .string t.ident), ("location", t.location.toJson)]

/-! ### Expressions and statements -/

def Literal.toJson : Literal → Json
  | .int n => .variant "Int" (.number n.toInt)
  | .bool b => .variant "Bool" (.bool b)
  | .string s => .variant "String" (.string s)

/-- An operator's name in a document. -/
def BinaryOp.name : BinaryOp → String
  | add => "Add"
  | sub => "Sub"
  | mul => "Mul"
  | eq => "Eq"
  | notEq => "NotEq"
  | lt => "Lt"
  | gt => "Gt"
  | ltEq => "LtEq"
  | gtEq => "GtEq"
  | and => "And"
  | or => "Or"

namespace Expr

mutual

/-- An expression as a document. -/
def toJson : Expr → Json
  | .var ident location =>
    .variant "Var" (.object [("ident", .string ident), ("location", location.toJson)])
  | .literal value location =>
    .variant "Literal" (.object [("value", value.toJson), ("location", location.toJson)])
  | .call ident args location =>
    .variant "Call" (.object [("ident", .string ident), ("args", .array (listToJson args)),
      ("location", location.toJson)])
  | .binary lhs op rhs location =>
    .variant "Binary" (.object [("lhs", toJson lhs), ("op", .string op.name), ("rhs", toJson rhs),
      ("location", location.toJson)])

def listToJson : List Expr → List Json
  | [] => []
  | e :: es => toJson e :: listToJson es

end

def optionToJson : Option Expr → Json
  | some e => e.toJson
  | none => .null

end Expr

namespace Stmt

mutual

def toJson : Stmt → Json
  | .eval expr location =>
    .variant "Expr" (.object [("expr", expr.toJson), ("location", location.toJson)])
  | .ret value location =>
    .variant "Return" (.object [("value", Expr.optionToJson value),
      ("location", location.toJson)])
  | .assign lhs rhs location =>
    .variant "Assign" (.object [("lhs", lhs.toJson), ("rhs", rhs.toJson),
      ("location", location.toJson)])
  | .declare type ident init location =>
    .variant "Local" (.object [("type", type.toJson), ("ident", .string ident),
      ("init", Expr.optionToJson init), ("location", location.toJson)])
  | .branch cond thenBlock none location =>
    .variant "If" (.object [("cond", cond.toJson), ("then_block", .array (listToJson thenBlock)),
      ("else_block", .null), ("location", location.toJson)])
  | .branch cond thenBlock (some elseBlock) location =>
    .variant "If" (.object [("cond", cond.toJson), ("then_block", .array (listToJson thenBlock)),
      ("else_block", .array (listToJson elseBlock)), ("location", location.toJson)])

def listToJson : List Stmt → List Json
  | [] => []
  | s :: ss => toJson s :: listToJson ss

end

end Stmt

/-! ### Declarations -/

def Formal.toJson (f : Formal) : Json :=
  .object [("type", f.type.toJson), ("ident", .string f.ident), ("location", f.location.toJson),
    ("pairs", .ofPairs f.pairs)]

def FuncDecl.toJson (d : FuncDecl) : Json :=
  .object [("return_type", d.returnType.toJson), ("ident", .string d.ident),
    ("formals", .array (d.formals.map Formal.toJson)), ("pairs", .ofPairs d.pairs),
    ("statements", match d.statements with
      | some statements => .array (Stmt.listToJson statements)
      | none => .null),
    ("location", d.location.toJson)]

def FieldDecl.toJson (f : FieldDecl) : Json :=
  .object [("type", f.type.toJson), ("ident", .string f.ident), ("location", f.location.toJson)]

def TypeBody.toJson : TypeBody → Json
  | .primitive => .string "Primitive"
  | .record fields => .variant "Structure" (.array (fields.map FieldDecl.toJson))
  | .enumeration values => .variant "Enumeration" (.array (values.map .string))

def TypeDecl.toJson (d : TypeDecl) : Json :=
  .object [("ident", .string d.ident), ("body", d.body.toJson), ("pairs", .ofPairs d.pairs),
    ("location", d.location.toJson)]

namespace Decl

mutual

/-- A declaration as a document. -/
def toJson : Decl → Json
  | .func d => .variant "Func" d.toJson
  | .type d => .variant "Type" d.toJson
  | .machine ⟨ident, pairs, members, location⟩ =>
    .variant "Machine" (.object [("ident", .string ident), ("pairs", .ofPairs pairs),
      ("decls", .array (listToJson members)), ("location", location.toJson)])

def listToJson : List Decl → List Json
  | [] => []
  | d :: ds => toJson d :: listToJson ds

end

/-- The text of a specification. -/
def writeAll (decls : List Decl) : String := (Json.array (listToJson decls)).text

end Decl

end Coherence
