import Coherence.Syntax.Basic
import Coherence.Text.Code
/-!
# Text of expressions

`Expr.text` writes an expression as generated code. It depends on nothing but the expression: each
operator stands in parentheses of its own, and every name is kept.
-/

namespace Coherence

def Literal.text : Literal → String
  | .int n => Int.repr n.toInt
  | .bool true => "true"
  | .bool false => "false"
  | .string s => Text.constant s

namespace Expr

mutual

/-- An expression in generated code. -/
def text : Expr → String
  | .var ident _ => ident
  | .literal value _ => value.text
  | .call ident args _ => ident ++ "(" ++ Text.commaList (texts args) ++ ")"
  | .binary lhs op rhs _ => "(" ++ text lhs ++ " " ++ op.text ++ " " ++ text rhs ++ ")"

def texts : List Expr → List String
  | [] => []
  | e :: es => text e :: texts es

end

end Expr

end Coherence
