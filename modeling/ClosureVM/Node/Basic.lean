import ClosureVM.Code.Error
import ClosureVM.Text.Literal

/-! Program trees. Any node may stand in any place: what does not belong there is reported
when the tree is compiled. -/
namespace ClosureVM

/-- The source line of a node, where it is known. -/
abbrev Line := Option Int

/-- `foreign` is what stands in the place of a node without being one. -/
inductive Node
  | foreign (kind text : String)
  | program (line : Line) (statements : List Node)
  | letStmt (line : Line) (name value : Node)
  | returnStmt (line : Line) (value : Option Node)
  | exprStmt (line : Line) (expr : Node)
  | block (line : Line) (statements : List Node)
  | ident (line : Line) (name : String)
  | intLit (line : Line) (value : Numeral)
  | strLit (line : Line) (value : String)
  | boolLit (line : Line) (value : Bool)
  | unary (line : Line) (op : String) (right : Node)
  | binary (line : Line) (left : Node) (op : String) (right : Node)
  | ifExpr (line : Line) (condition : Node) (consequence alternative : Option Node)
  | fnLit (line : Line) (params : List Node) (body : Node) (name : Option String)
  | call (line : Line) (callee : Node) (args : List Node)
  | arrayLit (line : Line) (elements : List Node)
  | hashLit (line : Line) (pairs : List (Node × Node))
  | index (line : Line) (left index : Node)
  deriving Inhabited

namespace Node

def line : Node → Line
  | foreign .. => none
  | program line _ | letStmt line _ _ | returnStmt line _ | exprStmt line _ | block line _
  | ident line _ | intLit line _ | strLit line _ | boolLit line _ | unary line _ _
  | binary line _ _ _ | ifExpr line _ _ _ | fnLit line _ _ _ | call line _ _
  | arrayLit line _ | hashLit line _ | index line _ _ => line

/-- What messages call a node of this form. -/
def kind : Node → String
  | foreign kind _ => kind
  | program .. => "Program"
  | letStmt .. => "LetStatement"
  | returnStmt .. => "ReturnStatement"
  | exprStmt .. => "ExpressionStatement"
  | block .. => "BlockStatement"
  | ident .. => "Identifier"
  | intLit .. => "IntegerLiteral"
  | strLit .. => "StringLiteral"
  | boolLit .. => "Boolean"
  | unary .. => "PrefixExpression"
  | binary .. => "InfixExpression"
  | ifExpr .. => "IfExpression"
  | fnLit .. => "FunctionLiteral"
  | call .. => "CallExpression"
  | arrayLit .. => "ArrayLiteral"
  | hashLit .. => "HashLiteral"
  | index .. => "IndexExpression"

end Node

/-- The name that an identifier or a string spells. -/
def Node.name? : Node → Option String
  | ident _ name | strLit _ name => some name
  | _ => none

/-- A name that is given and not empty. -/
def given? : Option String → Option String
  | some "" => none
  | name => name

theorem given?_some (name : String) :
    given? (some name) = if name = "" then none else some name := by
  unfold given?
  split
  · rename_i h
    cases h
    rfl
  · rename_i h
    rw [if_neg fun he => h (congrArg some he)]

end ClosureVM
