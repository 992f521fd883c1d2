import ClosureVM.Node.Basic

/-! Program trees as text. -/
namespace ClosureVM.Node

mutual

def render : Node → String
  | .foreign _ text => text
  | .program _ statements | .block _ statements => String.join (renderAll statements)
  | .letStmt _ name value => "let " ++ render name ++ " = " ++ render value ++ ";"
  | .returnStmt _ none => "return;"
  | .returnStmt _ (some value) => "return " ++ render value ++ ";"
  | .exprStmt _ expr => render expr
  | .ident _ name => name
  | .intLit _ value => value.text
  | .strLit _ value => value
  | .boolLit _ value => boolText value
  | .unary _ op right => "(" ++ op ++ render right ++ ")"
  | .binary _ left op right => "(" ++ render left ++ " " ++ op ++ " " ++ render right ++ ")"
  | .ifExpr _ condition consequence none =>
    "if" ++ render condition ++ " " ++ renderBranch consequence
  | .ifExpr _ condition consequence (some alternative) =>
    "if" ++ render condition ++ " " ++ renderBranch consequence ++ "else " ++ render alternative
  | .fnLit _ params body name =>
    let label := match given? name with
      | some name => "<" ++ name ++ ">"
      | none => ""
    "fn" ++ label ++ listText "(" ")" (renderAll params) ++ " " ++ render body
  | .call _ callee args => render callee ++ listText "(" ")" (renderAll args)
  | .arrayLit _ elements => listText "[" "]" (renderAll elements)
  | .hashLit _ pairs => listText "\x7b" "\x7d" (renderPairs pairs)
  | .index _ left sub => "(" ++ render left ++ "[" ++ render sub ++ "])"

def renderBranch : Option Node → String
  | none => "None"
  | some branch => render branch

def renderAll : List Node → List String
  | [] => []
  | node :: rest => render node :: renderAll rest

def renderPairs : List (Node × Node) → List String
  | [] => []
  | (key, value) :: rest => (render key ++ ":" ++ render value) :: renderPairs rest

end

end ClosureVM.Node
