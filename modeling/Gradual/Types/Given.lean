import Gradual.Types.Checker
import Gradual.Types.Expr

/-!
Oracles given by answers about type expressions. An answer holds for the two nodes that its
expressions denote; expressions of inline forms denote nodes of their own, which nothing else reaches.
-/
namespace Gradual

structure GivenAnswer where
  rel : Relation
  left : TypeExpr
  right : TypeExpr
  answer : Bool

/-- The nodes of the answers, the last answer first. -/
def buildAnswers (scope : TypeScope) :
    List GivenAnswer → TypeBuilder (List (Relation × Child × Child × Bool))
  | [] => pure []
  | g :: rest => do
    let a ← g.left.build scope
    let b ← g.right.build scope
    let entries ← buildAnswers scope rest
    return entries ++ [(g.rel, a, b, g.answer)]

/-- A later answer about a pair replaces an earlier one. -/
def buildOracle (scope : TypeScope) (given : List GivenAnswer) : TypeBuilder Oracle := do
  let entries ← buildAnswers scope given
  return fun rel a b =>
    (entries.find? fun (r, x, y, _) => r = rel && x = some a && y = some b).map fun (_, _, _, r) => r

end Gradual
