import Steppable.Parser.Grammar
import Steppable.Proofs.Tree.Shape

/-!
# Printed trees that cannot be read again

A tree is meant to be printed so that it is read again as it was: `Survives`. Parentheses are written
around operators only, though, and a statement can be an operand too. A `return` on the left of an
operator takes the whole operation as its value when it is read again.
-/

namespace Steppable.Parser

/-- The tree of a source under the default rules for declarations. -/
def treeOf (source : String) : Node :=
  ((Parser.new {}).parse source).1

/-- Whether the source is read without an error. -/
def accepts (source : String) : Bool :=
  (treeOf source).invalids.isEmpty

/-- The tree of the source, printed and read again, is what it was but for identities and places. -/
def Survives (source : String) : Prop :=
  accepts (treeOf source).text = true ∧ (treeOf (treeOf source).text).shape = (treeOf source).shape

/-- What survives being printed is printed once more in the same way. -/
theorem Survives.text_eq {source : String} (h : Survives source) :
    (treeOf (treeOf source).text).text = (treeOf source).text := by
  rw [← Node.text_shape, h.2, Node.text_shape]

/-- A `return` on the left of an operator is lost: with its value printed next to the operator, the
whole operation becomes the value. -/
theorem return_operand_lost :
    accepts "(return null) + null" = true ∧ ¬ Survives "(return null) + null" := by
  refine ⟨by decide +kernel, fun h => ?_⟩
  have hne : (treeOf (treeOf "(return null) + null").text).text ≠
      (treeOf "(return null) + null").text := by
    decide +kernel
  exact hne h.text_eq

end Steppable.Parser
