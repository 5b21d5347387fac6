import Steppable.Calendar
import Steppable.Numeric.Numeral
import Steppable.Text.Quoted
import Steppable.Tree.Node

/-!
# Trees and values as text

A tree is written with parentheses around every operation, so that it can be read again; a value is
written the way it turns into a text. Functions are written by their code, so the two are printed
together.
-/

namespace Steppable

/-- The items with `separator` between them. -/
def joinWith (separator : String) : List String → String
  | [] => ""
  | [s] => s
  | s :: t :: ss => s ++ separator ++ joinWith separator (t :: ss)

namespace Node

/-- Whether the node is one declaration of a `var` statement. -/
def isDeclarator : Node → Bool
  | declare .. => true
  | assign _ t _ => t.isDeclare
  | _ => false

/-- A `var` statement with several declarations is a block of them without locals. -/
def isVarList : Node → Bool
  | block _ ss locals => locals.isEmpty && ss.length > 1 && ss.all isDeclarator
  | _ => false

def isBlock : Node → Bool
  | block .. => true
  | _ => false

/-- The text of `n` in braces. A block brings its own. -/
def braced (n : Node) (text : String) : String :=
  if n.isBlock && !n.isVarList then text else "\x7b " ++ text ++ "; \x7d"

/-- The characters after all the leading words `var `. -/
def dropVar : List Char → List Char
  | 'v' :: 'a' :: 'r' :: ' ' :: cs => dropVar cs
  | cs => cs

end Node

def Adjustment.symbol (a : Adjustment) : String :=
  if a.increases then "++" else "--"

/-- A number constant: a negative one is written like a negation. -/
def numberConstant (x : Float) : String :=
  if x < 0 then "(-" ++ Numeric.text (-x) ++ ")" else Numeric.text x

mutual

def Node.text : Node → String
  | .constant _ (.string s) => Text.quote s
  | .constant _ (.number x) => numberConstant x
  | .constant _ v => v.text
  | .name _ s => s
  | .member _ l s => l.text ++ "." ++ s
  | .index _ l i => l.text ++ "[" ++ i.text ++ "]"
  | .call _ l as => l.text ++ "(" ++ joinWith ", " (Node.texts as) ++ ")"
  | .binary _ op l r => "(" ++ l.text ++ " " ++ op.symbol ++ " " ++ r.text ++ ")"
  | .unary _ op n => "(" ++ op.lead ++ n.text ++ ")"
  | .assign _ t v =>
    if t.isDeclare then t.text ++ " = " ++ v.text else "(" ++ t.text ++ " = " ++ v.text ++ ")"
  | .adjust _ a n =>
    if a.before then "(" ++ a.symbol ++ n.text ++ ")" else "(" ++ n.text ++ a.symbol ++ ")"
  | .choice _ true c t f => "(" ++ c.text ++ " ? " ++ t.text ++ " : " ++ f.text ++ ")"
  | .choice _ false c t f =>
    "if (" ++ c.text ++ ") " ++ t.braced t.text ++ " else " ++ f.braced f.text
  | .guarded _ c b => "if (" ++ c.text ++ ") " ++ b.braced b.text
  | .loop _ false c b => "while (" ++ c.text ++ ") " ++ b.braced b.text
  | .loop _ true c b => "do " ++ b.braced b.text ++ " while (" ++ c.text ++ ")"
  | n@(.block _ ss _) =>
    let texts := Node.texts ss
    if n.isVarList then
      "var " ++ joinWith ", " (texts.map fun s => String.ofList (Node.dropVar s.toList))
    else "\x7b " ++ joinWith "" (texts.map (· ++ "; ")) ++ "\x7d"
  | .declare _ d => "var " ++ d.name
  | .var _ d => d.name
  | .function _ code => code.text
  | .jump _ k => k.keyword
  | .giveBack _ v => "return " ++ v.text
  | .nop _ => ""
  | .invalid _ message => "\u2039error: " ++ message ++ "\u203a"

def Node.texts : List Node → List String
  | [] => []
  | n :: ns => n.text :: Node.texts ns

/-- The code of a function. -/
def Lambda.text : Lambda → String
  | ⟨name, params, body, _⟩ =>
    "function " ++ (match name with | some d => d.name | none => "") ++ "(" ++
      joinWith ", " (params.map Declaration.name) ++ ") " ++ body.braced body.text

/-- The text that a value turns into. -/
def Value.text : Value → String
  | .undefined => "undefined"
  | .null => "null"
  | .boolean b => if b then "true" else "false"
  | .number x => Numeric.text x
  | .string s => s
  | .date ms => Calendar.text ms
  | .function ⟨_, code, _⟩ => code.text
  | .error ⟨_, culprit, message, _⟩ => "Error: " ++ message ++ " at " ++ culprit.place.text ++ "."
  | .signal k _ _ => k.keyword
  | .reference cell => "<ref " ++ toString cell ++ ">"

end

/-- A fault in words. -/
def Fault.text (f : Fault) : String :=
  (Value.error f).text

end Steppable
