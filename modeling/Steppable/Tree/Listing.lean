import Steppable.Tree.Printer

/-!
# Listing a tree

A tree as a flat list of rows, one per visit, each node before its children. Nodes and declarations
are numbered in the order in which they are first met, so that two listings of equal trees are equal
whatever identities the nodes have.
-/

namespace Steppable

/-- The name of the type of a value. -/
def Value.typeName : Value → String
  | .undefined | .signal .. => "undefined"
  | .null | .date _ | .error _ | .reference _ => "object"
  | .boolean _ => "boolean"
  | .number _ => "number"
  | .string _ => "string"
  | .function _ => "function"

/-- One visit of a node. -/
structure Row where
  number : Nat
  depth : Nat
  kind : String
  detail : String
  node : Node

/-- The identities met so far: the place of one in the list is its number. -/
structure Numbering where
  nodes : List Nat := []
  decls : List Nat := []

namespace Numbering

/-- The number of `id`, which is added to `known` if it is new. -/
def number (known : List Nat) (id : Nat) : Nat × List Nat :=
  match known.idxOf? id with
  | some i => (i, known)
  | none => (known.length, known ++ [id])

/-- A declaration with its number. -/
def mention (ns : Numbering) (d : Declaration) : String × Numbering :=
  let (i, decls) := number ns.decls d.id
  (d.name ++ "#" ++ toString i, { ns with decls })

/-- Several declarations, with commas between them. -/
def mentionAll (ns : Numbering) (ds : List Declaration) : String × Numbering :=
  let (texts, ns) := ds.foldl (fun (texts, ns) d =>
    let (t, ns) := mention ns d
    (texts ++ [t], ns)) ([], ns)
  (joinWith "," texts, ns)

end Numbering

namespace Node

/-- The word for the kind of a node. -/
def kindName : Node → String
  | constant .. => "constant"
  | name .. | member .. => "member"
  | index .. => "indexer"
  | call .. => "call"
  | binary .. => "binary"
  | unary .. => "unary"
  | assign .. => "assign"
  | adjust .. => "incdec"
  | choice .. | guarded .. => "if"
  | loop .. => "while"
  | block .. => "block"
  | declare .. => "declvar"
  | var .. => "variable"
  | function .. => "function"
  | jump .. | giveBack .. => "flow"
  | nop .. => "nop"
  | invalid .. => "error"

/-- What the kind leaves open: the operator, the name, the declarations. -/
def detail (ns : Numbering) : Node → String × Numbering
  | constant _ v =>
    let text := match v with
      | .string s => Text.quote s
      | v => v.text
    (v.typeName ++ " " ++ text, ns)
  | name _ s | member _ _ s => (s, ns)
  | call _ _ as => (toString as.length, ns)
  | binary _ op _ _ => (op.symbol, ns)
  | unary _ op _ => (op.symbol, ns)
  | adjust _ a _ => ((if a.before then "prefix " else "postfix ") ++ a.symbol, ns)
  | choice _ ternary _ _ _ => (if ternary then "ternary" else "if else", ns)
  | guarded .. => ("if", ns)
  | loop _ bodyFirst _ _ => (if bodyFirst then "do" else "while", ns)
  | block _ ss locals =>
    let (ds, ns) := ns.mentionAll locals
    (toString ss.length ++ " [" ++ ds ++ "]", ns)
  | declare _ d | var _ d => ns.mention d
  | function _ code =>
    let (own, ns) := ns.mentionAll code.name.toList
    let (params, ns) := ns.mentionAll code.params
    let (free, ns) := ns.mentionAll code.free
    (own ++ "(" ++ params ++ ")[" ++ free ++ "]", ns)
  | jump _ k => (k.keyword, ns)
  | giveBack .. => (Jump.return.keyword, ns)
  | invalid _ message => (message, ns)
  | index .. | assign .. | nop .. => ("", ns)

/-- The rows of the visits, numbered after `ns`. -/
def rowsFrom (ns : Numbering) : List (Nat × Node) → List Row
  | [] => []
  | (depth, node) :: rest =>
    let (number, nodes) := Numbering.number ns.nodes node.id
    let (detail, ns) := node.detail { ns with nodes }
    { number, depth, kind := node.kindName, detail, node } :: rowsFrom ns rest

/-- The listing of a tree, whose root has depth one. -/
def rows (n : Node) : List Row :=
  rowsFrom {} (n.visits 1)

/-- The node that the listing gives the number `i`. -/
def numbered? (n : Node) (i : Nat) : Option Node :=
  (n.rows.find? (·.number == i)).map (·.node)

end Node

end Steppable
