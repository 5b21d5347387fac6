import Steppable.Tree.Printer

/-!
# The shape of a tree

Two trees have the same shape if they differ in identities and places only: the kinds of nodes, their
operators, constants, names and flags and the way they are nested are the same. A tree is printed by
its shape (`text_shape`), so trees that are printed differently differ in shape.
-/

namespace Steppable

/-- The declaration without its identity and its place. -/
def Declaration.shape (d : Declaration) : Declaration :=
  ⟨0, d.name, {}⟩

mutual

/-- The tree without identities and places. -/
def Node.shape : Node → Node
  | .constant _ v => .constant {} v
  | .name _ s => .name {} s
  | .member _ l s => .member {} l.shape s
  | .index _ l i => .index {} l.shape i.shape
  | .call _ l as => .call {} l.shape (Node.shapes as)
  | .binary _ op l r => .binary {} op l.shape r.shape
  | .unary _ op n => .unary {} op n.shape
  | .assign _ t v => .assign {} t.shape v.shape
  | .adjust _ a n => .adjust {} a n.shape
  | .choice _ ternary c t f => .choice {} ternary c.shape t.shape f.shape
  | .guarded _ c b => .guarded {} c.shape b.shape
  | .loop _ bodyFirst c b => .loop {} bodyFirst c.shape b.shape
  | .block _ ss locals => .block {} (Node.shapes ss) (locals.map Declaration.shape)
  | .declare _ d => .declare {} d.shape
  | .var _ d => .var {} d.shape
  | .function _ code => .function {} code.shape
  | .jump _ k => .jump {} k
  | .giveBack _ v => .giveBack {} v.shape
  | .nop _ => .nop {}
  | .invalid _ message => .invalid {} message

/-- The shapes of several trees. -/
def Node.shapes : List Node → List Node
  | [] => []
  | n :: ns => n.shape :: Node.shapes ns

def Lambda.shape : Lambda → Lambda
  | ⟨name, params, body, free⟩ =>
    ⟨name.map Declaration.shape, params.map Declaration.shape, body.shape,
      free.map Declaration.shape⟩

end

namespace Node

variable {n : Node} {ns : List Node}

theorem shapes_eq_map (ns : List Node) : shapes ns = ns.map shape := by
  induction ns with
  | nil => rfl
  | cons n ns ih => rw [shapes, ih, List.map_cons]

/-! ## Classes of nodes -/

@[simp]
theorem isDeclare_shape (n : Node) : n.shape.isDeclare = n.isDeclare := by
  cases n <;> rfl

@[simp]
theorem isBlock_shape (n : Node) : n.shape.isBlock = n.isBlock := by
  cases n <;> rfl

@[simp]
theorem isInvalid_shape (n : Node) : n.shape.isInvalid = n.isInvalid := by
  cases n <;> rfl

@[simp]
theorem isAssignable_shape (n : Node) : n.shape.isAssignable = n.isAssignable := by
  cases n <;> rfl

@[simp]
theorem isDeclarator_shape (n : Node) : n.shape.isDeclarator = n.isDeclarator := by
  cases n with
  | assign t target v => exact isDeclare_shape target
  | _ => rfl

@[simp]
theorem isVarList_shape (n : Node) : n.shape.isVarList = n.isVarList := by
  cases n with
  | block t ss locals =>
    simp [shape, isVarList, shapes_eq_map, List.all_map, Function.comp_def]
  | _ => rfl

theorem braced_shape (n : Node) (text : String) : n.shape.braced text = n.braced text := by
  simp [braced]

end Node

/-! ## Printing -/

section

open Node

mutual

/-- **A tree is printed by its shape.** -/
theorem Node.text_shape : (n : Node) → n.shape.text = n.text
  | .constant _ v => by cases v <;> rfl
  | .name .. | .declare .. | .var .. | .jump .. | .nop .. | .invalid .. => rfl
  | .member _ l _ => by simp [shape, text, l.text_shape]
  | .index _ l i => by simp [shape, text, l.text_shape, i.text_shape]
  | .call _ l as => by simp [shape, text, l.text_shape, Node.texts_shapes as]
  | .binary _ _ l r => by simp [shape, text, l.text_shape, r.text_shape]
  | .unary _ _ n => by simp [shape, text, n.text_shape]
  | .assign _ t v => by simp [shape, text, t.text_shape, v.text_shape]
  | .adjust _ _ n => by simp [shape, text, n.text_shape]
  | .choice _ true c t f => by simp [shape, text, c.text_shape, t.text_shape, f.text_shape]
  | .choice _ false c t f => by
    simp [shape, text, c.text_shape, t.text_shape, f.text_shape, braced_shape]
  | .guarded _ c b => by simp [shape, text, c.text_shape, b.text_shape, braced_shape]
  | .loop _ true c b => by simp [shape, text, c.text_shape, b.text_shape, braced_shape]
  | .loop _ false c b => by simp [shape, text, c.text_shape, b.text_shape, braced_shape]
  | n@(.block t ss locals) => by
    have hv : (Node.block {} (shapes ss) (locals.map Declaration.shape)).isVarList = _ :=
      isVarList_shape (.block t ss locals)
    simp [shape, text, Node.texts_shapes ss, hv]
  | .function _ code => by simp [shape, text, code.text_shape]
  | .giveBack _ v => by simp [shape, text, v.text_shape]

theorem Node.texts_shapes : (ns : List Node) → Node.texts (Node.shapes ns) = Node.texts ns
  | [] => rfl
  | n :: ns => by simp [shapes, texts, n.text_shape, Node.texts_shapes ns]

theorem Lambda.text_shape : (code : Lambda) → code.shape.text = code.text
  | ⟨own, params, body, free⟩ => by
    have hp : (params.map Declaration.shape).map Declaration.name = params.map Declaration.name := by
      rw [List.map_map]
      rfl
    cases own with
    | none => simp only [Lambda.shape, Lambda.text, Option.map_none, hp, Node.braced_shape, body.text_shape]
    | some d =>
      simp only [Lambda.shape, Lambda.text, Option.map_some, hp, Node.braced_shape, body.text_shape]
      rfl

end

end

end Steppable
