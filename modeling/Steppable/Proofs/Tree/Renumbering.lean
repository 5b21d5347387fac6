import Steppable.Scope
import Steppable.Tree.Node

/-!
# Trees with other identities

A parser numbers the nodes and declarations that it makes from the next unused identity on. A tree
that is `raised` has all identities higher by the same number: it is what a parser with a higher next
identity makes of the same source. Places, names and the binding of uses to declarations stay.
-/

namespace Steppable

def Declaration.raised (k : Nat) (d : Declaration) : Declaration :=
  { d with id := d.id + k }

def Tag.raised (k : Nat) (t : Tag) : Tag :=
  { t with id := t.id + k }

mutual

/-- The tree with identities that are higher by `k`. -/
def Node.raised (k : Nat) : Node → Node
  | .constant t v => .constant (t.raised k) v
  | .name t s => .name (t.raised k) s
  | .member t l s => .member (t.raised k) (l.raised k) s
  | .index t l i => .index (t.raised k) (l.raised k) (i.raised k)
  | .call t l as => .call (t.raised k) (l.raised k) (Node.allRaised k as)
  | .binary t op l r => .binary (t.raised k) op (l.raised k) (r.raised k)
  | .unary t op n => .unary (t.raised k) op (n.raised k)
  | .assign t target v => .assign (t.raised k) (target.raised k) (v.raised k)
  | .adjust t a n => .adjust (t.raised k) a (n.raised k)
  | .choice t ternary c a b => .choice (t.raised k) ternary (c.raised k) (a.raised k) (b.raised k)
  | .guarded t c b => .guarded (t.raised k) (c.raised k) (b.raised k)
  | .loop t bodyFirst c b => .loop (t.raised k) bodyFirst (c.raised k) (b.raised k)
  | .block t ss locals =>
    .block (t.raised k) (Node.allRaised k ss) (locals.map (Declaration.raised k))
  | .declare t d => .declare (t.raised k) (d.raised k)
  | .var t d => .var (t.raised k) (d.raised k)
  | .function t code => .function (t.raised k) (code.raised k)
  | .jump t kind => .jump (t.raised k) kind
  | .giveBack t v => .giveBack (t.raised k) (v.raised k)
  | .nop t => .nop (t.raised k)
  | .invalid t message => .invalid (t.raised k) message

/-- Several trees with identities that are higher by `k`. -/
def Node.allRaised (k : Nat) : List Node → List Node
  | [] => []
  | n :: ns => n.raised k :: Node.allRaised k ns

def Lambda.raised (k : Nat) : Lambda → Lambda
  | ⟨name, params, body, free⟩ =>
    ⟨name.map (Declaration.raised k), params.map (Declaration.raised k), body.raised k,
      free.map (Declaration.raised k)⟩

end

/-! ## Raising twice -/

@[simp]
theorem Declaration.raised_zero : raised 0 = fun d => d := rfl

@[simp]
theorem Tag.raised_zero (t : Tag) : t.raised 0 = t := rfl

theorem Declaration.raised_raised (j k : Nat) (d : Declaration) :
    (d.raised j).raised k = d.raised (j + k) := by
  simp [raised, Nat.add_assoc]

theorem Tag.raised_raised (j k : Nat) (t : Tag) : (t.raised j).raised k = t.raised (j + k) := by
  simp [raised, Nat.add_assoc]

theorem Declaration.map_raised_raised (j k : Nat) (ds : List Declaration) :
    (ds.map (raised j)).map (raised k) = ds.map (raised (j + k)) := by
  rw [List.map_map]
  exact List.map_congr_left fun d _ => raised_raised j k d

section

open Node

mutual

theorem Node.raised_zero : (n : Node) → n.raised 0 = n
  | .constant .. | .name .. | .declare .. | .var .. | .jump .. | .nop .. | .invalid .. => rfl
  | .member _ l _ => by simp [raised, l.raised_zero]
  | .index _ l i => by simp [raised, l.raised_zero, i.raised_zero]
  | .call _ l as => by simp [raised, l.raised_zero, Node.allRaised_zero as]
  | .binary _ _ l r => by simp [raised, l.raised_zero, r.raised_zero]
  | .unary _ _ n => by simp [raised, n.raised_zero]
  | .assign _ t v => by simp [raised, t.raised_zero, v.raised_zero]
  | .adjust _ _ n => by simp [raised, n.raised_zero]
  | .choice _ _ c a b => by simp [raised, c.raised_zero, a.raised_zero, b.raised_zero]
  | .guarded _ c b => by simp [raised, c.raised_zero, b.raised_zero]
  | .loop _ _ c b => by simp [raised, c.raised_zero, b.raised_zero]
  | .block _ ss _ => by simp [raised, Node.allRaised_zero ss]
  | .function _ code => by simp [raised, code.raised_zero]
  | .giveBack _ v => by simp [raised, v.raised_zero]

theorem Node.allRaised_zero : (ns : List Node) → Node.allRaised 0 ns = ns
  | [] => rfl
  | n :: ns => by simp [allRaised, n.raised_zero, Node.allRaised_zero ns]

theorem Lambda.raised_zero : (code : Lambda) → code.raised 0 = code
  | ⟨own, params, body, free⟩ => by cases own <;> simp [Lambda.raised, body.raised_zero]

end

mutual

theorem Node.raised_raised (j k : Nat) : (n : Node) → (n.raised j).raised k = n.raised (j + k)
  | .constant .. | .name .. | .jump .. | .nop .. | .invalid .. => by
    simp [raised, Tag.raised_raised]
  | .declare .. | .var .. => by simp [raised, Tag.raised_raised, Declaration.raised_raised]
  | .member _ l _ => by simp [raised, Tag.raised_raised, l.raised_raised]
  | .index _ l i => by simp [raised, Tag.raised_raised, l.raised_raised, i.raised_raised]
  | .call _ l as => by
    simp [raised, Tag.raised_raised, l.raised_raised, Node.allRaised_allRaised j k as]
  | .binary _ _ l r => by simp [raised, Tag.raised_raised, l.raised_raised, r.raised_raised]
  | .unary _ _ n => by simp [raised, Tag.raised_raised, n.raised_raised]
  | .assign _ t v => by simp [raised, Tag.raised_raised, t.raised_raised, v.raised_raised]
  | .adjust _ _ n => by simp [raised, Tag.raised_raised, n.raised_raised]
  | .choice _ _ c a b => by
    simp [raised, Tag.raised_raised, c.raised_raised, a.raised_raised, b.raised_raised]
  | .guarded _ c b => by simp [raised, Tag.raised_raised, c.raised_raised, b.raised_raised]
  | .loop _ _ c b => by simp [raised, Tag.raised_raised, c.raised_raised, b.raised_raised]
  | .block _ ss _ => by
    simp only [raised, Tag.raised_raised, Node.allRaised_allRaised j k ss,
      Declaration.map_raised_raised]
  | .function _ code => by simp [raised, Tag.raised_raised, code.raised_raised]
  | .giveBack _ v => by simp [raised, Tag.raised_raised, v.raised_raised]

theorem Node.allRaised_allRaised (j k : Nat) : (ns : List Node) →
    Node.allRaised k (Node.allRaised j ns) = Node.allRaised (j + k) ns
  | [] => rfl
  | n :: ns => by simp [allRaised, n.raised_raised, Node.allRaised_allRaised j k ns]

theorem Lambda.raised_raised (j k : Nat) : (code : Lambda) →
    (code.raised j).raised k = code.raised (j + k)
  | ⟨own, params, body, free⟩ => by
    have hown : (own.map (Declaration.raised j)).map (Declaration.raised k) =
        own.map (Declaration.raised (j + k)) := by
      cases own <;> simp [Declaration.raised_raised]
    simp only [Lambda.raised, body.raised_raised, hown, Declaration.map_raised_raised]

end

end

/-! ## What stays -/

namespace Node

variable {k : Nat}

theorem allRaised_eq_map (k : Nat) (ns : List Node) : allRaised k ns = ns.map (raised k) := by
  induction ns with
  | nil => rfl
  | cons n ns ih => rw [allRaised, ih, List.map_cons]

@[simp]
theorem tag_raised (k : Nat) (n : Node) : (n.raised k).tag = n.tag.raised k := by
  cases n <;> rfl

@[simp]
theorem place_raised (k : Nat) (n : Node) : (n.raised k).place = n.place := by
  rw [place, tag_raised]
  rfl

@[simp]
theorem isInvalid_raised (k : Nat) (n : Node) : (n.raised k).isInvalid = n.isInvalid := by
  cases n <;> rfl

@[simp]
theorem isAssignable_raised (k : Nat) (n : Node) : (n.raised k).isAssignable = n.isAssignable := by
  cases n <;> rfl

end Node

namespace Scope

/-- The entry with an identity higher by `k`. -/
def Entry.raised (k : Nat) (e : Entry) : Entry :=
  { e with decl := e.decl.raised k }

end Scope

end Steppable
