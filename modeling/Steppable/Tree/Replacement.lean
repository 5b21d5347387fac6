import Steppable.Tree.Node

/-!
# Replacing nodes of a tree

Chosen nodes are replaced by new ones, and the nodes above a replaced one are rebuilt around it. All
other nodes are kept as they are, so their identities, and the breakpoints set on them, survive.
What is replaced is not looked into.
-/

namespace Steppable.Node

/-- A node after replacement, whether it changed, and the next unused identity. -/
structure Replaced (α : Type) where
  result : α
  changed : Bool
  next : Nat

/-- Replaces the node itself if `choose` has a replacement for it. -/
def orChosen (choose : Node → Option (Nat → Node)) (next : Nat) (n : Node)
    (otherwise : Unit → Replaced Node) : Replaced Node :=
  match choose n with
  | some make => ⟨make next, true, next + 1⟩
  | none => otherwise ()

/-- The rebuilt node under a new identity at the old place, if anything below it changed. -/
def rebuild (old : Node) (changed : Bool) (next : Nat) (build : Tag → Node) : Replaced Node :=
  if changed then ⟨build ⟨next, old.place⟩, true, next + 1⟩ else ⟨old, false, next⟩

/-- Rebuilds `old` around one child. -/
def rebuild₁ (old : Node) (a : Replaced Node) (build : Tag → Node → Node) : Replaced Node :=
  rebuild old a.changed a.next fun t => build t a.result

/-- Rebuilds `old` around two children, the second one replaced after the first. -/
def rebuild₂ (old : Node) (a : Replaced Node) (b : Nat → Replaced Node)
    (build : Tag → Node → Node → Node) : Replaced Node :=
  let b := b a.next
  rebuild old (a.changed || b.changed) b.next fun t => build t a.result b.result

mutual

/-- Replaces every node for which `choose` has a replacement, made from an unused identity. -/
def replace (choose : Node → Option (Nat → Node)) (next : Nat) : Node → Replaced Node
  | n@(.member _ l s) => orChosen choose next n fun _ =>
    rebuild₁ n (replace choose next l) fun t l => .member t l s
  | n@(.index _ l i) => orChosen choose next n fun _ =>
    rebuild₂ n (replace choose next l) (replace choose · i) fun t l i => .index t l i
  | n@(.call _ l as) => orChosen choose next n fun _ =>
    let l := replace choose next l
    let as := replaceAll choose l.next as
    rebuild n (l.changed || as.changed) as.next fun t => .call t l.result as.result
  | n@(.binary _ op l r) => orChosen choose next n fun _ =>
    rebuild₂ n (replace choose next l) (replace choose · r) fun t l r => .binary t op l r
  | n@(.unary _ op m) => orChosen choose next n fun _ =>
    rebuild₁ n (replace choose next m) fun t m => .unary t op m
  | n@(.assign _ a v) => orChosen choose next n fun _ =>
    rebuild₂ n (replace choose next a) (replace choose · v) fun t a v => .assign t a v
  | n@(.adjust _ c m) => orChosen choose next n fun _ =>
    rebuild₁ n (replace choose next m) fun t m => .adjust t c m
  | n@(.choice _ ternary c a b) => orChosen choose next n fun _ =>
    let c := replace choose next c
    let a := replace choose c.next a
    let b := replace choose a.next b
    rebuild n (c.changed || a.changed || b.changed) b.next fun t =>
      .choice t ternary c.result a.result b.result
  | n@(.guarded _ c b) => orChosen choose next n fun _ =>
    rebuild₂ n (replace choose next c) (replace choose · b) fun t c b => .guarded t c b
  | n@(.loop _ bodyFirst c b) => orChosen choose next n fun _ =>
    rebuild₂ n (replace choose next c) (replace choose · b) fun t c b => .loop t bodyFirst c b
  | n@(.block _ ss locals) => orChosen choose next n fun _ =>
    let ss := replaceAll choose next ss
    rebuild n ss.changed ss.next fun t => .block t ss.result locals
  | n@(.function _ ⟨d, params, body, free⟩) => orChosen choose next n fun _ =>
    rebuild₁ n (replace choose next body) fun t body => .function t ⟨d, params, body, free⟩
  | n@(.giveBack _ v) => orChosen choose next n fun _ =>
    rebuild₁ n (replace choose next v) fun t v => .giveBack t v
  | n => orChosen choose next n fun _ => ⟨n, false, next⟩

def replaceAll (choose : Node → Option (Nat → Node)) (next : Nat) :
    List Node → Replaced (List Node)
  | [] => ⟨[], false, next⟩
  | n :: ns =>
    let n := replace choose next n
    let ns := replaceAll choose n.next ns
    ⟨n.result :: ns.result, n.changed || ns.changed, ns.next⟩

end

end Steppable.Node
