import Steppable.Proofs.Tree.Within

/-!
# Scoped trees

A tree is scoped in a set of declarations if every variable in it is one of the set, a local of a
block around it, or, inside a function, a parameter or a free variable of that function. Declarations
are given by their identities.
-/

namespace Steppable

/-- The identities of some declarations. -/
def idsOf (ds : List Declaration) (k : Nat) : Prop :=
  ∃ d ∈ ds, d.id = k

theorem idsOf_of_mem {ds : List Declaration} {d : Declaration} (h : d ∈ ds) : idsOf ds d.id :=
  ⟨d, h, rfl⟩

namespace Node

/-- Whether the node neither uses nor binds a declaration. -/
def isNeutral : Node → Bool
  | block .. | declare .. | var .. | function .. => false
  | _ => true

/-- The declarations that get a cell when the node is evaluated or called. -/
def opens : Node → List Declaration
  | block _ _ locals => locals
  | function _ code => code.params
  | _ => []

/-- The declarations that get a cell, or are given one that was captured, when the node is evaluated
or called. -/
def binds : Node → List Declaration
  | block _ _ locals => locals
  | function _ code => code.params ++ code.free
  | _ => []

/-- Every variable of the tree is bound, given those in `Γ`. -/
inductive Scoped : (Nat → Prop) → Node → Prop
  | neutral {Γ : Nat → Prop} {n : Node} : n.isNeutral = true → (∀ c ∈ n.children, Scoped Γ c) →
      Scoped Γ n
  | declare {Γ : Nat → Prop} {t : Tag} {d : Declaration} : Γ d.id → Scoped Γ (.declare t d)
  | var {Γ : Nat → Prop} {t : Tag} {d : Declaration} : Γ d.id → Scoped Γ (.var t d)
  | block {Γ : Nat → Prop} {t : Tag} {ss : List Node} {locals : List Declaration} :
      (∀ s ∈ ss, Scoped (fun k => Γ k ∨ idsOf locals k) s) → Scoped Γ (.block t ss locals)
  | function {Γ : Nat → Prop} {t : Tag} {code : Lambda} :
      (∀ d ∈ code.free, Γ d.id) → (∀ d ∈ code.name, Γ d.id) →
      Scoped (fun k => idsOf code.free k ∨ idsOf code.params k) code.body →
      Scoped Γ (.function t code)

theorem Scoped.of_mem {Γ : Nat → Prop} {n c : Node} (h : Scoped Γ n) (hn : n.isNeutral = true)
    (hc : c ∈ n.children) : Scoped Γ c := by
  cases h with
  | neutral _ hall => exact hall c hc
  | declare | var | block | function => simp [isNeutral] at hn

/-- More variables may be bound. -/
theorem Scoped.mono {Γ Δ : Nat → Prop} {n : Node} (h : Scoped Γ n) (hΓ : ∀ k, Γ k → Δ k) :
    Scoped Δ n := by
  induction h generalizing Δ with
  | neutral hn _ ih => exact .neutral hn fun c hc => ih c hc hΓ
  | declare hd => exact .declare (hΓ _ hd)
  | var hd => exact .var (hΓ _ hd)
  | block _ ih => exact .block fun s hs => ih s hs fun k hk => hk.imp_left (hΓ k)
  | function hf hn hb _ =>
    exact .function (fun d hd => hΓ _ (hf d hd)) (fun d hd => hΓ _ (hn d hd)) hb

end Node

end Steppable
