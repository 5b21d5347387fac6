import Mathlib.Data.List.Induction
import Mathlib.Data.List.Nodup
import Steppable.Proofs.Tree.Scoped

/-!
# What a name refers to

A tree keeps no names to look up: every use of a variable holds its declaration, and every function
literal lists the declarations that it captures. If one of these were wrong nothing would be noticed
until a value was read from the cell of another variable, or until a closure had outlived the call
that made it. This file says what is right, from the tree alone.

* `Resolves v ns v'` walks over the nodes `ns` in the order in which they are written, with the
  visible declarations in hand, and finds each variable to be the latest one of its name.
* `Lambda.captures` are the declarations that the body of a function uses and that are declared
  outside the function, in order of first use.

`Node.Bound` puts the two together for a whole tree.
-/

namespace Steppable

/-! ## Uses of variables -/

/-- The parts of a node in the order in which they are written. A loop may have its body first, and
the target of a compound assignment is written once, although it stands on both sides. -/
def Node.inOrder : Node → List Node
  | .loop _ true c b => [b, c]
  | .assign _ t (.binary t' op l r) => if l.id = t.id then [t, r] else [t, .binary t' op l r]
  | n => n.children

mutual

/-- The declarations that the variables in the tree refer to, once for each use that is written. -/
def Node.uses : Node → List Declaration
  | .var _ d => [d]
  | .member _ l _ => l.uses
  | .index _ l i => l.uses ++ i.uses
  | .call _ l as => l.uses ++ Node.usesAll as
  | .binary _ _ l r => l.uses ++ r.uses
  | .unary _ _ n => n.uses
  | .assign _ t (.binary _ _ l r) => t.uses ++ ((if l.id = t.id then [] else l.uses) ++ r.uses)
  | .assign _ t v => t.uses ++ v.uses
  | .adjust _ _ n => n.uses
  | .choice _ _ c t f => c.uses ++ (t.uses ++ f.uses)
  | .guarded _ c b => c.uses ++ b.uses
  | .loop _ bodyFirst c b => if bodyFirst then b.uses ++ c.uses else c.uses ++ b.uses
  | .block _ ss _ => Node.usesAll ss
  | .function _ ⟨_, _, body, _⟩ => body.uses
  | .giveBack _ v => v.uses
  | .constant .. | .name .. | .declare .. | .jump .. | .nop .. | .invalid .. => []

/-- The uses in several nodes, one after the other. -/
def Node.usesAll : List Node → List Declaration
  | [] => []
  | n :: ns => n.uses ++ Node.usesAll ns

end

namespace Node

variable {n c x : Node} {ns ms : List Node} {d : Declaration} {v v' v'' Γ : List Declaration}

theorem usesAll_append (ns ms : List Node) : usesAll (ns ++ ms) = usesAll ns ++ usesAll ms := by
  induction ns with
  | nil => rfl
  | cons n ns ih => simp [usesAll, ih]

@[simp]
theorem usesAll_singleton (n : Node) : usesAll [n] = n.uses := by
  simp [usesAll]

theorem mem_usesAll : d ∈ usesAll ns ↔ ∃ n ∈ ns, d ∈ n.uses := by
  induction ns with
  | nil => simp [usesAll]
  | cons n ns ih => simp [usesAll, ih]

/-- A node that is not itself a variable has the uses of its parts. -/
theorem uses_eq (h : ∀ t d, n ≠ .var t d) : n.uses = usesAll n.inOrder := by
  cases n with
  | assign t l r =>
    cases r with
    | binary t' op l' r' => by_cases hid : l'.id = l.id <;> simp [uses, inOrder, usesAll, hid]
    | _ => simp [uses, inOrder, children, usesAll]
  | loop t bodyFirst c b => cases bodyFirst <;> simp [uses, inOrder, children, usesAll]
  | function t code => cases code; simp [uses, inOrder, children]
  | var t d => exact (h t d rfl).elim
  | _ => simp [uses, inOrder, children, usesAll]

theorem ne_var_of_isNeutral (h : n.isNeutral = true) (t : Tag) (d : Declaration) :
    n ≠ .var t d := by
  rintro rfl
  cases h

theorem opens_of_isNeutral (h : n.isNeutral = true) : n.opens = [] := by
  cases n <;> simp_all [isNeutral, opens]

/-- What is written stands below the node. -/
theorem below_of_inOrder (h : c ∈ n.inOrder) : n.Below c := by
  cases n with
  | assign t l r =>
    cases r with
    | binary t' op l' r' =>
      by_cases hid : l'.id = l.id
      · simp only [inOrder, hid, if_true, List.mem_cons, List.not_mem_nil, or_false] at h
        rcases h with rfl | rfl
        · exact ⟨c, by simp [children], .refl c⟩
        · exact ⟨.binary t' op l' c, by simp [children], within_of_mem (by simp [children])⟩
      · exact ⟨c, by simpa [inOrder, hid, children] using h, .refl c⟩
    | _ => exact ⟨c, by simpa [inOrder] using h, .refl c⟩
  | loop t bodyFirst a b =>
    refine ⟨c, ?_, .refl c⟩
    cases bodyFirst
    · exact h
    · simpa [inOrder, children, or_comm] using h
  | _ => exact ⟨c, by simpa [inOrder] using h, .refl c⟩

/-- A part of a tagged node is written, or it repeats the target of a compound assignment. -/
theorem Tagged.inOrder_of_mem (h : Tagged n) (hc : c ∈ n.children) :
    c ∈ n.inOrder ∨ ∃ t op l r, c = .binary t op l r ∧ l ∈ n.inOrder ∧ r ∈ n.inOrder := by
  cases n with
  | assign t l w =>
    cases w with
    | binary t' op l' r =>
      by_cases hid : l'.id = l.id
      · rcases h.apart with hp | ⟨t₁, t₂, op', l₁, r₁, heq, -⟩
        · have hla := (List.pairwise_cons.1 hp).1 _ (List.mem_singleton_self _)
          exact (hla l l' (.refl l) (within_of_mem (by simp [children])) hid.symm).elim
        · cases heq
          simp only [children, List.mem_cons, List.not_mem_nil, or_false] at hc
          rcases hc with rfl | rfl
          · exact .inl (by simp [inOrder])
          · exact .inr ⟨_, _, _, _, rfl, by simp [inOrder], by simp [inOrder]⟩
      · exact .inl (by simpa [inOrder, hid, children] using hc)
    | _ => exact .inl (by simpa [inOrder] using hc)
  | loop t bodyFirst a b =>
    refine .inl ?_
    cases bodyFirst
    · exact hc
    · simpa [inOrder, children, or_comm] using hc
  | _ => exact .inl (by simpa [inOrder] using hc)

/-! ## Resolution -/

/-- With the declarations `v` visible, the latest first, the nodes `ns` are read one after the
other: each variable is the latest visible declaration of its name, and a name that is left to the
host has none. After the nodes `v'` are visible. -/
inductive Resolved : List Declaration → List Node → List Declaration → Prop
  | nil {v : List Declaration} : Resolved v [] v
  | cons {v v' v'' : List Declaration} {n : Node} {ns : List Node} :
      Resolved v [n] v' → Resolved v' ns v'' → Resolved v (n :: ns) v''
  | var {v : List Declaration} {t : Tag} {d : Declaration} :
      v.find? (·.name == d.name) = some d → Resolved v [.var t d] v
  | name {v : List Declaration} {t : Tag} {s : String} :
      v.find? (·.name == s) = none → Resolved v [.name t s] v
  | declare {v : List Declaration} {t : Tag} {d : Declaration} : Resolved v [.declare t d] (d :: v)
  | parts {v v' : List Declaration} {n : Node} : n.isNeutral = true → n.isUnbound = false →
      Resolved v n.inOrder v' → Resolved v [n] v'
  /-- Statements in the scope around them. -/
  | group {v v' : List Declaration} {t : Tag} {ss : List Node} :
      Resolved v ss v' → Resolved v [.block t ss []] v'
  /-- Statements in a scope of their own: its locals are what they declare. -/
  | block {v : List Declaration} {t : Tag} {ss : List Node} {locals : List Declaration} :
      Resolved v ss (locals.reverse ++ v) → Resolved v [.block t ss locals] v
  /-- The name of a function is declared outside it, and its parameters are declared inside. -/
  | function {v v' : List Declaration} {t : Tag} {code : Lambda} :
      v' = code.name.toList ++ v →
      Resolved (code.params.reverse ++ v') [code.body] (code.params.reverse ++ v') →
      Resolved v [.function t code] v'

theorem Resolved.append (h : Resolved v ns v') (h' : Resolved v' ms v'') :
    Resolved v (ns ++ ms) v'' := by
  induction h with
  | nil => exact h'
  | cons hn _ _ ih => exact .cons hn (ih h')
  | var hd => exact .cons (.var hd) h'
  | name hs => exact .cons (.name hs) h'
  | declare => exact .cons .declare h'
  | parts hn hu hp => exact .cons (.parts hn hu hp) h'
  | group hs => exact .cons (.group hs) h'
  | block hs => exact .cons (.block hs) h'
  | function hv hb => exact .cons (.function hv hb) h'

/-- What is visible stays visible. -/
theorem Resolved.subset (h : Resolved v ns v') : v ⊆ v' := by
  induction h with
  | nil | var | name | block => exact fun _ hd => hd
  | cons _ _ ih₁ ih₂ => exact List.Subset.trans ih₁ ih₂
  | declare => exact List.subset_cons_self _ _
  | parts _ _ _ ih | group _ ih => exact ih
  | function hv => exact hv ▸ List.subset_append_right _ _

/-- A declaration that is used is visible afterwards, or it has been opened inside. -/
theorem Resolved.mem_of_uses (h : Resolved v ns v') (hd : d ∈ usesAll ns) :
    d ∈ v' ∨ ∃ n ∈ ns, ∃ x, n.Within x ∧ d ∈ x.opens := by
  induction h with
  | nil | name | declare => simp [usesAll, uses] at hd
  | cons hn hns ih₁ ih₂ =>
    rw [usesAll, List.mem_append] at hd
    rcases hd with hd | hd
    · rcases ih₁ (by simpa using hd) with hv | ⟨n, hm, x, hx, ho⟩
      · exact .inl (hns.subset hv)
      · exact .inr ⟨n, by simp_all, x, hx, ho⟩
    · exact (ih₂ hd).imp_right fun ⟨n, hm, hx⟩ => ⟨n, List.mem_cons_of_mem _ hm, hx⟩
  | var hv =>
    obtain rfl : d = _ := by simpa [uses] using hd
    exact .inl (List.mem_of_find?_eq_some hv)
  | parts hn _ _ ih =>
    rw [usesAll_singleton, uses_eq (ne_var_of_isNeutral hn)] at hd
    refine (ih hd).imp_right ?_
    rintro ⟨c, hc, x, hx, ho⟩
    exact ⟨_, List.mem_singleton_self _, x, (below_of_inOrder hc).within.trans hx, ho⟩
  | group _ ih =>
    refine (ih (by simpa [uses] using hd)).imp_right ?_
    rintro ⟨s, hs, x, hx, ho⟩
    exact ⟨_, List.mem_singleton_self _, x, .step hs hx, ho⟩
  | block _ ih =>
    rcases ih (by simpa [uses] using hd) with hv | ⟨s, hs, x, hx, ho⟩
    · rcases List.mem_append.1 hv with hv | hv
      · exact .inr ⟨_, List.mem_singleton_self _, _, .refl _, List.mem_reverse.1 hv⟩
      · exact .inl hv
    · exact .inr ⟨_, List.mem_singleton_self _, x, .step hs hx, ho⟩
  | @function _ _ t code _ _ ih =>
    have hb : d ∈ usesAll [code.body] := by
      cases code
      simpa [uses] using hd
    rcases ih hb with hv | ⟨s, hs, x, hx, ho⟩
    · rcases List.mem_append.1 hv with hv | hv
      · exact .inr ⟨_, List.mem_singleton_self _, _, .refl _, List.mem_reverse.1 hv⟩
      · exact .inl hv
    · exact .inr ⟨_, List.mem_singleton_self _, x, .step (by simpa [children] using hs) hx, ho⟩

/-! ## The nodes around a use -/

/-- `x` is `n` or stands below it, and the nodes from `n` to the one above `x` open `Γ`. -/
inductive Under : Node → List Declaration → Node → Prop
  | refl (n : Node) : Under n [] n
  | step {n c x : Node} {Γ : List Declaration} : c ∈ n.children → Under c Γ x →
      Under n (n.opens ++ Γ) x

/-- A variable is one of what the nodes around it open, or it is visible after them all. -/
theorem Resolved.mem_of_under (h : Resolved v ns v') (ht : ∀ n ∈ ns, n.WellTagged) (hn : n ∈ ns)
    {t : Tag} (hu : n.Under Γ (.var t d)) : d ∈ Γ ∨ d ∈ v' := by
  induction h generalizing n Γ with
  | nil => cases hn
  | cons _ hns ih₁ ih₂ =>
    rcases List.mem_cons.1 hn with rfl | hn
    · exact (ih₁ (by simpa using ht n (by simp)) (by simp) hu).imp_right fun hd => hns.subset hd
    · exact ih₂ (fun m hm => ht m (List.mem_cons_of_mem _ hm)) hn hu
  | var hv =>
    obtain rfl := List.mem_singleton.1 hn
    cases hu with
    | refl => exact .inr (List.mem_of_find?_eq_some hv)
    | step hc => cases hc
  | name | declare =>
    obtain rfl := List.mem_singleton.1 hn
    cases hu with
    | step hc => cases hc
  | parts hneutral _ _ ih =>
    obtain rfl := List.mem_singleton.1 hn
    have htag := ht n hn
    have htags : ∀ c ∈ n.inOrder, c.WellTagged := fun c hc =>
      htag.within (below_of_inOrder hc).within
    cases hu with
    | refl => cases hneutral
    | step hc hu =>
      rw [opens_of_isNeutral hneutral, List.nil_append]
      rcases (htag n (.refl n)).inOrder_of_mem hc with hc | ⟨t', op, l, r, rfl, hl, hr⟩
      · exact ih htags hc hu
      · -- The repeated target is the one that is written.
        cases hu with
        | step hc hu =>
          simp only [children, List.mem_cons, List.not_mem_nil, or_false] at hc
          rcases hc with rfl | rfl
          · exact ih htags hl hu
          · exact ih htags hr hu
  | group _ ih =>
    obtain rfl := List.mem_singleton.1 hn
    cases hu with
    | step hc hu => exact ih (fun s hs => (ht _ hn).mem hs) hc hu
  | block _ ih =>
    obtain rfl := List.mem_singleton.1 hn
    cases hu with
    | step hc hu =>
      have := ih (fun s hs => (ht _ hn).mem hs) hc hu
      simp only [opens, List.mem_append, List.mem_reverse] at this ⊢
      tauto
  | function _ _ ih =>
    obtain rfl := List.mem_singleton.1 hn
    cases hu with
    | step hc hu =>
      have := ih (fun s hs => (ht _ hn).mem (by simpa [children] using hs))
        (by simpa [children] using hc) hu
      simp only [opens, List.mem_append, List.mem_reverse] at this ⊢
      tauto

theorem within_of_mem_uses {n : Node} (h : d ∈ n.uses) : ∃ t, n.Within (.var t d) := by
  by_cases hv : ∃ t e, n = .var t e
  · obtain ⟨t, e, rfl⟩ := hv
    obtain rfl : d = e := by simpa [uses] using h
    exact ⟨t, .refl _⟩
  · rw [uses_eq fun t e heq => hv ⟨t, e, heq⟩, mem_usesAll] at h
    obtain ⟨c, hc, hd⟩ := h
    have hlt := sizeOf_below (below_of_inOrder hc)
    obtain ⟨t, ht⟩ := within_of_mem_uses hd
    exact ⟨t, (below_of_inOrder hc).within.trans ht⟩
termination_by sizeOf n

/-- The uses are the variables in the tree. -/
theorem mem_uses_iff (h : n.WellTagged) : d ∈ n.uses ↔ ∃ t, n.Within (.var t d) := by
  refine ⟨within_of_mem_uses, ?_⟩
  rintro ⟨t, ht⟩
  generalize hx : Node.var t d = x at ht
  induction ht with
  | refl => simp [← hx, uses]
  | @step n c x hc _ ih =>
    have hd := ih (h.mem hc) hx
    rw [uses_eq (by rintro t e rfl; cases hc), mem_usesAll]
    rcases (h n (.refl n)).inOrder_of_mem hc with hc | ⟨t', op, l, r, rfl, hl, hr⟩
    · exact ⟨c, hc, hd⟩
    · have hd : d ∈ l.uses ++ r.uses := by simpa [uses] using hd
      rcases List.mem_append.1 hd with hd | hd
      · exact ⟨l, hl, hd⟩
      · exact ⟨r, hr, hd⟩

/-- In `x += y` the variable `x` is used once. -/
example (x y : Declaration) :
    uses (.assign ⟨4, {}⟩ (.var ⟨1, {}⟩ x)
      (.binary ⟨3, {}⟩ (.arith .plus) (.var ⟨1, {}⟩ x) (.var ⟨2, {}⟩ y))) = [x, y] :=
  rfl

end Node

/-! ## Captured declarations -/

namespace Lambda

/-- What the function declares: its parameters and whatever the blocks and functions in its body
open. -/
def declares (code : Lambda) : List Declaration :=
  code.params ++ code.body.nodes.flatMap Node.opens

/-- The declarations from outside that the body uses, in order of first use. -/
def captures (code : Lambda) : List Declaration :=
  (code.body.uses.filter (· ∉ code.declares)).eraseDups

variable {code : Lambda} {d : Declaration} {ds : List Declaration}

theorem mem_declares : d ∈ code.declares ↔
    d ∈ code.params ∨ ∃ x, code.body.Within x ∧ d ∈ x.opens := by
  simp [declares, Node.mem_nodes_iff]

theorem mem_captures : d ∈ code.captures ↔ d ∈ code.body.uses ∧ d ∉ code.declares := by
  simp [captures, List.mem_eraseDups]

theorem eraseDups_concat (ds : List Declaration) (d : Declaration) :
    (ds ++ [d]).eraseDups = if d ∈ ds then ds.eraseDups else ds.eraseDups ++ [d] := by
  rw [List.eraseDups_append]
  by_cases h : d ∈ ds <;> simp [List.removeAll, List.eraseDups_cons, h]

theorem nodup_captures : code.captures.Nodup := by
  unfold captures
  generalize code.body.uses.filter _ = ds
  induction ds using List.reverseRecOn with
  | nil => simp
  | append_singleton ds d ih =>
    rw [eraseDups_concat]
    split
    · exact ih
    · rename_i h
      rw [← List.concat_eq_append]
      exact ih.concat (by simpa using h)

end Lambda

/-! ## Bound trees -/

/-- The names of the tree are bound, where the declarations `before` are visible before it and
`after` are visible after it, the oldest first. -/
structure Node.Bound (before : List Declaration) (n : Node) (after : List Declaration) : Prop where
  /-- Every name refers to its latest declaration that is visible where the name stands. -/
  resolved : Node.Resolved before.reverse [n] after.reverse
  /-- A variable is a local of a block around it, a parameter of a function around it, or visible
  after the tree. -/
  enclosed : ∀ Γ t d, n.Under Γ (.var t d) → d ∈ Γ ∨ d ∈ after
  /-- A function lists its captures in order of first use, -/
  ordered : ∀ t code, n.Within (.function t code) → code.free = code.captures
  /-- each of them once, -/
  distinct : ∀ t code, n.Within (.function t code) → code.free.Nodup
  /-- and they are what the variables in its body refer to and what is declared outside it. -/
  exact : ∀ t code, n.Within (.function t code) → ∀ d,
    d ∈ code.free ↔ (∃ t', code.body.Within (.var t' d)) ∧ d ∉ code.declares

/-- The rest follows from how names are resolved and which lists the functions have. -/
theorem Node.bound_of_resolved {before after : List Declaration} {n : Node} (ht : n.WellTagged)
    (hr : Node.Resolved before.reverse [n] after.reverse)
    (hf : ∀ t code, n.Within (.function t code) → code.free = code.captures) :
    Node.Bound before n after where
  resolved := hr
  enclosed Γ t d hu := by
    have hd := hr.mem_of_under (by simpa using ht) (List.mem_singleton_self n) hu
    rwa [List.mem_reverse] at hd
  ordered := hf
  distinct t code hw := hf t code hw ▸ Lambda.nodup_captures
  exact t code hw d := by
    have hbody : code.body.WellTagged := (ht.within hw).mem (by simp [Node.children])
    rw [hf t code hw, Lambda.mem_captures, Node.mem_uses_iff hbody]

end Steppable
