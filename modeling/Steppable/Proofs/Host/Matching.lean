import Mathlib.Data.List.Forall2
import Steppable.Proofs.Machine.Resolution

/-!
# The table of rules

A host is read as a table: a rule is a path of names and an ending, and it is for the chains of
accessors that begin with members of these names, one after the other, and go on with an accessor of
the kind of the ending (`Rule.Fits`). The first rule that fits has its handler run. The evaluator
has no such table. It walks along the chain for each rule in turn, with a cursor that stops where a
name differs or the chain ends.

The two are the same (`Rule.reach?_eq_some_iff`): the walk ends where the path is used up, on a
chain that the rule is for, and so the rules before the first one that fits are passed over
(`Machine.consult_of_firstFit`).
-/

namespace Steppable

namespace Host

/-- The endings of a table: a call, an indexing, or a member or name that is read. -/
def Ending.Tabular : Ending → Prop
  | call _ | index | get _ => True
  | any _ | outermost _ => False

/-- The accessor is of the kind that the ending asks for, and has its name. -/
inductive Ending.Fits : Ending → Node → Prop
  | call (arity : Nat) (t : Tag) (l : Node) (as : List Node) : Fits (.call arity) (.call t l as)
  | index (t : Tag) (l i : Node) : Fits .index (.index t l i)
  | get {s : String} {n : Node} : n.isNamed s = true → Fits (.get s) n

theorem Ending.fits_get_iff {s : String} {n : Node} :
    (Ending.get s).Fits n ↔ n.isNamed s = true := by
  refine ⟨fun h => ?_, .get⟩
  cases h with
  | get hn => exact hn

/-- The nodes that the handler wants evaluated if the accessor reached is `n`. -/
def Ending.asked (e : Ending) (n : Node) : List Node :=
  n.arguments.take (e.arity?.getD 0)

/-- The chain of accessors, the innermost first, is one that the rule is for. -/
structure Rule.Fits (r : Rule) (chain : List Node) : Prop where
  spelled : List.Forall₂ (fun s n => n.isNamed s = true) r.path (chain.take r.path.length)
  ended : ∃ n, chain[r.path.length]? = some n ∧ r.ending.Fits n

/-- `r` is the first rule that is for the chain, behind those that have been `passed`. -/
structure FirstFit (rules : List Rule) (chain : List Node) (passed : List Rule) (r : Rule)
    (rest : List Rule) : Prop where
  split : rules = passed ++ r :: rest
  earlier : ∀ q ∈ passed, ¬ q.Fits chain
  fits : r.Fits chain

/-- If there is a rule that is for the chain, then there is a first one. -/
theorem exists_firstFit {rules : List Rule} {chain : List Node}
    (h : ¬ ∀ r ∈ rules, ¬ r.Fits chain) : ∃ passed r rest, FirstFit rules chain passed r rest := by
  induction rules with
  | nil => exact (h (List.forall_mem_nil _)).elim
  | cons q rules ih =>
    by_cases hq : q.Fits chain
    · exact ⟨[], q, rules, rfl, List.forall_mem_nil _, hq⟩
    · obtain ⟨passed, r, rest, rfl, hp, hr⟩ := ih fun h' => h (List.forall_mem_cons.2 ⟨hq, h'⟩)
      exact ⟨q :: passed, r, rest, rfl, List.forall_mem_cons.2 ⟨hq, hp⟩, hr⟩

/-- A rule of a table, whose handler settles the accessor that it is given. -/
structure Rule.Tabular (r : Rule) : Prop where
  ending : r.ending.Tabular
  resolves : r.Resolves

theorem tabular_members (v : Value) : ∀ r ∈ members v, r.Tabular := by
  refine fun r hr => ⟨?_, resolves_members v r hr⟩
  cases v with
  | string s =>
    simp only [members, List.mem_cons, List.not_mem_nil, or_false] at hr
    rcases hr with rfl | rfl | rfl <;> trivial
  | number | boolean | date | error =>
    obtain rfl := List.mem_singleton.1 hr
    trivial
  | undefined | null | function | signal | reference => simp [members] at hr

/-! ## The walk along a chain -/

theorem Ending.reach?_eq_some_iff {e : Ending} (he : e.Tabular) (chain : List Node) (k : Nat) :
    e.reach? chain = some k ↔ k = 0 ∧ ∃ n, chain[0]? = some n ∧ e.Fits n := by
  cases chain with
  | nil => simp [reach?]
  | cons n outer =>
    have hfits : e.reach? (n :: outer) = some k ↔ k = 0 ∧ e.Fits n := by
      cases e with
      | call arity =>
        cases n with
        | call t l as => simpa [reach?, eq_comm] using fun _ => Fits.call arity t l as
        | _ => exact iff_of_false (by simp [reach?]) (by rintro ⟨-, ⟨⟩⟩)
      | index =>
        cases n with
        | index t l i => simpa [reach?, eq_comm] using fun _ => Fits.index t l i
        | _ => exact iff_of_false (by simp [reach?]) (by rintro ⟨-, ⟨⟩⟩)
      | get s =>
        rw [Ending.fits_get_iff]
        cases hn : n.isNamed s <;> simp [reach?, hn, eq_comm]
      | any | outermost => exact he.elim
    simpa using hfits

theorem reach?_eq_some_iff {e : Ending} (he : e.Tabular) (path : List String) (chain : List Node)
    (k : Nat) : Host.reach? e path chain = some k ↔ k = path.length ∧
      List.Forall₂ (fun s n => n.isNamed s = true) path (chain.take path.length) ∧
      ∃ n, chain[path.length]? = some n ∧ e.Fits n := by
  induction path generalizing chain k with
  | nil => simpa [Host.reach?] using Ending.reach?_eq_some_iff he chain k
  | cons s path ih =>
    cases chain with
    | nil => simp [Host.reach?]
    | cons n outer =>
      rw [Host.reach?]
      cases hn : n.isNamed s with
      | false => simp [hn]
      | true =>
        simp only [if_true, Option.map_eq_some_iff, ih, List.length_cons, List.take_succ_cons,
          List.forall₂_cons, hn, true_and, List.getElem?_cons_succ]
        constructor
        · rintro ⟨j, ⟨rfl, h⟩, rfl⟩
          exact ⟨rfl, h⟩
        · rintro ⟨rfl, h⟩
          exact ⟨_, ⟨rfl, h⟩, rfl⟩

/-- **The walk for a rule reaches the accessor behind the path**, on the chains that the rule is for
and on no others. -/
theorem Rule.reach?_eq_some_iff {r : Rule} (hr : r.ending.Tabular) (chain : List Node) (k : Nat) :
    r.reach? chain = some k ↔ k = r.path.length ∧ r.Fits chain := by
  rw [Rule.reach?, Host.reach?_eq_some_iff hr]
  exact and_congr_right fun _ => ⟨fun ⟨h, h'⟩ => ⟨h, h'⟩, fun h => ⟨h.spelled, h.ended⟩⟩

theorem Rule.reach?_eq_none {r : Rule} (hr : r.ending.Tabular) {chain : List Node}
    (h : ¬ r.Fits chain) : r.reach? chain = none :=
  Option.eq_none_iff_forall_ne_some.2 fun k hk => h ((r.reach?_eq_some_iff hr chain k).1 hk).2

end Host

namespace Machine

variable {m : Machine} {rules passed rest : List Host.Rule} {r : Host.Rule} {chain : List Node}

/-- Rules that do not fit are passed over. -/
theorem consult_append (n : Node) (hp : ∀ q ∈ passed, q.ending.Tabular)
    (h : ∀ q ∈ passed, ¬ q.Fits (m.links.map (·.node))) :
    consult n (passed ++ rules) m = consult n rules m := by
  induction passed with
  | nil => rfl
  | cons q passed ih =>
    have hq : q.reach? (m.links.map (·.node)) = none :=
      Host.Rule.reach?_eq_none (hp q List.mem_cons_self) (h q List.mem_cons_self)
    rw [List.cons_append, consult_skip hq]
    exact ih (fun q' hq' => hp q' (List.mem_cons_of_mem q hq'))
      fun q' hq' => h q' (List.mem_cons_of_mem q hq')

/-- Without a rule that fits, the accessor is unknown. -/
theorem consult_of_not_fits (n : Node) (ht : ∀ r ∈ rules, r.ending.Tabular)
    (h : ∀ r ∈ rules, ¬ r.Fits (m.links.map (·.node))) :
    consult n rules m = m.finishFault n (unknownAccessor n) := by
  have hpass : consult n (rules ++ []) m = consult n [] m := consult_append n ht h
  rwa [List.append_nil] at hpass

/-- The first rule that fits is the first one whose handler is asked. -/
theorem consult_of_firstFit (n : Node) (ht : ∀ r ∈ rules, r.ending.Tabular)
    (h : Host.FirstFit rules (m.links.map (·.node)) passed r rest) :
    consult n rules m = consult n (r :: rest) m := by
  obtain ⟨rfl, hp, -⟩ := h
  exact consult_append n (fun q hq => ht q (List.mem_append_left _ hq)) hp

end Machine

end Steppable
