import Mathlib.Data.List.Induction
import Steppable.Machine.Frame

/-!
# The ledger of an accessor

The handlers that are asked about an accessor share its arguments. These are evaluated one after the
other, as they are asked for, and kept with the frame of the accessor. What happens to them is a
sequence of events: an argument is entered for a handler, its value arrives, a handler is called. An
evaluation can also be given up: its value is an error or a signal, or it was stopped and the
handlers, asked anew, need no argument any more. The ledger is what is kept with the frame, and
`Serve` says what each event has to do with it.

**Theorem (`Serves.tells`).** Where the events are what the ledger allows, the first handler that
asks for arguments decides how many there are for all of them; no argument is entered before those
in front of it have a value, none that has a value or is being evaluated, and each handler is called
with all values (`Served`).

**Theorem (`Served.once`).** Unless an evaluation is given up, the arguments that are entered are
the first ones, in order and each one once. -/

namespace Steppable.Host

/-! ## Events -/

/-- What happens to the arguments of an accessor. -/
inductive Event where
  /-- The argument is entered for a handler that asks for up to `arity` of them. -/
  | enters (arity : Nat) (argument : Node)
  /-- The argument that was entered has the value `v`. -/
  | arrives (v : Value)
  /-- The evaluation of the argument that was entered is given up. -/
  | abandons
  /-- A handler that asks for up to `arity` arguments is called with `vs`. -/
  | hands (arity : Nat) (vs : List Value)

variable {as : List Node} {es es' : List Event}

/-! ## The ledger -/

/-- What has been gathered for an accessor so far, and whether an argument of it is being evaluated.
-/
structure Ledger where
  gathered : Option Gathered := none
  pending : Bool := false

/-- What a handler that asks for up to `arity` of the arguments `as` finds in the ledger. -/
def Ledger.noted (s : Ledger) (as : List Node) (arity : Nat) : Gathered :=
  s.gathered.getD ⟨min arity as.length, []⟩

/-- What an event does to the ledger of an accessor with the arguments `as`. -/
inductive Serve (as : List Node) : Ledger → Event → Ledger → Prop
  | enters {s : Ledger} {arity : Nat} {g : Gathered} {a : Node} : s.noted as arity = g →
      (as.take g.wanted)[g.values.length]? = some a → s.pending = false →
      Serve as s (.enters arity a) ⟨some g, true⟩
  | arrives {g : Gathered} {a : Node} {v : Value} :
      (as.take g.wanted)[g.values.length]? = some a →
      Serve as ⟨some g, true⟩ (.arrives v) ⟨some { g with values := g.values ++ [v] }, false⟩
  | abandons {s : Ledger} : s.pending = true → Serve as s .abandons { s with pending := false }
  | hands {s : Ledger} {arity : Nat} {g : Gathered} : s.noted as arity = g →
      (as.take g.wanted)[g.values.length]? = none →
      Serve as s (.hands arity g.values) { s with gathered := some g }

/-- What a sequence of events does to the ledger. -/
inductive Serves (as : List Node) (s : Ledger) : List Event → Ledger → Prop
  | nil : Serves as s [] s
  | snoc {es : List Event} {e : Event} {s' s'' : Ledger} :
      Serves as s es s' → Serve as s' e s'' → Serves as s (es ++ [e]) s''

variable {s s' s'' : Ledger}

theorem Serve.serves {e : Event} (h : Serve as s e s') : Serves as s [e] s' :=
  show Serves as s ([] ++ [e]) s' from .snoc .nil h

theorem Serves.append (h : Serves as s es s') (h' : Serves as s' es' s'') :
    Serves as s (es ++ es') s'' := by
  induction h' with
  | nil => simpa using h
  | snoc _ he ih =>
    rw [← List.append_assoc]
    exact ih.snoc he

/-! ## What handlers are given -/

/-- The number of arguments that the event asks for. -/
def Event.arity? : Event → Option Nat
  | .enters arity _ | .hands arity _ => some arity
  | .arrives _ | .abandons => none

/-- The value of an argument that arrives. -/
def Event.value? : Event → Option Value
  | .arrives v => some v
  | _ => none

/-- The argument that is entered. -/
def Event.argument? : Event → Option Node
  | .enters _ a => some a
  | _ => none

/-- Whether an argument is being evaluated after the event, if one was before. -/
def Event.isOpen (before : Bool) : Event → Bool
  | .enters .. => true
  | .arrives _ | .abandons => false
  | .hands .. => before

/-- The values that have arrived. -/
def arrivals (es : List Event) : List Value :=
  es.filterMap Event.value?

/-- The arguments that have been entered. -/
def entries (es : List Event) : List Node :=
  es.filterMap Event.argument?

/-- An argument has been entered, and its evaluation has neither ended nor been given up. -/
def underway (es : List Event) : Bool :=
  es.foldl Event.isOpen false

/-- How many of the arguments `as` the first handler has asked for. -/
def wanted (as : List Node) (es : List Event) : Nat :=
  min ((es.findSome? Event.arity?).getD 0) as.length

/-- What is true of all that happens to the arguments `as` of an accessor. -/
structure Served (as : List Node) (es : List Event) : Prop where
  /-- An argument is entered while no other one is being evaluated, and it is the next one after
  those that have a value, among as many as the first handler has asked for. -/
  entered : ∀ before arity a after, es = before ++ .enters arity a :: after →
    underway before = false ∧ (as.take (wanted as es))[(arrivals before).length]? = some a
  /-- A value that arrives is that of the argument that is being evaluated. -/
  arrived : ∀ before v after, es = before ++ .arrives v :: after → underway before = true
  /-- A handler is called with all values that have arrived, and these are as many as the first
  handler has asked for. -/
  handed : ∀ before arity vs after, es = before ++ .hands arity vs :: after →
    vs = arrivals before ∧ vs.length = wanted as es

theorem split_concat {α : Type} {xs ys zs : List α} {x z : α} (h : xs ++ [x] = ys ++ z :: zs) :
    (xs = ys ∧ x = z) ∨ ∃ zs', xs = ys ++ z :: zs' := by
  rcases List.eq_nil_or_concat zs with rfl | ⟨zs', w, rfl⟩
  · obtain ⟨h, hx⟩ := List.append_inj' h rfl
    exact .inl ⟨h, List.singleton_inj.1 hx⟩
  · rw [List.concat_eq_append, ← List.cons_append, ← List.append_assoc] at h
    exact .inr ⟨zs', (List.append_inj' h rfl).1⟩

theorem arrivals_concat (es : List Event) (e : Event) :
    arrivals (es ++ [e]) = arrivals es ++ e.value?.toList := by
  rw [arrivals, List.filterMap_append]
  cases h : e.value? <;> simp [arrivals, h]

theorem entries_concat (es : List Event) (e : Event) :
    entries (es ++ [e]) = entries es ++ e.argument?.toList := by
  rw [entries, List.filterMap_append]
  cases h : e.argument? <;> simp [entries, h]

theorem underway_concat (es : List Event) (e : Event) :
    underway (es ++ [e]) = e.isOpen (underway es) := by
  rw [underway, List.foldl_append]
  rfl

/-- **Each argument is entered once and in order**, unless an evaluation is given up. -/
theorem Served.once (h : Served as es) (hno : Event.abandons ∉ es) :
    entries es <+: as.take (wanted as es) := by
  -- What has been entered so far is what has a value, and what is being evaluated.
  have hentries : ∀ rest before, es = before ++ rest → entries before =
      (as.take (wanted as es)).take ((arrivals before).length + (underway before).toNat) := by
    intro rest before
    induction before using List.reverseRecOn generalizing rest with
    | nil => exact fun _ => rfl
    | append_singleton before e ih =>
      intro hes
      rw [List.append_assoc, List.singleton_append] at hes
      rw [entries_concat, arrivals_concat, underway_concat, ih _ hes]
      cases e with
      | enters arity a =>
        obtain ⟨hfree, ha⟩ := h.entered before arity a rest hes
        simp [hfree, Event.value?, Event.argument?, Event.isOpen, List.take_add_one, ha]
      | arrives v =>
        simp [h.arrived before v rest hes, Event.value?, Event.argument?, Event.isOpen]
      | abandons => exact (hno (by simp [hes])).elim
      | hands arity vs => simp [Event.value?, Event.argument?, Event.isOpen]
  exact hentries [] es (List.append_nil es).symm ▸ List.take_prefix _ _

/-- What the ledger says of the events that have led to it. -/
structure Ledger.Tells (s : Ledger) (as : List Node) (es : List Event) : Prop where
  served : Served as es
  bounded : (arrivals es).length ≤ wanted as es
  fresh : s.gathered = none → es = []
  gathered : ∀ g, s.gathered = some g →
    (es.findSome? Event.arity?).isSome ∧ g = ⟨wanted as es, arrivals es⟩
  pending : s.pending = underway es

theorem Ledger.tells_new (as : List Node) : Ledger.Tells {} as [] where
  served := ⟨by simp, by simp, by simp⟩
  bounded := Nat.zero_le _
  fresh _ := rfl
  gathered _ h := by cases h
  pending := rfl

theorem wanted_concat (as : List Node) {es : List Event} (h : (es.findSome? Event.arity?).isSome)
    (e : Event) : wanted as (es ++ [e]) = wanted as es := by
  obtain ⟨k, hk⟩ := Option.isSome_iff_exists.1 h
  rw [wanted, wanted, List.findSome?_append, hk]
  rfl

/-- What a handler finds is what the events tell. -/
theorem Ledger.Tells.noted {arity : Nat} {e : Event} (h : s.Tells as es)
    (he : e.arity? = some arity) :
    s.noted as arity = ⟨wanted as (es ++ [e]), arrivals es⟩ ∧
      ((es ++ [e]).findSome? Event.arity?).isSome := by
  cases hg : s.gathered with
  | none =>
    obtain rfl := h.fresh hg
    simp [Ledger.noted, hg, wanted, arrivals, he]
  | some g =>
    obtain ⟨hsome, rfl⟩ := h.gathered g hg
    refine ⟨?_, by simp [List.findSome?_append, hsome]⟩
    rw [wanted_concat as hsome, Ledger.noted, hg]
    rfl

theorem Served.concat {e : Event} (h : Served as es)
    (hw : wanted as (es ++ [e]) = wanted as es ∨ es = [])
    (hent : ∀ arity a, e = .enters arity a → underway es = false ∧
      (as.take (wanted as (es ++ [e])))[(arrivals es).length]? = some a)
    (harr : ∀ v, e = .arrives v → underway es = true)
    (hhan : ∀ arity vs, e = .hands arity vs →
      vs = arrivals es ∧ vs.length = wanted as (es ++ [e])) :
    Served as (es ++ [e]) := by
  have hold : ∀ {before after : List Event} {e' : Event}, es = before ++ e' :: after →
      wanted as (es ++ [e]) = wanted as es := fun hes => hw.resolve_right (by simp [hes])
  refine ⟨fun before arity a after hes => ?_, fun before v after hes => ?_,
    fun before arity vs after hes => ?_⟩
  · rcases split_concat hes with ⟨rfl, he⟩ | ⟨after', hes'⟩
    · exact hent arity a he
    · rw [hold hes']
      exact h.entered before arity a after' hes'
  · rcases split_concat hes with ⟨rfl, he⟩ | ⟨after', hes'⟩
    · exact harr v he
    · exact h.arrived before v after' hes'
  · rcases split_concat hes with ⟨rfl, he⟩ | ⟨after', hes'⟩
    · exact hhan arity vs he
    · rw [hold hes']
      exact h.handed before arity vs after' hes'

theorem length_take_wanted (as : List Node) (es : List Event) :
    (as.take (wanted as es)).length = wanted as es := by
  rw [List.length_take]
  exact Nat.min_eq_left (Nat.min_le_right _ _)

namespace Ledger.Tells

variable {arity : Nat} {g : Gathered} {a : Node} {v : Value}

theorem wanted_eq (h : s.Tells as es) (e : Event) :
    wanted as (es ++ [e]) = wanted as es ∨ es = [] := by
  cases hg : s.gathered with
  | none => exact .inr (h.fresh hg)
  | some g => exact .inl (wanted_concat as (h.gathered g hg).1 e)

theorem length_le (h : s.Tells as es) (e : Event) :
    (arrivals es).length ≤ wanted as (es ++ [e]) := by
  rcases h.wanted_eq e with hw | rfl
  · exact hw ▸ h.bounded
  · exact Nat.zero_le _

theorem enters (h : s.Tells as es) (hg : s.noted as arity = g)
    (ha : (as.take g.wanted)[g.values.length]? = some a) (hp : s.pending = false) :
    Ledger.Tells ⟨some g, true⟩ as (es ++ [.enters arity a]) := by
  obtain ⟨hnoted, hsome⟩ := h.noted (e := .enters arity a) rfl
  obtain rfl := hg.symm.trans hnoted
  have harrivals : arrivals (es ++ [.enters arity a]) = arrivals es := by
    simp [arrivals, Event.value?]
  refine ⟨h.served.concat (h.wanted_eq _) ?_ (by simp) (by simp), harrivals ▸ h.length_le _,
    by simp, fun g hg => ⟨hsome, ?_⟩, (underway_concat es (.enters arity a)).symm⟩
  · rintro k b ⟨⟩
    exact ⟨h.pending.symm.trans hp, ha⟩
  · rw [← Option.some.inj hg, harrivals]

theorem arrives (h : Ledger.Tells ⟨some g, true⟩ as es)
    (ha : (as.take g.wanted)[g.values.length]? = some a) :
    Ledger.Tells ⟨some { g with values := g.values ++ [v] }, false⟩ as (es ++ [.arrives v]) := by
  obtain ⟨hsome, rfl⟩ := h.gathered g rfl
  have harrivals : arrivals (es ++ [.arrives v]) = arrivals es ++ [v] := by
    simp [arrivals, Event.value?]
  have hlt : (arrivals es).length < wanted as es := by
    rw [← length_take_wanted]
    exact (List.getElem?_eq_some_iff.1 ha).1
  refine ⟨h.served.concat (h.wanted_eq _) (by simp) (fun _ _ => h.pending.symm) (by simp), ?_,
    by simp, fun g hg => ⟨by simp [List.findSome?_append, hsome], ?_⟩,
    (underway_concat es (.arrives v)).symm⟩
  · rw [harrivals, wanted_concat as hsome, List.length_append]
    exact hlt
  · rw [← Option.some.inj hg, wanted_concat as hsome, harrivals]

theorem abandons (h : s.Tells as es) (hp : s.pending = true) :
    Ledger.Tells { s with pending := false } as (es ++ [.abandons]) := by
  have harrivals : arrivals (es ++ [.abandons]) = arrivals es := by
    simp [arrivals, Event.value?]
  refine ⟨h.served.concat (h.wanted_eq _) (by simp) (by simp) (by simp),
    harrivals ▸ h.length_le _, fun hg => ?_, fun g hg => ?_, (underway_concat es .abandons).symm⟩
  · -- Nothing is being evaluated before anything is gathered.
    have hp := hp.symm.trans h.pending
    rw [h.fresh hg] at hp
    cases hp
  · obtain ⟨hsome, rfl⟩ := h.gathered g hg
    rw [wanted_concat as hsome, harrivals]
    exact ⟨by simp [List.findSome?_append, hsome], rfl⟩

theorem hands (h : s.Tells as es) (hg : s.noted as arity = g)
    (hnone : (as.take g.wanted)[g.values.length]? = none) :
    Ledger.Tells { s with gathered := some g } as (es ++ [.hands arity g.values]) := by
  obtain ⟨hnoted, hsome⟩ := h.noted (e := .hands arity g.values) rfl
  have hg := hg.symm.trans hnoted
  have hvalues : g.values = arrivals es := congrArg Gathered.values hg
  have hwanted : g.wanted = wanted as (es ++ [.hands arity g.values]) :=
    congrArg Gathered.wanted hg
  have harrivals : arrivals (es ++ [.hands arity g.values]) = arrivals es := by
    simp [arrivals, Event.value?]
  refine ⟨h.served.concat (h.wanted_eq _) (by simp) (by simp) ?_, harrivals ▸ h.length_le _,
    by simp, fun g' hg' => ⟨hsome, ?_⟩,
    h.pending.trans (underway_concat es (.hands arity g.values)).symm⟩
  · rintro k vs ⟨⟩
    have hle := List.getElem?_eq_none_iff.1 hnone
    rw [hwanted, length_take_wanted] at hle
    exact ⟨hvalues, Nat.le_antisymm (hvalues ▸ h.length_le _) hle⟩
  · rw [← Option.some.inj hg', harrivals]
    exact hg

end Ledger.Tells

theorem Serve.tells {e : Event} (hs : Serve as s e s') (h : s.Tells as es) :
    s'.Tells as (es ++ [e]) := by
  cases hs with
  | enters hg ha hp => exact h.enters hg ha hp
  | arrives ha => exact h.arrives ha
  | abandons hp => exact h.abandons hp
  | hands hg hnone => exact h.hands hg hnone

/-- **The events that a ledger allows are as they should be**, and the ledger tells them. -/
theorem Serves.tells (hs : Serves as {} es s) : s.Tells as es := by
  induction hs with
  | nil => exact Ledger.tells_new as
  | snoc _ he ih => exact he.tells ih

end Steppable.Host
