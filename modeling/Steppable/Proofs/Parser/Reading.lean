import Steppable.Parser.Grammar

/-!
# Reasoning about readers

`x.Ensures p Q` says that whatever `x` reads from `p` on satisfies `Q`, together with the parser
after it; of an attempt also what holds when it ends early. There is one rule for each way to put
readers together, and one for each basic reader.
-/

namespace Steppable

variable {α β : Type} {p : Parser}

/-- Whatever `x` reads from `p` on satisfies `Q`. -/
def Reading.Ensures (x : Reading α) (p : Parser) (Q : α → Parser → Prop) : Prop :=
  ∀ a p', x.run p = some (a, p') → Q a p'

/-- What the attempt reads satisfies `Q`, and the node that it ends early with satisfies `E`. -/
def Attempt.Ensures (x : Attempt α) (p : Parser) (E : Node → Parser → Prop)
    (Q : α → Parser → Prop) : Prop :=
  Reading.Ensures x.run p fun r p' =>
    match r with
    | .ok a => Q a p'
    | .error n => E n p'

namespace Reading

variable {x : Reading α} {f : α → Reading β} {Q Q' : α → Parser → Prop} {R : β → Parser → Prop}

theorem Ensures.mono (h : x.Ensures p Q) (hQ : ∀ a p', Q a p' → Q' a p') : x.Ensures p Q' :=
  fun a p' hx => hQ a p' (h a p' hx)

theorem ensures_pure {a : α} (h : Q a p) : (pure a : Reading α).Ensures p Q := by
  intro b p' hb
  obtain ⟨rfl, rfl⟩ := Prod.mk.inj (Option.some.inj hb)
  exact h

theorem Ensures.bind (h : x.Ensures p fun a p' => (f a).Ensures p' R) : (x >>= f).Ensures p R := by
  intro b p' hb
  rw [StateT.run_bind] at hb
  obtain ⟨⟨a, p₁⟩, hx, hf⟩ := Option.bind_eq_some_iff.1 hb
  exact h a p₁ hx b p' hf

theorem ensures_outOfFuel : (outOfFuel : Reading α).Ensures p Q := by
  intro a p' h
  simp [outOfFuel, failure, StateT.run] at h
  cases h

theorem ensures_modifyGet {g : Parser → α × Parser} (h : Q (g p).1 (g p).2) :
    (modifyGet g : Reading α).Ensures p Q := by
  intro a p' hx
  have hx : some (g p) = some (a, p') := hx
  rw [Option.some.inj hx] at h
  exact h

theorem ensures_modify {g : Parser → Parser} {Q : PUnit → Parser → Prop} (h : Q ⟨⟩ (g p)) :
    (modify g : Reading PUnit).Ensures p Q :=
  ensures_modifyGet h

theorem ensures_get {Q : Parser → Parser → Prop} (h : Q p p) :
    (get : Reading Parser).Ensures p Q := by
  intro a p' hx
  obtain ⟨rfl, rfl⟩ := Prod.mk.inj (Option.some.inj hx)
  exact h

/-! ## Tokens and nodes -/

theorem ensures_kind {Q : Token.Kind → Parser → Prop} (h : ∀ k, Q k p) : kind.Ensures p Q :=
  .bind (ensures_get (ensures_pure (h _)))

theorem ensures_here {Q : Location → Parser → Prop} (h : ∀ l, Q l p) : here.Ensures p Q :=
  .bind (ensures_get (ensures_pure (h _)))

theorem ensures_spanFrom {start : Location} {Q : Location → Parser → Prop} (h : ∀ l, Q l p) :
    (spanFrom start).Ensures p Q :=
  .bind (ensures_get (ensures_pure (h _)))

theorem ensures_hasFailed {Q : Bool → Parser → Prop} (h : Q p.failed p) : hasFailed.Ensures p Q :=
  .bind (ensures_get (ensures_pure h))

theorem ensures_forward {Q : PUnit → Parser → Prop} (h : ∀ c, Q ⟨⟩ { p with cursor := c }) :
    forward.Ensures p Q :=
  ensures_modify (h _)

theorem ensures_accept {k : Token.Kind} {Q : Bool → Parser → Prop}
    (h : ∀ b c, Q b { p with cursor := c }) : (accept k).Ensures p Q :=
  ensures_modifyGet (h _ _)

theorem ensures_acceptName {s : String} {Q : Bool → Parser → Prop}
    (h : ∀ b c, Q b { p with cursor := c }) : (acceptName s).Ensures p Q :=
  ensures_modifyGet (h _ _)

theorem ensures_takeName {Q : Option String → Parser → Prop}
    (h : ∀ s c, Q s { p with cursor := c }) : takeName.Ensures p Q :=
  ensures_modifyGet (h _ _)

theorem ensures_fresh {Q : Nat → Parser → Prop} (h : Q p.next { p with next := p.next + 1 }) :
    fresh.Ensures p Q :=
  ensures_modifyGet h

theorem ensures_node {place : Location} {build : Tag → Node} {Q : Node → Parser → Prop}
    (h : Q (build ⟨p.next, place⟩) { p with next := p.next + 1 }) : (node place build).Ensures p Q :=
  .bind (ensures_fresh (ensures_pure h))

theorem ensures_errorAt {place : Location} {message : String} {Q : Node → Parser → Prop}
    (h : Q (.invalid ⟨p.next, place⟩ message) { p with failed := true, next := p.next + 1 }) :
    (errorAt place message).Ensures p Q :=
  .bind (ensures_modify (ensures_node h))

theorem ensures_unexpected {expected : String} {Q : Node → Parser → Prop}
    (h : ∀ place message,
      Q (.invalid ⟨p.next, place⟩ message) { p with failed := true, next := p.next + 1 }) :
    (unexpected expected).Ensures p Q :=
  .bind (ensures_here fun _ => .bind (ensures_kind fun _ => ensures_errorAt (h _ _)))

end Reading

namespace Attempt

variable {x : Attempt α} {f : α → Attempt β} {E E' : Node → Parser → Prop}
  {Q Q' : α → Parser → Prop} {R : β → Parser → Prop} {n : Node}

theorem Ensures.mono (h : x.Ensures p E Q) (hE : ∀ n p', E n p' → E' n p')
    (hQ : ∀ a p', Q a p' → Q' a p') : x.Ensures p E' Q' := by
  intro r p' hx
  have := h r p' hx
  cases r with
  | ok a => exact hQ a p' this
  | error n => exact hE n p' this

theorem ensures_pure {a : α} (h : Q a p) : (pure a : Attempt α).Ensures p E Q := by
  show Reading.Ensures (pure (Except.ok a) : Reading (Except Node α)) p _
  exact Reading.ensures_pure h

theorem ensures_throw (h : E n p) : (throw n : Attempt α).Ensures p E Q := by
  show Reading.Ensures (pure (Except.error n) : Reading (Except Node α)) p _
  exact Reading.ensures_pure h

theorem Ensures.bind (h : x.Ensures p E fun a p' => (f a).Ensures p' E R) :
    (x >>= f).Ensures p E R := by
  refine Reading.Ensures.bind (Reading.Ensures.mono h fun r p' hr => ?_)
  cases r with
  | ok a => exact hr
  | error n => exact show (throw n : Attempt β).Ensures p' E R from ensures_throw hr

theorem ensures_lift {y : Reading α} (h : y.Ensures p Q) :
    (liftM y : Attempt α).Ensures p E Q := by
  show Reading.Ensures (y >>= fun a => pure (Except.ok a) : Reading (Except Node α)) p _
  exact Reading.Ensures.bind (h.mono fun a p' ha => Reading.ensures_pure ha)

theorem ensures_get {Q : Parser → Parser → Prop} (h : Q p p) :
    (get : Attempt Parser).Ensures p E Q :=
  ensures_lift (Reading.ensures_get h)

theorem ensures_outcome {Q : Except Node α → Parser → Prop}
    (h : x.Ensures p (fun n p' => Q (.error n) p') (fun a p' => Q (.ok a) p')) :
    (outcome x).Ensures p E Q := by
  refine ensures_lift (Reading.Ensures.mono h fun r p' hr => ?_)
  cases r with
  | ok a => exact hr
  | error n => exact hr

theorem ensures_orError {y : Attempt Node} {Q : Node → Parser → Prop} (h : y.Ensures p Q Q) :
    (orError y).Ensures p Q := by
  refine Reading.Ensures.bind (Reading.Ensures.mono h fun r p' hr => ?_)
  cases r with
  | ok a => exact Reading.ensures_pure hr
  | error n => exact Reading.ensures_pure hr

theorem ensures_fail {e : Reading Node} (h : e.Ensures p E) : (fail e : Attempt α).Ensures p E Q :=
  .bind (ensures_lift (h.mono fun _ _ hn => ensures_throw hn))

theorem ensures_expect {k : Token.Kind} {Q : PUnit → Parser → Prop}
    (hQ : ∀ c, Q ⟨⟩ { p with cursor := c })
    (hE : ∀ c place message, E (.invalid ⟨p.next, place⟩ message)
      { p with cursor := c, failed := true, next := p.next + 1 }) :
    (expect k).Ensures p E Q := by
  refine .bind (ensures_lift (Reading.ensures_accept fun b c => ?_))
  cases b with
  | true => exact ensures_pure (hQ c)
  | false => exact ensures_fail (Reading.ensures_unexpected fun place message => hE c place message)

theorem ensures_valid {Q : Node → Parser → Prop} (hQ : n.isInvalid = false → Q n p)
    (hE : n.isInvalid = true → E n p) : (valid n).Ensures p E Q := by
  unfold valid
  split
  · rename_i h
    exact ensures_throw (hE h)
  · rename_i h
    exact ensures_pure (hQ (by simpa using h))

theorem ensures_takeNameOr {what : String} {Q : String → Parser → Prop}
    (hQ : ∀ s c, Q s { p with cursor := c })
    (hE : ∀ c place message, E (.invalid ⟨p.next, place⟩ message)
      { p with cursor := c, failed := true, next := p.next + 1 }) :
    (takeNameOr what).Ensures p E Q := by
  refine .bind (ensures_lift (Reading.ensures_takeName fun s c => ?_))
  cases s with
  | some s => exact ensures_pure (hQ s c)
  | none => exact ensures_fail (Reading.ensures_unexpected fun place message => hE c place message)

end Attempt

end Steppable
