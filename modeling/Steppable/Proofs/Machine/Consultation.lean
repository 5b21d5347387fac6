import Steppable.Proofs.Machine.Gathering

/-!
# The rules of a host are a table

What a rule of a host is for can be read off it: chains of accessors that begin with members of the
names on its path and go on with an accessor of the kind of its ending. The evaluator does something
else. It walks outwards along the stack with a cursor for one rule after the other, suspends itself
for arguments, asks again when one has come back, and gives the answer to frames that are still
waiting and must not ask on their own account when it is their turn.

**Theorem (`asks_by_table`).** It comes to the same, at every moment of an evaluation, under every
host whose rules are of these forms and resolve what they are asked; the functions that they answer
with are of the sources that have been read.

- **The chain** is entered from outside and nothing else is (`Outwards.course`). When its innermost
  accessor asks, it is on the stack, and nothing is kept there from an earlier question (`Neat`,
  kept up by `neat_step`).
- **The rule** is the first one that is for the chain, by `Host.Rule.reach?_eq_some_iff`.
- **The arguments** it asks for are evaluated, nothing else is, and then its handler is called
  (`Gathering.collects`, `Gathering.consult_last`).
- **The answer**, or the first argument that is abrupt, is the result of the accessors up to the one
  reached. It comes to the accessor outside of them (`Settles.arrives`), which is resolved on it
  (`received`).
-/

namespace Steppable.Machine

variable {m m' m₁ : Machine} {φ φ' : Focus} {S : Node → Prop} {x n : Node} {ns as : List Node}
  {outer : List Frame} {h k : Nat} {f : Frame} {ψ : Phase} {g : Option Gathered} {v w : Value}
  {vs : List Value} {r : Host.Rule} {rules rest : List Host.Rule} {s : Machine × Progress}

/-! ## The way to the innermost accessor -/

/-- `n` is `b` followed outwards by the accessors `ns`, the innermost first. -/
inductive Outwards (b : Node) : List Node → Node → Prop
  | base : Outwards b [] b
  | apply {l n : Node} {ns : List Node} : Outwards b ns l → n.left? = some l →
      Outwards b (ns ++ [n]) n

theorem Outwards.cons {y : Node} (hn : Outwards y ns n) (hl : y.left? = some x) :
    Outwards x (y :: ns) n := by
  induction hn with
  | base => exact .apply .base hl
  | apply _ hl' ih => exact .apply ih hl'

/-- Accessors that wait for one another are applied to one another. -/
theorem outwards_of_expects (he : Expects ((ns.map Frame.applied ++ outer).map Frame.core) x) :
    ∃ n, Outwards x ns n := by
  induction ns generalizing x with
  | nil => exact ⟨x, .base⟩
  | cons y ns ih =>
    have hl : y.left? = some x := Expects.left_of_accessed he
    obtain ⟨n, hn⟩ := ih (Expects.tail he)
    exact ⟨n, hn.cons hl⟩

/-- A node that gets a frame. -/
theorem course_push (hn : ∀ m : Machine, m.enter n = m.push n) (hd : m.frames.length < maxFrames)
    (hh : m.frames.length ≤ h) :
    ∃ stopNext, Course h [n] m (.enter n)
      { m with frames := { node := n } :: m.frames, stopNext } .begin := by
  have hs : ∃ stopNext, (m.step (.enter n)).2.next? = some .begin ∧
      (m.step (.enter n)).1 = { m with frames := { node := n } :: m.frames, stopNext } := by
    rw [step, hn, push, if_neg (Nat.not_le_of_lt hd)]
    dsimp only
    split
    · exact ⟨false, rfl, rfl⟩
    · exact ⟨m.stopNext, rfl, rfl⟩
  obtain ⟨stopNext, hnext, hm⟩ := hs
  refine ⟨stopNext, ?_⟩
  have := Course.step (h := h) hnext (.refl _ _)
  rwa [hm, entered, if_pos hh] at this

/-- **A chain of accessors is entered from outside**, and nothing else is before what it is applied
to. -/
theorem Outwards.course {b : Node} (hn : Outwards b ns n) (hh : m.frames.length + ns.length ≤ h)
    (hd : m.frames.length + ns.length ≤ maxFrames) :
    ∃ stopNext, Course h ns.reverse m (.enter n)
      { m with frames := ns.map Frame.applied ++ m.frames, stopNext } (.enter b) := by
  induction hn generalizing m with
  | base => exact ⟨m.stopNext, .refl _ _⟩
  | @apply l n ns _ hl ih =>
    rw [List.length_append, List.length_singleton] at hh hd
    have hacc : (∀ m : Machine, m.enter n = m.push n) ∧
        ∀ m : Machine, m.begin n = m.await .accessed l := by
      cases n with
      | member | index | call =>
        obtain rfl := Option.some.inj hl
        exact ⟨fun _ => rfl, fun _ => rfl⟩
      | _ => simp [Node.left?] at hl
    obtain ⟨s, hpush⟩ := course_push (m := m) (h := h) hacc.1 (by omega) (by omega)
    have hbegin :
        Machine.step { m with frames := { node := n } :: m.frames, stopNext := s } .begin =
          ({ m with frames := .applied n :: m.frames, stopNext := s }, .running (.enter l)) := by
      show Machine.begin _ n = _
      rw [hacc.2]
      rfl
    obtain ⟨s', hin⟩ := ih (m := { m with frames := .applied n :: m.frames, stopNext := s })
      (by simp only [List.length_cons]; omega) (by simp only [List.length_cons]; omega)
    refine ⟨s', ?_⟩
    rw [List.reverse_append, List.map_append, List.append_assoc]
    exact hpush.trans ((Course.single hbegin).trans hin)

/-! ## The rule for a chain -/

/-- The rule `r` has been chosen for the accessor `n` of the chain of `x` and `ns`, in a step of the
machine `m` with the outcome `s`. The arguments that it asks for are evaluated in order, and no
other node at this height. If one is abrupt then it is the result, and if none is then the handler
is called and what it sets is the result: of `x` and of all accessors up to `n`. -/
structure Consulted (m : Machine) (x : Node) (ns : List Node) (outer : List Frame) (r : Host.Rule)
    (rest : List Host.Rule) (n : Node) (s : Machine × Progress) : Prop where
  asks : ∀ {as later a vs m₁}, r.ending.asked n = as ++ a :: later →
    Collects (awaiting x ns outer r rest n) m [] as vs m₁ →
    Arrives m.frames.length as s (m₁.withFrames (awaiting x ns outer r rest n vs)) (.enter a)
  refuses : ∀ {as later a vs v m₁ m₂}, r.ending.asked n = as ++ a :: later →
    Collects (awaiting x ns outer r rest n) m [] as vs m₁ →
    Evaluates (m₁.withFrames (awaiting x ns outer r rest n vs)) a v m₂ →
    (m₂.cells.deref v).isAbrupt = true →
    Settles m.frames.length (as ++ [a]) ns r.path.length outer s m₂ (m₂.cells.deref v)
  answers : ∀ {vs m₁}, Collects (awaiting x ns outer r rest n) m [] (r.ending.asked n) vs m₁ →
    ∃ w m₂, Answered m₁ r ⟨vs, m.links.take (r.path.length + 1)⟩ n w m₂ ∧
      Settles m.frames.length (r.ending.asked n) ns r.path.length outer s m₂ w

theorem Seated.gathering (hm : Seated S m x ns outer r.path.length ψ none) :
    Gathering S m x ns outer r n ψ none [] (r.ending.asked n) :=
  ⟨hm, rfl, Nat.zero_le _, rfl⟩

/-- **The rule that has been chosen is consulted.** -/
theorem Seated.consulted (hP : Program S) (hr : Chosen S x ns r rest n)
    (hm : Seated S m x ns outer r.path.length ψ none) :
    Consulted m x ns outer r rest n (consult x (r :: rest) m) := by
  have hself : m.withFrames (asking x ns outer r.path.length ψ none) = m := by
    rw [← hm.frames]
    rfl
  have hlen := hm.length_eq
  -- The frame asks again when the first arguments have been gathered.
  have hagain : ∀ {as later vs m₁}, r.ending.asked n = as ++ later →
      Collects (awaiting x ns outer r rest n) m [] as vs m₁ → ∃ ψ' g',
        Gathering S (m₁.withFrames (asking x ns outer r.path.length ψ' g')) x ns outer r n ψ' g' vs
          later ∧
        ∀ {bs m' φ}, Arrives m.frames.length bs (consult x (r :: rest)
            (m₁.withFrames (asking x ns outer r.path.length ψ' g'))) m' φ →
          Arrives m.frames.length (as ++ bs) (consult x (r :: rest) m) m' φ := by
    intro as later vs m₁ hsplit hc
    have hstart : Gathering S m x ns outer r n ψ none [] (as ++ later) := hsplit ▸ hm.gathering
    rw [← hself] at hstart
    have := hstart.collects hP hr hc
    rwa [hself, ← hlen] at this
  constructor
  · intro as later a vs m₁ hsplit hc
    obtain ⟨ψ', g', hm', hback⟩ := hagain hsplit hc
    have := @hback [] _ _ (by rw [hm'.consult_next hP hr]; exact .refl _ _ _)
    rwa [List.append_nil] at this
  · intro as later a vs v m₁ m₂ hsplit hc hv habrupt
    obtain ⟨ψ', g', hm', hback⟩ := hagain hsplit hc
    have hs := hm'.refused hP hr hv habrupt
    rw [hm'.seated.length_eq, ← hlen] at hs
    exact hs.after as hback
  · intro vs m₁ hc
    obtain ⟨ψ', g', hm', hback⟩ := hagain (List.append_nil _).symm hc
    obtain ⟨w, m₂, ha, hs⟩ := hm'.consult_last hP hr
    rw [hm.links_eq rfl] at ha
    obtain ⟨m₃, ha₃, hsame⟩ := ha.of_withFrames
    have := ((hs.settles m.frames.length).after _ hback).congr hsame
    rw [List.append_nil] at this
    exact ⟨w, m₃, ha₃, this⟩

/-! ## The table -/

/-- The frame at the top is that of the accessor `x`, the accessors `ns` wait to be applied to it,
and what is below waits for something else. -/
structure AtChain (m : Machine) (x : Node) (ns : List Node) (outer : List Frame) : Prop where
  frames : ∃ ψ, ψ.isBare = true ∧
    m.frames = { node := x, phase := ψ } :: (ns.map Frame.applied ++ outer)
  barred : Barred outer

/-- When the rules are asked about the accessor `x`, they see the accessors that are applied to it,
and the first rule that is for this chain is consulted. If there is none, the accessor is unknown:
no node is entered, no result is set, and the error is on its way to the accessors `ns`. -/
structure Decided (rules : List Host.Rule) (m : Machine) (x : Node) (ns : List Node)
    (outer : List Frame) : Prop where
  applied : ∃ n, Outwards x ns n
  chain : m.links.map (·.node) = x :: ns
  unknown : (∀ r ∈ rules, ¬ r.Fits (x :: ns)) → consult x rules m =
    ((m.fault x (unknownAccessor x)).2.withFrames (ns.map Frame.applied ++ outer),
      .running (.give (m.fault x (unknownAccessor x)).1))
  first : ∀ {passed r rest n}, Host.FirstFit rules (x :: ns) passed r rest →
    (x :: ns)[r.path.length]? = some n → Consulted m x ns outer r rest n (consult x rules m)

theorem AtChain.seated (hm : AtChain m x ns outer) (ha : Aligned S m φ) :
    ∃ ψ, ∀ {k n}, (x :: ns)[k]? = some n → Seated S m x ns outer k ψ none := by
  obtain ⟨⟨ψ, hψ, hf⟩, hbar⟩ := hm
  exact ⟨ψ, fun hn => ⟨hf.trans (asking_none hn outer ψ).symm, hψ, hbar, ha.held.1,
    ha.poised.expects hf⟩⟩

/-- The first rule that is for the chain is consulted. -/
theorem chosen_of_firstFit {passed : List Host.Rule} (hr : ∀ r ∈ rules, r.Tame S ∧ r.Tabular)
    (hfirst : Host.FirstFit rules (x :: ns) passed r rest)
    (hn : (x :: ns)[r.path.length]? = some n) : Chosen S x ns r rest n := by
  obtain ⟨rfl, -, hfits⟩ := hfirst
  have hmem := fun q hq => hr q (List.mem_append_right _ hq)
  obtain ⟨htame, htab⟩ := hmem r List.mem_cons_self
  exact ⟨(Host.Rule.reach?_eq_some_iff htab.ending _ _).2 ⟨rfl, hfits⟩, hn, htame.resolves,
    fun q hq => (hmem q hq).1.native⟩

/-- **The rules are asked as their table says.** -/
theorem AtChain.decided (hP : Program S) (hm : AtChain m x ns outer) (ha : Aligned S m φ)
    (hr : ∀ r ∈ rules, r.Tame S ∧ r.Tabular) : Decided rules m x ns outer := by
  obtain ⟨ψ, hseat⟩ := hm.seated ha
  have hseat₀ := hseat (k := 0) rfl
  have hchain := hseat₀.links_node hP
  have htab : ∀ r ∈ rules, r.ending.Tabular := fun r hm => (hr r hm).2.ending
  refine ⟨outwards_of_expects hseat₀.expects, hchain, fun hno => ?_, fun hfirst hn => ?_⟩
  · obtain ⟨ψ, hψ, hf⟩ := hm.frames
    rw [consult_of_not_fits x htab (hchain ▸ hno)]
    exact finish_of_bare (m := (m.fault x (unknownAccessor x)).2) hf hψ _
  · rw [consult_of_firstFit x htab (hchain ▸ hfirst)]
    exact (hseat hn).consulted hP (chosen_of_firstFit hr hfirst hn)

theorem members_tame (v : Value) : ∀ r ∈ Host.members v, r.Tame S ∧ r.Tabular :=
  fun r hr => ⟨⟨Host.resolves_members v r hr, Host.faithful_members _ _ v r hr⟩,
    Host.tabular_members v r hr⟩

/-! ## Nothing is kept from an earlier question -/

/-- No frame has a result, and nothing is kept but for the questions that are open: each with the
accessor that its rule has reached, and with an argument still to come. -/
inductive Neat : List Frame → Prop
  | nil : Neat []
  | cons {f : Frame} {outer : List Frame} : f.result = none → f.gathered = none →
      (∀ k rules, f.phase ≠ .asking k rules) → Neat outer → Neat (f :: outer)
  | asked {x : Node} {ns : List Node} {outer : List Frame} {r : Host.Rule} {rest : List Host.Rule}
      {n a : Node} {vs : List Value} {later : List Node} :
      r.reach? (x :: ns) = some r.path.length → (x :: ns)[r.path.length]? = some n →
      (r.ending.asked n).drop vs.length = a :: later → Barred outer →
      Neat (ns.map Frame.applied ++ outer) → Neat (awaiting x ns outer r rest n vs)

/-- A frame that does not ask has neither a result nor arguments for a host. -/
theorem Neat.top (hn : Neat (f :: outer)) (hq : ∀ k rules, f.phase ≠ .asking k rules) :
    f = { node := f.node, phase := f.phase } ∧ Neat outer := by
  generalize hfs : f :: outer = fs at hn
  cases hn with
  | nil => cases hfs
  | cons hr hg _ ho =>
    cases hfs
    exact ⟨by rw [← hr, ← hg], ho⟩
  | @asked x ns outer r rest n a vs later =>
    obtain ⟨g₀, gs, hcons⟩ := awaiting_eq_cons x ns outer r rest n vs
    obtain ⟨rfl, -⟩ := List.cons.inj (hfs.trans hcons)
    exact (hq _ _ rfl).elim

/-- The frames below, up to the first one that waits for something else, are those of accessors. -/
theorem Neat.accessors {fs : List Frame} (hn : Neat fs) :
    ∃ (ns : List Node) (outer : List Frame), fs = ns.map Frame.applied ++ outer ∧ Barred outer := by
  induction hn with
  | nil => exact ⟨[], [], rfl, by simp [Barred]⟩
  | @cons f fs hr hg hq hn ih =>
    by_cases hφ : f.phase = .accessed
    · obtain ⟨ns, outer, rfl, hbar⟩ := ih
      refine ⟨f.node :: ns, outer, ?_, hbar⟩
      have hf := ((Neat.cons hr hg hq hn).top hq).1
      rw [hφ] at hf
      rw [hf]
      rfl
    · refine ⟨[], f :: fs, rfl, ?_⟩
      intro b hb
      obtain rfl := Option.some.inj hb
      exact Bool.eq_false_iff.2 (mt Phase.isAccessed_iff.1 hφ)
  | asked => exact ⟨[], _, rfl, barred_awaiting _ _ _ _ _ _ _⟩

theorem Neat.drop (hn : Neat (ns.map Frame.applied ++ outer)) (k : Nat) :
    Neat ((ns.drop k).map Frame.applied ++ outer) := by
  induction k generalizing ns with
  | zero => exact hn
  | succ k ih =>
    cases ns with
    | nil => exact hn
    | cons n ns => exact ih (hn.top (by simp [Frame.applied])).2

/-- A frame that is about to ask is that of the innermost accessor of a chain. -/
theorem Neat.atChain (hn : Neat (f :: outer)) (hf : m.frames = f :: outer)
    (hψ : f.phase.isBare = true) (hq : ∀ k rules, f.phase ≠ .asking k rules) :
    ∃ ns rest, AtChain m f.node ns rest ∧ Neat (ns.map Frame.applied ++ rest) := by
  obtain ⟨htop, ho⟩ := hn.top hq
  obtain ⟨ns, rest, rfl, hbar⟩ := ho.accessors
  exact ⟨ns, rest, ⟨⟨f.phase, hψ, by rw [hf, ← htop]⟩, hbar⟩, ho⟩

/-- The frames are neat, apart from accessors at the top whose result is on its way. -/
def Neatly (m : Machine) : Focus → Prop
  | .give v => ∃ fs gs, m.frames = fs ++ gs ∧
      (∀ f ∈ fs, f.phase = .accessed ∧ f.result = some v) ∧ Neat gs
  | _ => Neat m.frames

theorem neatly_give (hn : Neat m.frames) (v : Value) : Neatly m (.give v) :=
  ⟨[], m.frames, rfl, by simp, hn⟩

/-- A step that ends so leaves neat frames. -/
def NeatAfter (s : Machine × Progress) : Prop :=
  ∀ φ, s.2.next? = some φ → Neatly s.1 φ

theorem neat_finish (hf : m.frames = f :: outer) (hn : Neat outer) (v : Value) :
    NeatAfter (m.finish v) := by
  intro φ hnext
  rw [finish_snd] at hnext
  obtain rfl := Option.some.inj hnext
  refine neatly_give ?_ v
  simp only [finish, hf]
  exact hn

theorem neat_await (hf : m.frames = f :: outer) (hn : Neat (f :: outer))
    (hq : ∀ k rules, f.phase ≠ .asking k rules) (hψ : ∀ k rules, ψ ≠ .asking k rules) (n : Node) :
    NeatAfter (m.await ψ n) := by
  intro φ hnext
  rw [await_snd] at hnext
  obtain rfl := Option.some.inj hnext
  show Neat (m.await ψ n).1.frames
  obtain ⟨htop, ho⟩ := hn.top hq
  simp only [await, hf]
  rw [htop]
  exact .cons rfl rfl hψ ho

theorem neat_nextStatement (hf : m.frames = f :: outer) (hn : Neat (f :: outer))
    (hq : ∀ k rules, f.phase ≠ .asking k rules) (last : Value) (ss : List Node) :
    NeatAfter (m.nextStatement last ss) := by
  cases ss with
  | nil => exact neat_finish hf (hn.top hq).2 last
  | cons s rest => exact neat_await hf hn hq (by simp) s

theorem neat_nextArgument (hf : m.frames = f :: outer) (hn : Neat (f :: outer))
    (hq : ∀ k rules, f.phase ≠ .asking k rules) (callee : Closure) (done : List Value)
    (as : List Node) : NeatAfter (m.nextArgument callee done as) := by
  cases as with
  | nil =>
    exact neat_await (m := { m with cells := activate m.cells callee done }) hf hn hq (by simp) _
  | cons a as => exact neat_await hf hn hq (by simp) a

theorem neat_call (hf : m.frames = f :: outer) (hn : Neat (f :: outer))
    (hq : ∀ k rules, f.phase ≠ .asking k rules) (n : Node) (callee : Closure) :
    NeatAfter (m.call n callee) := by
  obtain ⟨htop, ho⟩ := hn.top hq
  unfold call
  rw [hf]
  refine neat_nextArgument rfl (.cons rfl rfl (by simp) ?_) (by simp) callee [] n.arguments
  rw [htop]
  exact .cons rfl rfl (by simp) ho

/-- A result takes the frames of its accessors with it. -/
theorem Resolved.neat (hs : Resolved ns k outer s m w)
    (hn : Neat (ns.map Frame.applied ++ outer)) : NeatAfter s := by
  obtain ⟨fs, -, hfs, rfl⟩ := hs
  intro φ hnext
  obtain rfl := Option.some.inj hnext
  exact ⟨fs, _, rfl, hfs, hn.drop k⟩

/-- A question leaves neat frames, whether it stays open or not. -/
theorem Gathering.neat (hP : Program S) (hr : Chosen S x ns r rest n)
    (hm : Gathering S m x ns outer r n ψ g vs as) (hn : Neat (ns.map Frame.applied ++ outer)) :
    NeatAfter (consult x (r :: rest) m) := by
  cases as with
  | nil =>
    obtain ⟨w, m', -, hs⟩ := hm.consult_last hP hr
    exact hs.neat hn
  | cons a as =>
    rw [hm.consult_next hP hr]
    intro φ hnext
    obtain rfl := Option.some.inj hnext
    exact .asked hr.reach hr.reached hm.later hm.seated.barred hn

theorem neat_consult (hP : Program S) (hm : AtChain m x ns outer) (ha : Aligned S m φ)
    (hr : ∀ r ∈ rules, r.Tame S ∧ r.Tabular) (hn : Neat (ns.map Frame.applied ++ outer)) :
    NeatAfter (consult x rules m) := by
  have hdecided := hm.decided hP ha hr
  by_cases hno : ∀ r ∈ rules, ¬ r.Fits (x :: ns)
  · rw [hdecided.unknown hno]
    intro φ hnext
    obtain rfl := Option.some.inj hnext
    exact neatly_give hn _
  · obtain ⟨passed, r, rest, hfirst⟩ := Host.exists_firstFit hno
    obtain ⟨n, hreached, -⟩ := hfirst.fits.ended
    obtain ⟨ψ, hseat⟩ := hm.seated ha
    rw [consult_of_firstFit x (fun r hm => (hr r hm).2.ending) (hdecided.chain ▸ hfirst)]
    exact (hseat hreached).gathering.neat hP (chosen_of_firstFit hr hfirst hreached) hn

/-- What comes back to a frame that asks is gathered, or settles the question. -/
theorem neat_receiveArgument (hP : Program S) (ho : Orderly S m (.give v))
    (hf : m.frames = awaiting x ns outer r rest n vs)
    (hreach : r.reach? (x :: ns) = some r.path.length)
    (hn : (x :: ns)[r.path.length]? = some n)
    {a : Node} (hlater : (r.ending.asked n).drop vs.length = a :: as) (hbar : Barred outer)
    (hneat : Neat (ns.map Frame.applied ++ outer)) : NeatAfter (m.step (.give v)) := by
  obtain ⟨g₀, gs, hcons⟩ := awaiting_eq_cons x ns outer r rest n vs
  have hquestions := ho.calm.questions
  rw [hf, hcons] at hquestions
  have hr : Chosen S x ns r rest n := ⟨hreach, hn,
    ((hquestions.1 _ _ rfl).1 r List.mem_cons_self).1,
    (ho.held.1.top (hf.trans hcons)).rules⟩
  cases hab : (m.cells.deref v).isAbrupt with
  | true => exact (resolved_of_abrupt hP hr hf hbar ho.aligned hab).neat hneat
  | false =>
    obtain ⟨hstep, hm⟩ := step_of_argument hf hbar ho.aligned hlater hab
    rw [hstep]
    exact hm.neat hP hr hneat

theorem neat_enter (hn : Neat m.frames) (n : Node) : NeatAfter (m.enter n) := by
  have hpush : ∀ (stopNext : Bool) {p : Progress}, p.next? = some .begin →
      NeatAfter ({ m with frames := { node := n } :: m.frames, stopNext }, p) := by
    intro stopNext p hp φ hnext
    obtain rfl := Option.some.inj (hp.symm.trans hnext)
    exact .cons rfl rfl (by simp) hn
  have he := enter_entering m n
  generalize m.enter n = s at he
  cases he with
  | push =>
    split
    · exact hpush _ rfl
    · exact hpush _ rfl
  | constant | nothing | fault | reference | function | named | unbound =>
    exact fun φ hnext => Option.some.inj hnext ▸ neatly_give hn _

theorem neat_begin (hP : Program S) (ho : Orderly S m .begin) (ht : ∀ r ∈ m.host, r.Tabular)
    (hf : m.frames = f :: outer) (hφ : f.phase = .ready) (hn : Neat (f :: outer)) :
    NeatAfter (m.begin f.node) := by
  have hq : ∀ k rules, f.phase ≠ .asking k rules := by simp [hφ]
  have hb := begin_beginning m f.node
  generalize m.begin f.node = s at hb
  cases hb with
  | await hw => exact neat_await hf hn hq (Waits.ne_asking hw) _
  | ask =>
    obtain ⟨ns, rest, hm, hneat⟩ := hn.atChain hf (by rw [hφ]; rfl) hq
    exact neat_consult hP hm ho.aligned
      (forall_rules fun r hr => ⟨ho.host r hr, ht r hr⟩) hneat
  | @block t ss locals e outer' _ he =>
    rw [hf] at he
    cases he
    obtain ⟨htop, hrest⟩ := hn.top hq
    refine neat_nextStatement (m := { m with
      frames := { f with phase := .statement ss } :: outer
      cells := m.cells.registerAll locals }) rfl ?_ (by simp) _ _
    rw [htop]
    exact .cons rfl rfl (by simp) hrest
  | jump | finish => exact neat_finish hf (hn.top hq).2 _

theorem neat_receive (hP : Program S) (ho : Orderly S m (.give v)) (hf : m.frames = f :: outer)
    (hn : Neat (f :: outer)) (hq : ∀ k rules, f.phase ≠ .asking k rules) :
    NeatAfter (m.receive f v) := by
  have hrest := (hn.top hq).2
  have hr := receive_reaction m f v
  generalize m.receive f v = s at hr
  cases hr with
  | pass | abrupt | yield | result | unwrap => exact neat_finish hf hrest _
  | fault culprit message => exact neat_finish (m := (m.fault culprit message).2) hf hrest _
  | @write cell x w =>
    exact neat_finish (m := { m with cells := m.cells.set cell x }) hf hrest w
  | await _ hw => exact neat_await hf hn hq (Waits.ne_asking hw) _
  | statement => exact neat_nextStatement hf hn hq _ _
  | call => exact neat_call hf hn hq _ _
  | members hφ =>
    obtain ⟨ns, rest, hm, hneat⟩ := hn.atChain hf (by rw [hφ]; rfl) hq
    exact neat_consult hP hm ho.aligned (members_tame _) hneat
  | argument => exact neat_nextArgument hf hn hq _ _ _
  | ask hφ => exact (hq _ _ hφ).elim

/-- **A step leaves neat frames.** -/
theorem neat_step (hP : Program S) (ho : Orderly S m φ) (ht : ∀ r ∈ m.host, r.Tabular)
    (hn : Neatly m φ) : NeatAfter (m.step φ) := by
  cases φ with
  | enter n => exact neat_enter hn n
  | begin =>
    obtain ⟨x, cs, hc, -⟩ := ho.poised
    obtain ⟨f, outer, hf, hfc, -⟩ := frames_of_cores hc
    have hn : Neat m.frames := hn
    rw [hf] at hn
    rw [step, hf]
    exact neat_begin hP ho ht hf (congrArg Prod.snd hfc) hn
  | give v =>
    obtain ⟨fs, gs, hfs, hres, hn⟩ := hn
    cases fs with
    | cons f fs =>
      -- The top frame has its result, and ends with it.
      obtain ⟨hφ, hr⟩ := hres f List.mem_cons_self
      rw [step, hfs]
      show NeatAfter (m.receive f v)
      rw [receive_of_result hφ hr, finish_of_bare hfs (by rw [hφ]; rfl)]
      intro φ hnext
      obtain rfl := Option.some.inj hnext
      exact ⟨fs, gs, rfl, fun e he => hres e (List.mem_cons_of_mem f he), hn⟩
    | nil =>
      rw [List.nil_append] at hfs
      subst hfs
      generalize hfs : m.frames = gs at hn
      cases hn with
      | nil =>
        rw [step, hfs]
        exact fun φ hnext => by simp [Progress.next?] at hnext
      | cons hr hg hq hrest =>
        rw [step, hfs]
        exact neat_receive hP ho hfs (.cons hr hg hq hrest) hq
      | asked hreach hreached hlater hbar hneat =>
        exact neat_receiveArgument hP ho hfs hreach hreached hlater hbar hneat

variable {host : List Host.Rule} {ts : List Node} {next : Nat}

/-- An orderly machine with its host, and with neat frames. -/
structure InOrder (host : List Host.Rule) (S : Node → Prop) (m : Machine) (φ : Focus) : Prop where
  orderly : Orderly S m φ
  host : m.host = host
  neat : Neatly m φ

/-- Between two calls the frames are neat if the machine is stopped. -/
structure LeftInOrder (host : List Host.Rule) (S : Node → Prop) (m : Machine) : Prop where
  settled : Settled S m
  host : m.host = host
  neat : m.isPending = true → Neat m.frames

/-- **Frames are neat all the time**, under a host that resolves what it is asked. -/
theorem inOrder_perpetual (hP : Program (nodesOf ts)) (hh : ∀ r ∈ host, r.Tabular) :
    Perpetual ts (LeftInOrder host (nodesOf ts)) (InOrder host (nodesOf ts)) where
  lasting := {
    step := fun m φ φ' h hn =>
      ⟨(Orderly.lasting hP).step m φ φ' h.orderly hn,
        (host_perpetual host ts).lasting.step m φ φ' h.host hn,
        neat_step hP h.orderly (h.host ▸ Host.forall_always hh) h.neat φ' hn⟩
    resumption := fun m h => by
      rw [resumption_eq_of_calm h.orderly.calm]
      exact h
    stops := fun m φ b stopNext h =>
      ⟨(Orderly.lasting hP).stops m φ b stopNext h.orderly, h.host, by cases φ <;> exact h.neat⟩ }
  globals m ds h :=
    have hf := (declareGlobals_frames m ds).1
    ⟨(orderly_perpetual hP).globals m ds h.settled, (host_perpetual host ts).globals m ds h.host,
      fun hp => hf ▸ h.neat (by rwa [isPending, hf] at hp)⟩
  stops m b stopNext h :=
    ⟨(orderly_perpetual hP).stops m b stopNext h.settled, h.host, h.neat⟩
  start m n h hp hn :=
    ⟨(orderly_perpetual hP).start m n h.settled hp hn, h.host,
      show Neat m.frames from (frames_of_isPending hp).symm ▸ .nil⟩
  taken m h hp := ⟨(orderly_perpetual hP).taken m h.settled hp, h.host, h.neat hp⟩
  stopped m h := ⟨h.orderly.settled, h.host, fun _ => h.neat⟩
  ended m w h hf := by
    refine ⟨(orderly_perpetual hP).ended m w h.orderly hf,
      (host_perpetual host ts).ended m w h.host hf, fun hp => ?_⟩
    rw [isPending_of_frames ((settle_frames m w).2.1.trans hf)] at hp
    cases hp
  reset m h :=
    ⟨(orderly_perpetual hP).reset m h.settled, h.host, by simp [isPending, Machine.reset]⟩

/-! ## Every moment of an evaluation -/

/-- An evaluation comes to this moment, whether it stops on the way or not. -/
inductive Attained (host : List Host.Rule) (ts : List Node) : Machine → Focus → Prop
  | reached {m : Machine} {φ : Focus} : Reached host ts (m, some φ) → Attained host ts m φ
  | step {m : Machine} {φ φ' : Focus} : Attained host ts m φ → (m.step φ).2.next? = some φ' →
      Attained host ts (m.step φ).1 φ'

/-- What goes on from there comes to moments of the same evaluation. -/
theorem Attained.arrives (ha : Attained host ts m φ) (hs : Arrives h as (m.step φ) m' φ') :
    Attained host ts m' φ' := by
  obtain ⟨φ₁, hn, hc⟩ := hs
  exact hc.preserves (fun _ _ _ => Attained.step) (ha.step hn)

theorem Attained.inOrder (hP : Program (nodesOf ts))
    (hh : ∀ r ∈ host, r.Tame (nodesOf ts) ∧ r.Tabular) (ha : Attained host ts m φ) :
    InOrder host (nodesOf ts) m φ := by
  have hperp := inOrder_perpetual hP fun r hr => (hh r hr).2
  induction ha with
  | reached hr =>
    refine hperp.of_reached (fun next => ?_) hr
    exact ⟨settled_always (fun r hr => (hh r hr).1) next, rfl, by simp [isPending]⟩
  | step _ hn ih => exact hperp.lasting.step _ _ _ ih hn

/-- The value `v` has come to the accessor `x`, to which the accessors `ns` are applied. If it is
abrupt, it goes on to the next one; a function is called; and of any other value the members are
asked, by a table as well. -/
structure Received (m : Machine) (x : Node) (ns : List Node) (outer : List Frame) (v : Value) :
    Prop where
  abrupt : v.isAbrupt = true →
    m.step (.give v) = (m.withFrames (ns.map Frame.applied ++ outer), .running (.give v))
  called : ∀ {t l as f}, v.isAbrupt = false → x = .call t l as → m.cells.deref v = .function f →
    m.step (.give v) = m.call x f
  asked : v.isAbrupt = false → (∀ t l as f, x = .call t l as → m.cells.deref v ≠ .function f) →
    m.step (.give v) = consult x (Host.members (m.cells.deref v)) m ∧
      Decided (Host.members (m.cells.deref v)) m x ns outer

theorem received (hP : Program S) (hm : AtChain m x ns outer) (ha : Aligned S m (.give v))
    (hf : m.frames = .applied x :: (ns.map Frame.applied ++ outer)) :
    Received m x ns outer v := by
  have hs : m.step (.give v) = m.receive (.applied x) v := by
    rw [step, hf]
  constructor
  · intro hv
    rw [hs, receive]
    exact (if_pos hv).trans (finish_of_bare hf rfl v)
  · intro t l as f hv hx hd
    subst hx
    rw [hs, receive]
    refine (if_neg (by simp [hv])).trans ?_
    simp only [receivePlain, Frame.applied, hd]
  · intro hv hx
    refine ⟨?_, hm.decided hP ha (members_tame _)⟩
    rw [hs, receive]
    refine (if_neg (by simp [hv])).trans ?_
    -- The last case of the match is the one that `hx` leaves.
    simp only [receivePlain, Frame.applied]

/-- A host is asked as a table of rules, at every moment of an evaluation.

- A node that is followed outwards by accessors is evaluated before they are, and they are entered
  from outside.
- A name asks the host about itself and the accessors that are applied to it.
- A value that comes to an accessor either is the result that the accessor has been given, and then
  ends it, or is what this accessor and those outside of it are resolved on.
- Whatever rules an accessor is asked by, it is decided by the first one that is for its chain.
- A step that settles the accessors up to the one reached has its value come to the accessor outside
  of it, and this one is resolved on the value. -/
structure AsksByTable (host : List Host.Rule) (ts : List Node) : Prop where
  entered : ∀ {m b ns n}, Outwards b ns n → m.frames.length + ns.length ≤ maxFrames →
    ∃ stopNext, Course (m.frames.length + ns.length) ns.reverse m (.enter n)
      { m with frames := ns.map Frame.applied ++ m.frames, stopNext } (.enter b)
  name : ∀ {m f outer t s}, Attained host ts m .begin → m.frames = f :: outer →
    f.node = .name t s → ∃ ns rest, AtChain m f.node ns rest ∧
      m.step .begin = consult f.node host m ∧ Decided host m f.node ns rest
  value : ∀ {m f outer v}, Attained host ts m (.give v) → m.frames = f :: outer →
    f.phase = .accessed →
    (f.result = some v ∧ m.step (.give v) = (m.withFrames outer, .running (.give v))) ∨
      ∃ ns rest, AtChain m f.node ns rest ∧ Received m f.node ns rest v
  decided : ∀ {m φ x ns outer rules}, Attained host ts m φ → AtChain m x ns outer →
    (∀ r ∈ rules, r.Tame (nodesOf ts) ∧ r.Tabular) → Decided rules m x ns outer
  outside : ∀ {m φ h as ns k outer m₁ w n}, Attained host ts m φ → Barred outer →
    Settles h as ns k outer (m.step φ) m₁ w → ns[k]? = some n → ∃ m', m' =
        m₁.withFrames ((n :: ns.drop (k + 1)).map Frame.applied ++ outer) ∧
      Arrives h as (m.step φ) m' (.give w) ∧ AtChain m' n (ns.drop (k + 1)) outer ∧
      Received m' n (ns.drop (k + 1)) outer w

/-- **The rules of a host are a table.** -/
theorem asks_by_table (ht : ReadInTurn ts next)
    (hh : ∀ r ∈ host, r.Tame (nodesOf ts) ∧ r.Tabular) : AsksByTable host ts := by
  have hP := ht.program
  constructor
  · exact fun hn hroom => hn.course (Nat.le_refl _) hroom
  · intro m f outer t s ha hf hname
    have hm := ha.inOrder hP hh
    obtain ⟨y, cs, hc, -⟩ := hm.orderly.poised
    have hφ : f.phase = .ready := by
      rw [cores_of_frames hf] at hc
      exact congrArg Prod.snd (List.cons.inj hc).1
    have hneat : Neat m.frames := hm.neat
    rw [hf] at hneat
    obtain ⟨ns, rest, hat, -⟩ := hneat.atChain hf (by rw [hφ]; rfl) (by simp [hφ])
    refine ⟨ns, rest, hat, ?_, hat.decided hP hm.orderly.aligned hh⟩
    have hrules : m.rules = host := by
      rw [rules, hm.host]
      rfl
    rw [step, hf, ← hrules]
    simp only [begin, hname]
  · intro m f outer v ha hf hφ
    have hm := ha.inOrder hP hh
    obtain ⟨fs, gs, hfs, hres, hneat⟩ := hm.neat
    cases fs with
    | cons e fs =>
      obtain ⟨rfl, -⟩ := List.cons.inj (hf.symm.trans hfs)
      have hr := (hres f List.mem_cons_self).2
      refine .inl ⟨hr, ?_⟩
      rw [step, hf]
      exact (receive_of_result hφ hr).trans (finish_of_bare hf (by rw [hφ]; rfl) v)
    | nil =>
      rw [List.nil_append] at hfs
      rw [← hfs, hf] at hneat
      obtain ⟨ns, rest, hat, -⟩ := hneat.atChain hf (by rw [hφ]; rfl) (by simp [hφ])
      obtain ⟨ψ, -, hframes⟩ := hat.frames
      refine .inr ⟨ns, rest, hat, received hP hat hm.orderly.aligned ?_⟩
      obtain rfl : ψ = .accessed := by
        rw [hf] at hframes
        rw [← hφ, (List.cons.inj hframes).1]
      exact hframes
  · exact fun ha hat hr => hat.decided hP (ha.inOrder hP hh).orderly.aligned hr
  · intro m φ h as ns k outer m₁ w n ha hbar hs hn
    have hto := hs.arrives hn
    have hat : AtChain (m₁.withFrames ((n :: ns.drop (k + 1)).map Frame.applied ++ outer)) n
        (ns.drop (k + 1)) outer := ⟨⟨.accessed, rfl, rfl⟩, hbar⟩
    have haligned := ((ha.arrives hto).inOrder hP hh).orderly.aligned
    exact ⟨_, rfl, hto, hat, received hP hat haligned rfl⟩

/-- The rules of a host that offers `items` under a name: each by its index, and how many there are.
-/
def itemRules (name : String) (items : List Value) : List Host.Rule :=
  [ ⟨[name], .index, Host.answering (Host.itemOf items)⟩,
    (Host.onGet "length" (.ofNumber (Float.ofNat items.length))).under name ]

/-- An item is answered as it is, and any other index is an error. -/
theorem itemOf_cases (items as : List Value) :
    (∃ v ∈ items, Host.itemOf items as = .anew v) ∨
      Host.itemOf items as = .fail "Index out of range." := by
  fun_cases Host.itemOf items as with
  | case1 => exact .inr rfl
  | case2 i hi v hv => exact .inl ⟨v, List.mem_of_getElem? hv, rfl⟩
  | case3 => exact .inr rfl

theorem itemRules_tame {items : List Value} (hd : ∀ v ∈ items, v.isData = true) (name : String) :
    ∀ r ∈ itemRules name items, r.Tame S ∧ r.Tabular := by
  have hitem : ∀ as, (Host.itemOf items as).resolves = true ∧
      (Host.itemOf items as).Kept True fun f => ∃ t, S (.function t f.code) := by
    intro as
    rcases itemOf_cases items as with ⟨v, hv, h⟩ | h
    · exact h ▸ ⟨rfl, Value.kept_of_isData (hd v hv)⟩
    · exact h ▸ ⟨rfl, trivial⟩
  intro r hr
  rcases List.mem_pair.1 hr with rfl | rfl
  · have hres : ∀ q record, ((Host.answering (Host.itemOf items) q record).1).resolves = true :=
      fun q _ => (hitem q.arguments).1
    exact ⟨⟨hres, fun q _ _ => (hitem q.arguments).2⟩, trivial, hres⟩
  · exact ⟨⟨fun _ _ => rfl, fun _ _ _ => trivial⟩, trivial, fun _ _ => rfl⟩

/-- Two rules share a path, and chains are longer than both. -/
theorem asks_by_table_items :
    AsksByTable (itemRules "arr" [.string "one", .string "two"])
      [((Parser.new {}).parse "arr[arr.length - 1].length + arr[0].charAt(0)").1] :=
  asks_by_table (.read _ (.none 1) (.new {} 1) (Nat.le_refl 1)) (itemRules_tame (by decide) "arr")

end Steppable.Machine
