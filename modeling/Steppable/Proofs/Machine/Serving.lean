import Steppable.Proofs.Host.Ledger
import Steppable.Proofs.Machine.Retaking

/-!
# The arguments that handlers are given

The events at an accessor are read off the turns of a machine: what it is about to enter, the value
that it is about to give, the calls of handlers that it adds, and whether the frame that asks has
ended without an argument (`events`). The frame of the accessor is told from others by the number of
frames below it. As long as it stands, through all stops, the ledger of the accessor allows what
happens (`serves_turn`): the handlers that are called when an evaluation is taken up find what has
been gathered before the stop, and only one frame at a time asks for arguments of it.

**Theorem (`arguments_served`).** The arguments of an accessor are evaluated in order, and none that
has a value or is being evaluated is entered; so each one is entered at most once, unless an
evaluation is given up. Each handler is called with as many of them as the first one has asked for,
or all if there are fewer.

A handler that comes later and asks for another number is not heard: `arity_of_first` is a call of
which the first handler asks for one argument and the second one for two.
-/

namespace Steppable.Machine

open Host (Event Ledger Serve Serves Served)

variable {m m₁ m' : Machine} {f e : Frame} {fs gs outer : List Frame} {n x a : Node} {h k : Nat}
  {r : Host.Rule} {rules : List Host.Rule} {host : Host} {v w : Value} {S : Node → Prop} {φ φ' : Focus}
  {ts as : List Node} {s s' s'' : Ledger} {es es' : List Event}

/-! ## Events -/

/-- The rules that the top frame asks about the accessor with `h` frames below it. -/
def rulesAbout (h : Nat) : List Frame → List Host.Rule
  | [] => []
  | f :: outer =>
    match f.phase with
    | .asking k rules => if outer.length = h + k then rules else []
    | _ => []

/-- An argument of the accessor with `h` frames below it is about to be entered. -/
def entering (h : Nat) : Moment → List Event
  | (m, some (.enter a)) =>
    match rulesAbout h m.frames with
    | r :: _ => (r.ending.arity?.map (.enters · a)).toList
    | [] => []
  | _ => []

/-- An argument of this accessor has got its value, and it is not abrupt. -/
def arrived (h : Nat) : Moment → List Event
  | (m, some (.give v)) =>
    match rulesAbout h m.frames with
    | _ :: _ => if (m.cells.deref v).isAbrupt then [] else [.arrives (m.cells.deref v)]
    | [] => []
  | _ => []

/-- Some frame of the stack asks about the accessor with `h` frames below it. -/
def AsksAbout (h : Nat) : List (Node × Phase) → Prop
  | [] => False
  | c :: outer =>
    (∃ k rules, c.2 = .asking k rules ∧ outer.length = h + k) ∨ AsksAbout h outer

instance decidableAsking (h below : Nat) :
    (φ : Phase) → Decidable (∃ k rules, φ = .asking k rules ∧ below = h + k)
  | .asking k rules => decidable_of_iff (below = h + k)
    ⟨fun hl => ⟨k, rules, rfl, hl⟩, fun ⟨_, _, hφ, hl⟩ => (Phase.asking.inj hφ).1 ▸ hl⟩
  | .ready | .leftOperand | .rightOperand _ | .operand | .target | .assigned _ | .condition
  | .branch | .body | .statement _ | .accessed | .activation | .argument .. | .running _ =>
    isFalse (by simp)

instance decidableAsksAbout (h : Nat) :
    (cs : List (Node × Phase)) → Decidable (AsksAbout h cs)
  | [] => isFalse id
  | c :: cs =>
    have := decidableAsksAbout h cs
    inferInstanceAs (Decidable ((∃ k rules, c.2 = .asking k rules ∧ cs.length = h + k) ∨
      AsksAbout h cs))

/-- The frame that asked about this accessor is gone, and no argument has arrived. -/
def abandoned (h : Nat) (x y : Moment) : List Event :=
  if AsksAbout h x.1.cores ∧ (arrived h x).isEmpty ∧ ¬ AsksAbout h y.1.cores then [.abandons]
  else []

/-- The call is about this accessor, and its handler asks for arguments. -/
def handing? (h : Nat) (c : Host.Call) : Option Event :=
  if c.request.chain.getLast?.any (·.position == h) then
    c.rule.ending.arity?.map (.hands · c.request.arguments)
  else none

/-- The calls from one machine to a later one that are about this accessor, the first one first. -/
def handed (h : Nat) (m m' : Machine) : List Event :=
  (m'.calls.take (m'.calls.length - m.calls.length)).reverse.filterMap (handing? h)

/-- What happens in a turn to the arguments of the accessor with `h` frames below it. -/
def events (h : Nat) (x y : Moment) : List Event :=
  arrived h x ++ abandoned h x y ++ handed h x.1 y.1 ++ entering h y

/-- The first call that is made is the last one in the list. -/
theorem filterMap_handing_concat (new : List Host.Call) (c : Host.Call) :
    (new ++ [c]).reverse.filterMap (handing? h) =
      (handing? h c).toList ++ new.reverse.filterMap (handing? h) := by
  cases hh : handing? h c <;> simp [hh]

/-- From the moment `x` on, up to the turn that leads to another moment, the frame with `h` frames
below it has stayed, and `es` is what has happened to its arguments. -/
inductive Account (ts : List Node) (h : Nat) (x : Moment) : List Event → Moment → Prop
  | start : Account ts h x [] x
  | turn {es : List Event} {y z : Moment} : Account ts h x es y → h < y.1.frames.length →
      Turn ts y z → Account ts h x (es ++ events h y z) z

theorem handed_eq {new : List Host.Call} (hc : m'.calls = new ++ m.calls) :
    handed h m m' = new.reverse.filterMap (handing? h) := by
  rw [handed, hc, List.length_append, Nat.add_sub_cancel, List.take_left]

/-! ## Accessors on the stack -/

/-- The frame with `h` frames below it. -/
def frameAt (fs : List Frame) (h : Nat) : Option Frame :=
  fs.reverse[h]?

theorem frameAt_of_getElem? (hf : fs[k]? = some f) : frameAt fs (fs.length - 1 - k) = some f := by
  have hk : k < fs.length := (List.getElem?_eq_some_iff.1 hf).1
  rw [frameAt, List.getElem?_reverse (by omega), ← hf]
  congr 1
  omega

theorem frameAt_append (fs : List Frame) (hf : frameAt gs h = some f) :
    frameAt (fs ++ gs) h = some f := by
  have hlt : h < gs.reverse.length := (List.getElem?_eq_some_iff.1 hf).1
  rw [frameAt, List.reverse_append, List.getElem?_append_left hlt]
  exact hf

/-- The claim of the frame with `h` frames below it. -/
def claimAt (h : Nat) (fs : List Frame) : Option (Node × Option Gathered) :=
  (frameAt fs h).map Frame.claim

theorem claimAt_of_claim (hc : gs.map Frame.claim = fs.map Frame.claim) (h : Nat) :
    claimAt h gs = claimAt h fs := by
  have heq : ∀ fs : List Frame, claimAt h fs = (fs.map Frame.claim).reverse[h]? := fun fs => by
    rw [← List.map_reverse, List.getElem?_map]
    rfl
  rw [heq, heq, hc]

theorem claimAt_append (hl : h < gs.length) (fs : List Frame) :
    claimAt h (fs ++ gs) = claimAt h gs := by
  rw [claimAt, claimAt, frameAt, frameAt, List.reverse_append,
    List.getElem?_append_left (by simpa using hl)]

theorem claimAt_cons (hl : h < outer.length) (f : Frame) :
    claimAt h (f :: outer) = claimAt h outer :=
  claimAt_append hl [f]

theorem claimAt_above (hlen : fs.length = gs.length) (hl : gs.length ≤ h) (es : List Frame) :
    claimAt h (es ++ fs) = claimAt h (es ++ gs) := by
  rw [claimAt, claimAt, frameAt, frameAt, List.reverse_append, List.reverse_append,
    List.getElem?_append_right (by rwa [List.length_reverse, hlen]),
    List.getElem?_append_right (by rwa [List.length_reverse]), List.length_reverse,
    List.length_reverse, hlen]

theorem asksAbout_append {cs ds : List (Node × Phase)} (ha : AsksAbout h ds) :
    AsksAbout h (cs ++ ds) := by
  induction cs with
  | nil => exact ha
  | cons c cs ih => exact .inr ih

/-- A frame that asks nothing concerns no other frame. -/
theorem asksAbout_cons {c : Node × Phase} {cs : List (Node × Phase)}
    (hc : ∀ k rules, c.2 ≠ .asking k rules) : AsksAbout h (c :: cs) ↔ AsksAbout h cs :=
  or_iff_right fun ⟨k, rules, hφ, _⟩ => hc k rules hφ

/-- A frame that asks about another accessor concerns no other frame. -/
theorem asksAbout_elsewhere {cs : List (Node × Phase)} (hl : cs.length ≠ h + k) :
    AsksAbout h ((x, .asking k rules) :: cs) ↔ AsksAbout h cs :=
  or_iff_right fun ⟨_, _, hφ, hl'⟩ => hl ((Phase.asking.inj hφ).1 ▸ hl')

theorem AsksAbout.lt {cs : List (Node × Phase)} (ha : AsksAbout h cs) : h < cs.length := by
  induction cs with
  | nil => exact ha.elim
  | cons c cs ih =>
    rw [List.length_cons]
    rcases ha with ⟨k, rules, -, hl⟩ | ha
    · omega
    · exact Nat.lt_succ_of_lt (ih ha)

/-- Between a frame that asks and the accessor that it asks about no other frame asks. -/
theorem not_asksAbout {cs : List (Node × Phase)} (hk : k ≤ (accessing cs).length)
    (hl : cs.length = h + k) : ¬ AsksAbout h cs := by
  induction cs generalizing k with
  | nil => exact id
  | cons c cs ih =>
    cases k with
    | zero => exact fun ha => Nat.lt_irrefl _ (hl ▸ ha.lt)
    | succ k =>
      by_cases hφ : c.2.isAccessed = true
      · have hk' : k ≤ (accessing cs).length := by
          simpa [accessing, List.takeWhile_cons, hφ] using hk
        have hl' : cs.length = h + k := by
          rw [List.length_cons] at hl
          omega
        exact fun ha => ih hk' hl' ((asksAbout_cons (by simp [Phase.isAccessed_iff.1 hφ])).1 ha)
      · simp [accessing, hφ] at hk

theorem asksAbout_of_sketch (hs : gs.map Frame.sketch = fs.map Frame.sketch)
    (ha : AsksAbout h (gs.map Frame.core)) : AsksAbout h (fs.map Frame.core) := by
  induction gs generalizing fs with
  | nil => exact ha.elim
  | cons g gs ih =>
    cases fs with
    | nil => cases hs
    | cons f fs =>
      obtain ⟨hgf, hgs⟩ := List.cons.inj hs
      rcases ha with ⟨k, rules, hφ, hl⟩ | ha
      · have hlen : gs.length = fs.length := by simpa using congrArg List.length hgs
        obtain ⟨rules', hf, -⟩ := Phase.asking_of_sketch
          ((Prod.mk.inj (Prod.mk.inj hgf).2).1.symm.trans (congrArg Phase.sketch hφ))
        refine .inl ⟨k, rules', hf, ?_⟩
        rwa [List.length_map, ← hlen, ← List.length_map (f := Frame.core)]
      · exact .inr (ih hgs ha)

/-- The accessor that a frame asks about has noted what is gathered for it. -/
theorem gathered_of_awaits (hq : Awaits fs x) (ha : AsksAbout h (fs.map Frame.core)) :
    ∃ f g, frameAt fs h = some f ∧ f.gathered = some g := by
  induction fs generalizing x with
  | nil => exact ha.elim
  | cons e fs ih =>
    rcases ha with ⟨k, rules, hφ, hl⟩ | ha
    · obtain ⟨f, hf, g, hg, -⟩ := (hq.1 k rules hφ).lacks
      refine ⟨f, g, ?_, hg⟩
      have hat := frameAt_of_getElem? hf
      rw [List.length_map] at hl
      rwa [List.length_cons, show fs.length + 1 - 1 - k = h by omega] at hat
    · obtain ⟨f, g, hf, hg⟩ := ih hq.2 ha
      exact ⟨f, g, frameAt_append [e] hf, hg⟩

/-- The ledger `s` is that of the accessor `n`, which has `h` frames below it. -/
structure Tally (h : Nat) (n : Node) (s : Ledger) (fs : List Frame) : Prop where
  claim : h < fs.length → claimAt h fs = some (n, s.gathered)
  pending : s.pending = true ↔ AsksAbout h (fs.map Frame.core)

/-! ## Turns in which nothing happens to the arguments -/

/-- Nothing happens to the arguments of the accessor with `h` frames below it. -/
structure Silent (h : Nat) (m : Machine) (s : Machine × Progress) : Prop where
  calls : s.1.calls = m.calls
  claim : h < s.1.frames.length → h < m.frames.length → claimAt h s.1.frames = claimAt h m.frames
  asks : AsksAbout h s.1.cores ↔ AsksAbout h m.cores
  entering : entering h (s.1, s.2.next?) = []

theorem entering_of_top {ψ : Phase} (hψ : ∀ k rules, ψ ≠ .asking k rules)
    (hf : m.frames = f :: outer) (hφ : f.phase = ψ) (φ? : Option Focus) :
    entering h (m, φ?) = [] := by
  have hnone : rulesAbout h m.frames = [] := by
    subst hφ
    rw [hf, rulesAbout]
    split
    · rename_i k rules hk
      exact (hψ k rules hk).elim
    · rfl
  unfold entering
  split
  · rename_i hm
    obtain ⟨rfl, -⟩ := Prod.mk.inj hm
    rw [hnone]
  · rfl

/-- A top frame that does not ask concerns no other frame. -/
theorem asksAbout_top (hf : m.frames = f :: outer) (hφ : ∀ k rules, f.phase ≠ .asking k rules) :
    AsksAbout h m.cores ↔ AsksAbout h (outer.map Frame.core) := by
  rw [cores_of_frames hf]
  exact asksAbout_cons hφ

theorem silent_running {φ : Focus} (hc : m'.calls = m.calls) (hf : m'.frames = m.frames)
    (hφ : ∀ a, φ ≠ .enter a) : Silent h m (m', .running φ) := by
  refine ⟨hc, fun _ _ => by rw [hf], by rw [cores, cores, hf], ?_⟩
  cases φ with
  | enter a => exact (hφ a rfl).elim
  | begin | give => rfl

theorem silent_finish (hf : m.frames = f :: outer) (hφ : ∀ k rules, f.phase ≠ .asking k rules)
    (v : Value) : Silent h m (m.finish v) := by
  have hasks := asksAbout_top (h := h) hf hφ
  simp only [finish, hf]
  refine ⟨rfl, fun hl _ => ?_, hasks.symm, rfl⟩
  rw [hf]
  exact (claimAt_cons hl f).symm

/-- What is alike in claims and calls is as good. -/
theorem Silent.of_alike {s : Machine × Progress} (hq : Silent h m₁ s)
    (hc : m₁.frames.map Frame.claim = m.frames.map Frame.claim)
    (hasks : AsksAbout h m₁.cores ↔ AsksAbout h m.cores) (hcalls : m₁.calls = m.calls) :
    Silent h m s := by
  have hlen : m₁.frames.length = m.frames.length := by simpa using congrArg List.length hc
  exact ⟨hq.calls.trans hcalls,
    fun hl hm => (hq.claim hl (hlen ▸ hm)).trans (claimAt_of_claim hc h),
    hq.asks.trans hasks, hq.entering⟩

theorem silent_await {ψ : Phase} (hf : m.frames = f :: outer)
    (hφ : ∀ k rules, f.phase ≠ .asking k rules) (hψ : ∀ k rules, ψ ≠ .asking k rules)
    (x : Node) : Silent h m (m.await ψ x) := by
  have hasks := asksAbout_top (h := h) hf hφ
  simp only [await, hf]
  have hclaim : (({ f with phase := ψ } : Frame) :: outer).map Frame.claim =
      m.frames.map Frame.claim := by
    rw [hf]
    rfl
  exact ⟨rfl, fun _ _ => claimAt_of_claim hclaim h,
    (asksAbout_top (f := { f with phase := ψ }) rfl hψ).trans hasks.symm,
    entering_of_top hψ rfl rfl _⟩

theorem silent_nextStatement (hf : m.frames = f :: outer)
    (hφ : ∀ k rules, f.phase ≠ .asking k rules) (last : Value) (rest : List Node) :
    Silent h m (m.nextStatement last rest) := by
  cases rest with
  | nil => exact silent_finish hf hφ last
  | cons s rest => exact silent_await hf hφ (by simp) s

theorem silent_nextArgument {callee : Closure} {done : List Value} {as : List Node}
    (hf : m.frames = f :: outer) (hφ : ∀ k rules, f.phase ≠ .asking k rules) :
    Silent h m (m.nextArgument callee done as) := by
  cases as with
  | nil =>
    have hq := silent_await (h := h) (m := { m with cells := activate m.cells callee done }) hf hφ
      (ψ := .running callee) (by simp) callee.code.body
    exact hq.of_alike rfl .rfl rfl
  | cons a as => exact silent_await hf hφ (by simp) a

theorem silent_push {s : Machine × Progress} (hc : s.1.calls = m.calls) {ψ : Phase}
    (hψ : ∀ k rules, ψ ≠ .asking k rules)
    (hf : s.1.frames = { node := x, phase := ψ } :: gs)
    (hclaim : gs.map Frame.claim = m.frames.map Frame.claim)
    (hasks : AsksAbout h (gs.map Frame.core) ↔ AsksAbout h m.cores) : Silent h m s := by
  have hlen : gs.length = m.frames.length := by simpa using congrArg List.length hclaim
  refine ⟨hc, fun _ hm => ?_, (asksAbout_top hf hψ).trans hasks, entering_of_top hψ hf rfl _⟩
  rw [hf, claimAt_cons (hlen ▸ hm), claimAt_of_claim hclaim]

theorem silent_enter (x : Node) : Silent h m (m.enter x) := by
  have he := enter_entering m x
  generalize m.enter x = s at he
  cases he with
  | push =>
    split <;> exact silent_push (ψ := .ready) rfl (by simp) rfl rfl .rfl
  | _ => exact silent_running rfl rfl (by simp)

theorem silent_call {callee : Closure} (hf : m.frames = f :: outer)
    (hφ : ∀ k rules, f.phase ≠ .asking k rules) : Silent h m (m.call x callee) := by
  have hcores := asksAbout_top (h := h) hf hφ
  unfold call
  rw [hf]
  dsimp only
  have hasks : AsksAbout h ((({ f with phase := .activation } : Frame) :: outer).map Frame.core) ↔
      AsksAbout h m.cores :=
    (asksAbout_cons (c := (f.node, .activation)) (by simp)).trans hcores.symm
  have hclaim : (({ f with phase := .activation } : Frame) :: outer).map Frame.claim =
      m.frames.map Frame.claim := by
    rw [hf]
    rfl
  cases x.arguments with
  | nil => exact silent_push (ψ := .running callee) rfl (by simp) rfl hclaim hasks
  | cons a as => exact silent_push (ψ := .argument callee [] as) rfl (by simp) rfl hclaim hasks

/-! ## The accessor that a host is asked about -/

theorem claimAt_eq (hl : fs.length = h + k + 1) : claimAt h fs = fs[k]?.map Frame.claim := by
  rw [claimAt, frameAt, List.getElem?_reverse (by omega), show fs.length - 1 - h = k by omega]

/-- A change in the frame at `k` concerns no other accessor. -/
theorem claimAt_elsewhere (hlen : gs.length = fs.length) (hgs : ∀ i, k ≠ i → gs[i]? = fs[i]?)
    (hl : fs.length ≠ h + k + 1) : claimAt h gs = claimAt h fs := by
  by_cases hlt : h < fs.length
  · rw [claimAt, claimAt, frameAt, frameAt, List.getElem?_reverse (hlen ▸ hlt),
      List.getElem?_reverse hlt, hlen, hgs _ (by omega)]
  · have hnone : ∀ es : List Frame, es.length = fs.length → claimAt h es = none := fun es he => by
      rw [claimAt, frameAt, List.getElem?_eq_none (by simp; omega)]
      rfl
    rw [hnone _ hlen, hnone _ rfl]

theorem calls_prepare (m : Machine) (r : Host.Rule) (k : Nat) :
    (m.prepare r k).2.2.calls = m.calls := by
  obtain ⟨fs, hfs, -⟩ := frames_prepare m r k
  rw [hfs]

/-- The note for a rule is kept with the accessor that it has reached. -/
theorem prepare_elsewhere (r : Host.Rule) (hl : m.frames.length ≠ h + k + 1) :
    claimAt h (m.prepare r k).2.2.frames = claimAt h m.frames := by
  cases harity : r.ending.arity? with
  | none => simp [prepare, harity]
  | some arity =>
    cases he : m.frames[k]? with
    | none => simp [prepare, harity, gather, he]
    | some e =>
      rw [prepare_noted harity he]
      dsimp only
      exact claimAt_elsewhere (List.length_set ..) (fun i hi => List.getElem?_set_ne hi) hl

theorem prepare_about {arity : Nat} (harity : r.ending.arity? = some arity)
    (hl : m.frames.length = h + k + 1) (hc : claimAt h m.frames = some (n, s.gathered)) :
    ∃ g m₁, s.noted n.arguments arity = g ∧
      m.prepare r k = (g.values, (n.arguments.take g.wanted)[g.values.length]?, m₁) ∧
      claimAt h m₁.frames = some (n, some g) := by
  rw [claimAt_eq hl] at hc
  obtain ⟨e, he, hclaim⟩ := Option.map_eq_some_iff.1 hc
  obtain ⟨rfl, hg⟩ := Prod.mk.inj hclaim
  have hfor : e.gatheredFor arity = s.noted e.node.arguments arity := by
    rw [Frame.gatheredFor, hg]
    rfl
  refine ⟨_, _, rfl, hfor ▸ prepare_noted harity he, ?_⟩
  dsimp only
  rw [claimAt_eq (k := k) (by simpa using hl),
    List.getElem?_set_self (List.getElem?_eq_some_iff.1 he).1]
  rfl

/-- The last link that the handler of a rule sees is the accessor reached. -/
theorem getLast?_links (hk : k < m.links.length) :
    ∃ n, (m.links.take (k + 1)).getLast? = some ⟨m.frames.length - 1 - k, n⟩ := by
  have hlink : ∃ n, m.links[k]? = some ⟨m.frames.length - 1 - k, n⟩ := by
    rw [links, List.length_mapIdx] at hk
    exact ⟨_, by rw [links, List.getElem?_mapIdx, List.getElem?_eq_getElem hk]; rfl⟩
  obtain ⟨n, hn⟩ := hlink
  refine ⟨n, ?_⟩
  rw [List.getLast?_eq_getElem?, List.length_take, Nat.min_eq_left hk]
  simpa using hn

theorem handing_of_reach {vs : List Value} (hk : k < m.links.length) :
    handing? h ⟨r, ⟨vs, m.links.take (k + 1)⟩⟩ =
      if m.frames.length = h + k + 1 then r.ending.arity?.map (.hands · vs) else none := by
  obtain ⟨l, hlast⟩ := getLast?_links hk
  have hlt : k < m.frames.length := by
    rw [links, List.length_mapIdx] at hk
    exact Nat.lt_of_lt_of_le hk (length_accessorChain_le _)
  have hiff : (m.frames.length - 1 - k == h) = decide (m.frames.length = h + k + 1) := by
    rw [Bool.eq_iff_iff, beq_iff_eq, decide_eq_true_iff]
    omega
  simp only [handing?, hlast, Option.any_some, hiff, decide_eq_true_eq]

/-! ## Steps and ledgers -/

/-- What a step that ends so does to the arguments of the accessor `n` with `h` frames below it
leads from the ledger `s` to its ledger afterwards. -/
def Books (h : Nat) (n : Node) (s : Ledger) (m : Machine) (x : Machine × Progress) : Prop :=
  ∃ new s', x.1.calls = new ++ m.calls ∧
    Serves n.arguments s (new.reverse.filterMap (handing? h) ++ entering h (x.1, x.2.next?)) s' ∧
    Tally h n s' x.1.frames

variable {y : Machine × Progress}

theorem Silent.books (hq : Silent h m y) (hl : h < m.frames.length) (ht : Tally h n s m.frames) :
    Books h n s m y :=
  ⟨[], s, hq.calls, by simpa [hq.entering] using .nil,
    fun hl' => (hq.claim hl' hl).trans (ht.claim hl), ht.pending.trans hq.asks.symm⟩

/-- A call of a handler, and what comes after it. -/
theorem Books.after {c : Host.Call} (hc : m₁.calls = c :: m.calls)
    (hs : Serves n.arguments s (handing? h c).toList s') (hb : Books h n s' m₁ y) :
    Books h n s m y := by
  obtain ⟨new, s'', hnew, hs', ht⟩ := hb
  refine ⟨new ++ [c], s'', by rw [hnew, hc]; simp, ?_, ht⟩
  rw [filterMap_handing_concat, List.append_assoc]
  exact hs.append hs'

theorem books_finish (hf : m.frames = f :: outer) (hc : claimAt h m.frames = some (n, s.gathered))
    (hp : s.pending = true ↔ AsksAbout h (outer.map Frame.core)) (v : Value) :
    Books h n s m (m.finish v) := by
  simp only [finish, hf]
  refine ⟨[], s, rfl, .nil, fun hl => ?_, hp⟩
  rw [← hc, hf]
  exact (claimAt_cons hl f).symm

theorem books_finishResolved (hf : m.frames = f :: outer)
    (hc : claimAt h m.frames = some (n, s.gathered))
    (hp : s.pending = true ↔ AsksAbout h (outer.map Frame.core)) (v : Value) :
    Books h n s m (m.finishResolved v) := by
  simp only [finishResolved, hf]
  exact books_finish hf hc hp _

/-- A handler that gets what has been prepared for it is given what the ledger says. -/
theorem serves_of_prepare {vs : List Value} (hk : k < m.links.length)
    (hc : claimAt h m.frames = some (n, s.gathered)) (hp : m.prepare r k = (vs, none, m₁)) :
    ∃ s', claimAt h m₁.frames = some (n, s'.gathered) ∧ s'.pending = s.pending ∧
      Serves n.arguments s (handing? h ⟨r, ⟨vs, m₁.links.take (k + 1)⟩⟩).toList s' := by
  have hlike := alike_prepare m r k
  have hlinks : m₁.links.length = m.links.length := by
    have := congrArg List.length hlike.links_node
    rw [hp] at this
    simpa using this
  have hlen : m₁.frames.length = m.frames.length := by
    have := hlike.length_frames
    rwa [hp] at this
  rw [handing_of_reach (hlinks.symm ▸ hk), hlen]
  by_cases hl : m.frames.length = h + k + 1
  · rw [if_pos hl]
    cases harity : r.ending.arity? with
    | none =>
      obtain ⟨-, rfl⟩ : [] = vs ∧ m = m₁ := by simpa [prepare, harity] using hp
      exact ⟨s, hc, rfl, .nil⟩
    | some arity =>
      obtain ⟨g, m₂, hg, hp₂, hc₂⟩ := prepare_about harity hl hc
      obtain ⟨rfl, hp₂⟩ := Prod.mk.inj (hp.symm.trans hp₂)
      obtain ⟨hnone, rfl⟩ := Prod.mk.inj hp₂
      exact ⟨{ s with gathered := some g }, hc₂, rfl, (Serve.hands hg hnone.symm).serves⟩
  · rw [if_neg hl]
    have helse := prepare_elsewhere r hl
    rw [hp] at helse
    exact ⟨s, helse.trans hc, rfl, .nil⟩

/-- So it is where frames are still to be put back above: none of these is meant. -/
theorem serves_of_prepare_below {vs : List Value} (gs : List Frame) (hk : k < m.links.length)
    (hc : claimAt h (gs ++ m.frames) = some (n, s.gathered)) (hp : m.prepare r k = (vs, none, m₁)) :
    ∃ s', claimAt h (gs ++ m₁.frames) = some (n, s'.gathered) ∧ s'.pending = s.pending ∧
      Serves n.arguments s (handing? h ⟨r, ⟨vs, m₁.links.take (k + 1)⟩⟩).toList s' := by
  have hlike := alike_prepare m r k
  rw [hp] at hlike
  have hlen : m₁.frames.length = m.frames.length := hlike.length_frames
  by_cases hl : h < m.frames.length
  · rw [claimAt_append hl] at hc
    obtain ⟨s', hc', hrest⟩ := serves_of_prepare hk hc hp
    exact ⟨s', (claimAt_append (hlen ▸ hl) gs).trans hc', hrest⟩
  · have hlt : k < m.frames.length := by
      rw [links, List.length_mapIdx] at hk
      exact Nat.lt_of_lt_of_le hk (length_accessorChain_le _)
    have hlinks : m₁.links.length = m.links.length := by
      simpa using congrArg List.length hlike.links_node
    rw [handing_of_reach (hlinks.symm ▸ hk), if_neg (by omega)]
    refine ⟨s, (claimAt_above ?_ ?_ gs).trans hc, rfl, .nil⟩
    · exact hlen
    · exact Nat.le_of_not_lt hl

/-- A frame that waits for an argument asks for the one that the ledger says. -/
theorem books_ask {vs : List Value} {a : Node} (hf : m₁.frames = f :: outer)
    (hc : claimAt h m.frames = some (n, s.gathered)) (hp : m.prepare r k = (vs, some a, m₁))
    (hle : k ≤ (accessing (outer.map Frame.core)).length)
    (hpend : s.pending = true ↔ AsksAbout h (outer.map Frame.core)) :
    Books h n s m (m₁.await (.asking k (r :: rules)) a) := by
  have hlen := (alike_prepare m r k).length_frames
  have hcalls := calls_prepare m r k
  rw [hp] at hlen hcalls
  have hlength : outer.length + 1 = m.frames.length := by
    rw [← hlen, hf]
    rfl
  have hclaim : claimAt h ({ f with phase := .asking k (r :: rules) } :: outer) =
      claimAt h m₁.frames := by
    rw [hf]
    exact claimAt_of_claim (by rfl) h
  simp only [await, hf]
  by_cases hl : m.frames.length = h + k + 1
  · cases harity : r.ending.arity? with
    | none => simp [prepare, harity] at hp
    | some arity =>
      obtain ⟨g, m₂, hg, hp₂, hc₂⟩ := prepare_about harity hl hc
      obtain ⟨rfl, hp₂⟩ := Prod.mk.inj (hp.symm.trans hp₂)
      obtain ⟨hsome, rfl⟩ := Prod.mk.inj hp₂
      have hfree : s.pending = false :=
        Bool.eq_false_iff.2 fun h => not_asksAbout hle (by rw [List.length_map]; omega)
          (hpend.1 h)
      refine ⟨[], ⟨some g, true⟩, hcalls, ?_, fun _ => hclaim.trans hc₂, fun _ => ?_, fun _ => rfl⟩
      swap
      · exact .inl ⟨k, _, rfl, by rw [List.length_map]; omega⟩
      have hentering : entering h
          ({ m₁ with frames := { f with phase := .asking k (r :: rules) } :: outer },
            some (.enter a)) = [.enters arity a] := by
        simp only [entering, rulesAbout, harity, if_pos (show outer.length = h + k by omega)]
        rfl
      simpa [Progress.next?, hentering] using (Serve.enters hg hsome.symm hfree).serves
  · have helse := prepare_elsewhere r hl
    rw [hp] at helse
    have hlo : (outer.map Frame.core).length ≠ h + k := by
      rw [List.length_map]
      omega
    refine ⟨[], s, hcalls, ?_, fun _ => (hclaim.trans helse).trans hc,
      hpend.trans (asksAbout_elsewhere hlo).symm⟩
    have hentering : entering h
        ({ m₁ with frames := { f with phase := .asking k (r :: rules) } :: outer },
          some (.enter a)) = [] := by
      simp only [entering, rulesAbout, if_neg (show outer.length ≠ h + k by omega)]
    simpa [Progress.next?, hentering] using .nil

/-- **A host is asked**, and each handler is given what the ledger says. -/
theorem books_consult (hP : Program S) (hS : OfProgram S m.cores) (hf : m.frames = f :: outer)
    (he : Expects (outer.map Frame.core) f.node)
    (hc : claimAt h m.frames = some (n, s.gathered))
    (hp : s.pending = true ↔ AsksAbout h (outer.map Frame.core)) (x : Node) :
    Books h n s m (consult x rules m) := by
  induction rules generalizing m f outer s with
  | nil => exact books_finish (m := (m.fault x _).2) hf hc hp _
  | cons r rules ih =>
    cases hk : r.reach? (m.links.map (·.node)) with
    | none =>
      rw [consult_skip hk]
      exact ih hS hf he hc hp
    | some k =>
      have hle := le_accessing_of_reach hP hS hf he hk
      have hlike₁ := alike_prepare m r k
      rcases hprep : m.prepare r k with ⟨vs, missing, m₁⟩
      rw [hprep] at hlike₁
      obtain ⟨f₁, outer₁, hf₁, hcore₁, ho₁⟩ :=
        List.map_eq_cons_iff.1 (hlike₁.frames.trans (congrArg _ hf))
      cases missing with
      | some a =>
        rw [consult_ask hk hprep]
        exact books_ask hf₁ hc hprep (ho₁ ▸ hle) (ho₁ ▸ hp)
      | none =>
        obtain ⟨s', hc₁, hps, hserves⟩ :=
          serves_of_prepare (by simpa using Host.reach?_lt hk) hc hprep
        have hcalls := calls_prepare m r k
        have hlike₂ := alike_answer m₁ r k vs
        have hc₂ := map_answer (p := Frame.claim) (fun _ _ => rfl) m₁ r k vs
        have hcalls₂ := calls_answer m₁ r k vs
        rcases hans : m₁.answer r k vs with ⟨w, m₂⟩
        rw [hans] at hlike₂ hc₂ hcalls₂
        rw [hprep] at hcalls
        rw [hcalls] at hcalls₂
        obtain ⟨f₂, outer₂, hf₂, hcore₂, ho₂⟩ :=
          List.map_eq_cons_iff.1 (hlike₂.frames.trans (congrArg _ hf₁))
        have hclaim : claimAt h m₂.frames = some (n, s'.gathered) :=
          (claimAt_of_claim hc₂ h).trans hc₁
        have hpend : s'.pending = true ↔ AsksAbout h (outer₂.map Frame.core) := by
          rw [ho₂, ho₁, hps]
          exact hp
        refine Books.after hcalls₂ hserves ?_
        cases w with
        | some w =>
          rw [consult_answer hk hprep hans]
          exact books_finishResolved hf₂ hclaim hpend w
        | none =>
          rw [consult_pass hk hprep hans]
          have hnode : f₂.node = f.node := congrArg Prod.fst (hcore₂.trans hcore₁)
          exact ih ((hlike₁.trans hlike₂).cores_eq ▸ hS) hf₂ (by rw [ho₂, ho₁, hnode]; exact he)
            hclaim hpend

/-! ## Arguments that arrive -/

theorem arrived_of_top (hφ : ∀ k rules, f.phase ≠ .asking k rules) (hf : m.frames = f :: outer)
    (v : Value) : arrived h (m, some (.give v)) = [] := by
  have hnone : rulesAbout h m.frames = [] := by
    rw [hf, rulesAbout]
    split
    · rename_i k rules hk
      exact (hφ k rules hk).elim
    · rfl
  simp only [arrived, hnone]

theorem arrived_of_asking (hf : m.frames = f :: outer) (hφ : f.phase = .asking k (r :: rules))
    (v : Value) : arrived h (m, some (.give v)) =
      if outer.length = h + k ∧ (m.cells.deref v).isAbrupt = false then
        [.arrives (m.cells.deref v)] else [] := by
  simp only [arrived, hf, rulesAbout, hφ]
  by_cases hl : outer.length = h + k
  · cases ha : (m.cells.deref v).isAbrupt <;> simp [hl]
  · simp [hl]

/-- A step before which an argument may have arrived, or have been given up. -/
def BooksFrom (h : Nat) (n : Node) (s : Ledger) (m : Machine) (φ : Focus)
    (y : Machine × Progress) : Prop :=
  ∃ s₁, Serves n.arguments s
      (arrived h (m, some φ) ++ abandoned h (m, some φ) (y.1, y.2.next?)) s₁ ∧
    Books h n s₁ m y

/-- Calls of handlers, and an argument that is entered, leave an evaluation under way. -/
theorem Serves.pending (hs : Serves as s es s') (hes : ∀ e ∈ es, e.isOpen true = true)
    (hp : s.pending = true) : s'.pending = true := by
  induction hs with
  | nil => exact hp
  | snoc _ he ih =>
    have hp := ih fun e hm => hes e (List.mem_append_left _ hm)
    have hopen := hes _ List.mem_concat_self
    cases he with
    | enters => rfl
    | arrives | abandons => cases hopen
    | hands => exact hp

theorem isOpen_of_entering {z : Moment} {e : Event} (he : e ∈ entering h z) :
    e.isOpen true = true := by
  unfold entering at he
  split at he
  · split at he
    · obtain ⟨arity, -, rfl⟩ := Option.map_eq_some_iff.1 (Option.mem_toList.1 he)
      rfl
    · cases he
  · cases he

theorem isOpen_of_handing {c : Host.Call} {e : Event} (he : handing? h c = some e) :
    e.isOpen true = true := by
  unfold handing? at he
  split at he
  · obtain ⟨arity, -, rfl⟩ := Option.map_eq_some_iff.1 he
    rfl
  · cases he

theorem Books.asksAbout (hb : Books h n s m y) (hp : s.pending = true) : AsksAbout h y.1.cores := by
  obtain ⟨new, s', -, hs, ht⟩ := hb
  refine ht.pending.1 (Serves.pending hs (fun e he => ?_) hp)
  rcases List.mem_append.1 he with he | he
  · obtain ⟨c, -, hc⟩ := List.mem_filterMap.1 he
    exact isOpen_of_handing hc
  · exact isOpen_of_entering he

theorem abandoned_of_asksAbout {x z : Moment} (ha : AsksAbout h x.1.cores → AsksAbout h z.1.cores) :
    abandoned h x z = [] :=
  if_neg fun hx => hx.2.2 (ha hx.1)

theorem Books.from (hb : Books h n s m y) (hp : s.pending = true ↔ AsksAbout h m.cores)
    (ha : arrived h (m, some φ) = []) : BooksFrom h n s m φ y := by
  refine ⟨s, ?_, hb⟩
  rw [ha, abandoned_of_asksAbout fun hx => hb.asksAbout (hp.2 hx)]
  exact .nil

/-- A frame that asks about this accessor is the only one. -/
theorem asksAbout_alone (hf : m.frames = f :: outer) (hφ : f.phase = .asking k rules)
    (hle : k ≤ (accessing (outer.map Frame.core)).length) (hl : outer.length = h + k) :
    AsksAbout h m.cores ∧ ¬ AsksAbout h (outer.map Frame.core) := by
  rw [← List.length_map (f := Frame.core)] at hl
  rw [cores_of_frames hf]
  exact ⟨.inl ⟨k, rules, hφ, hl⟩, not_asksAbout hle hl⟩

theorem asksAbout_other (hf : m.frames = f :: outer) (hφ : f.phase = .asking k rules)
    (hl : outer.length ≠ h + k) :
    AsksAbout h m.cores ↔ AsksAbout h (outer.map Frame.core) := by
  rw [cores_of_frames hf, hφ]
  exact asksAbout_elsewhere (by rwa [List.length_map])

/-- An argument whose value is an error or a signal is given up. -/
theorem books_abrupt (hf : m.frames = f :: outer) (hφ : f.phase = .asking k (r :: rules))
    (hle : k ≤ (accessing (outer.map Frame.core)).length)
    (hc : claimAt h m.frames = some (n, s.gathered)) (hp : s.pending = true ↔ AsksAbout h m.cores)
    (habrupt : (m.cells.deref v).isAbrupt = true) :
    BooksFrom h n s m (.give v)
      ((m.setResult k (m.cells.deref v)).finishResolved (m.cells.deref v)) := by
  have hclaim : claimAt h (m.setResult k (m.cells.deref v)).frames = claimAt h m.frames :=
    claimAt_of_claim (map_setResult (fun _ _ => rfl) _ k _) h
  obtain ⟨f₁, outer₁, hf₁, -, ho₁⟩ := List.map_eq_cons_iff.1
    ((map_core_setResult (m.cells.deref v) k m.frames).trans (congrArg _ hf))
  have hb : ∀ s₁ : Ledger, s₁.gathered = s.gathered →
      (s₁.pending = true ↔ AsksAbout h (outer.map Frame.core)) →
      Books h n s₁ m ((m.setResult k (m.cells.deref v)).finishResolved (m.cells.deref v)) :=
    fun s₁ hg hp => books_finishResolved (m := m.setResult k (m.cells.deref v)) hf₁
      (hclaim.trans (hg ▸ hc)) (ho₁ ▸ hp) _
  have harrived : arrived h (m, some (.give v)) = [] := by
    rw [arrived_of_asking hf hφ, if_neg (by simp [habrupt])]
  by_cases hl : outer.length = h + k
  · obtain ⟨hasks, hnone⟩ := asksAbout_alone hf hφ hle hl
    have hleft : ((m.setResult k (m.cells.deref v)).finishResolved (m.cells.deref v)).1.cores =
        outer.map Frame.core := by
      have hframes : (m.setResult k (m.cells.deref v)).frames = f₁ :: outer₁ := hf₁
      simp only [finishResolved, hframes]
      rw [cores_finish (cores_of_frames hframes), ho₁]
    refine ⟨{ s with pending := false }, ?_, hb _ rfl (by simpa using hnone)⟩
    rw [harrived, abandoned, if_pos ⟨hasks, by rw [harrived]; rfl, hleft ▸ hnone⟩]
    exact (Serve.abandons (hp.2 hasks)).serves
  · exact (hb s rfl (hp.trans (asksAbout_other hf hφ hl))).from hp harrived

/-- **An argument arrives**, and is added to what the ledger says. -/
theorem books_plain (hP : Program S) (hS : OfProgram S m.cores) (hf : m.frames = f :: outer)
    (hφ : f.phase = .asking k (r :: rules)) (he : Expects (outer.map Frame.core) f.node)
    (hle : k ≤ (accessing (outer.map Frame.core)).length) (hek : m.frames[k]? = some e)
    (hlacks : e.Lacks a) (hc : claimAt h m.frames = some (n, s.gathered))
    (hp : s.pending = true ↔ AsksAbout h m.cores) (hplain : (m.cells.deref v).isAbrupt = false) :
    BooksFrom h n s m (.give v)
      (consult f.node (r :: rules) (m.addArgument k (m.cells.deref v))) := by
  obtain ⟨g, hg, hsome⟩ := hlacks
  have hlike := alike_addArgument m k (m.cells.deref v)
  obtain ⟨f₁, outer₁, hf₁, hcore₁, ho₁⟩ :=
    List.map_eq_cons_iff.1 (hlike.frames.trans (congrArg _ hf))
  have hnode : f₁.node = f.node := congrArg Prod.fst hcore₁
  have hconsult : ∀ s₁ : Ledger,
      claimAt h (m.addArgument k (m.cells.deref v)).frames = some (n, s₁.gathered) →
      (s₁.pending = true ↔ AsksAbout h (outer.map Frame.core)) →
      Books h n s₁ m (consult f.node (r :: rules) (m.addArgument k (m.cells.deref v))) :=
    fun s₁ hc hp => books_consult (m := m.addArgument k (m.cells.deref v)) hP
      (hlike.cores_eq ▸ hS) hf₁ (by rw [ho₁, hnode]; exact he) hc (ho₁ ▸ hp) _
  have hlen : m.frames.length = outer.length + 1 := by
    rw [hf]
    rfl
  by_cases hl : outer.length = h + k
  · -- The argument is one of this accessor, and nobody else asks for it.
    obtain ⟨hasks, hnone⟩ := asksAbout_alone hf hφ hle hl
    rw [claimAt_eq (k := k) (by omega), hek] at hc
    obtain ⟨rfl, hgs⟩ := Prod.mk.inj (Option.some.inj hc)
    obtain ⟨gathered, pending⟩ := s
    obtain rfl : pending = true := hp.2 hasks
    obtain rfl : gathered = some g := hgs.symm.trans hg
    have harrived : arrived h (m, some (.give v)) = [.arrives (m.cells.deref v)] := by
      rw [arrived_of_asking hf hφ, if_pos ⟨hl, hplain⟩]
    refine ⟨⟨some { g with values := g.values ++ [m.cells.deref v] }, false⟩, ?_,
      hconsult _ ?_ (by simpa using hnone)⟩
    · rw [abandoned, if_neg (by simp [harrived]), harrived]
      exact (Serve.arrives hsome).serves
    · have hlen' : (m.addArgument k (m.cells.deref v)).frames.length = h + k + 1 := by
        rw [hlike.length_frames, hlen, hl]
      rw [claimAt_eq hlen']
      simp [addArgument, hek, Frame.claim, hg]
  · refine (hconsult s ?_ (hp.trans (asksAbout_other hf hφ hl))).from hp ?_
    · rw [← hc]
      exact claimAt_elsewhere (List.length_modify ..) (fun i hi => List.getElem?_modify_ne _ _ hi)
        (by omega)
    · rw [arrived_of_asking hf hφ, if_neg (by simp [hl])]

theorem books_receiveArgument (hP : Program S) (hS : OfProgram S m.cores)
    (hf : m.frames = f :: outer) (hφ : f.phase = .asking k rules) (he : Expects m.cores x)
    (hq : Awaits m.frames a) (hc : claimAt h m.frames = some (n, s.gathered))
    (hp : s.pending = true ↔ AsksAbout h m.cores) (v : Value) :
    BooksFrom h n s m (.give v) (m.receiveArgument f.node k rules v) := by
  rw [cores_of_frames hf, hφ] at he
  rw [hf] at hq
  have hasked := hq.1 k rules hφ
  obtain ⟨r, rest, rfl⟩ := List.exists_cons_of_ne_nil hasked.nonempty
  obtain ⟨e, hek, hlacks⟩ := hasked.lacks
  unfold receiveArgument
  dsimp only
  split
  · rename_i habrupt
    exact books_abrupt hf hφ he.le_accessing hc hp habrupt
  · rename_i hplain
    exact books_plain hP hS hf hφ he.tail he.le_accessing (hf ▸ hek) hlacks hc hp
      (by simpa using hplain)

/-! ## A step -/

theorem books_begin (hP : Program S) (hS : OfProgram S m.cores) (hf : m.frames = f :: outer)
    (hφ : f.phase = .ready) (he : Expects (outer.map Frame.core) f.node)
    (hl : h < m.frames.length) (ht : Tally h n s m.frames) : Books h n s m (m.begin f.node) := by
  have hne : ∀ k rules, f.phase ≠ .asking k rules := by simp [hφ]
  have hb := begin_beginning m f.node
  generalize m.begin f.node = y at hb
  cases hb with
  | await hw => exact (silent_await hf hne (Waits.ne_asking hw) _).books hl ht
  | ask =>
    exact books_consult hP hS hf he (ht.claim hl) (ht.pending.trans (asksAbout_top hf hne)) _
  | @block t ss locals g outer' hn hf' =>
    rw [hf] at hf'
    cases hf'
    have hclaim : ({ f with phase := .statement ss } :: outer).map Frame.claim =
        m.frames.map Frame.claim := by
      rw [hf]
      rfl
    have hasks : AsksAbout h (({ f with phase := .statement ss } :: outer).map Frame.core) ↔
        AsksAbout h m.cores :=
      (asksAbout_cons (c := (f.node, .statement ss)) (by simp)).trans (asksAbout_top hf hne).symm
    have hq := silent_nextStatement (h := h) (m := { m with
      frames := { f with phase := .statement ss } :: outer
      cells := m.cells.registerAll locals }) rfl (by simp) .undefined ss
    exact (hq.of_alike hclaim hasks rfl).books hl ht
  | jump | finish => exact (silent_finish hf hne _).books hl ht

theorem books_receive (hP : Program S) (hS : OfProgram S m.cores) (hf : m.frames = f :: outer)
    (he : Expects m.cores x) (hq : Awaits m.frames a) (hl : h < m.frames.length)
    (ht : Tally h n s m.frames) (v : Value) : BooksFrom h n s m (.give v) (m.receive f v) := by
  by_cases hφ : ∃ k rules, f.phase = .asking k rules
  · obtain ⟨k, rules, hφ⟩ := hφ
    have hr : m.receive f v = m.receiveArgument f.node k rules v := by
      rw [receive, hφ]
    exact hr ▸ books_receiveArgument hP hS hf hφ he hq (ht.claim hl) ht.pending v
  · have hne : ∀ k rules, f.phase ≠ .asking k rules := fun k rules hk => hφ ⟨k, rules, hk⟩
    refine Books.from ?_ ht.pending (arrived_of_top hne hf v)
    have hre := receive_reaction m f v
    generalize m.receive f v = y at hre
    cases hre with
    | pass | abrupt | yield | result | unwrap => exact (silent_finish hf hne _).books hl ht
    | fault culprit message =>
      exact (silent_finish (m := (m.fault culprit message).2) hf hne _).books hl ht
    | @write cell x w =>
      exact (silent_finish (m := { m with cells := m.cells.set cell x }) hf hne _).books hl ht
    | await _ hw => exact (silent_await hf hne (Waits.ne_asking hw) _).books hl ht
    | statement => exact (silent_nextStatement hf hne _ _).books hl ht
    | call => exact (silent_call hf hne).books hl ht
    | members =>
      rw [cores_of_frames hf] at he
      exact books_consult hP hS hf he.tail (ht.claim hl)
        (ht.pending.trans (asksAbout_top hf hne)) _
    | argument => exact (silent_nextArgument hf hne).books hl ht
    | ask hk => exact (hne _ _ hk).elim

/-- **A step does to the arguments of an accessor what its ledger allows.** -/
theorem books_step (hP : Program S) (ha : Attending S m φ) (hl : h < m.frames.length)
    (ht : Tally h n s m.frames) : BooksFrom h n s m φ (m.step φ) := by
  have hS := ha.aligned.ofProgram
  obtain ⟨f, outer, hf⟩ := List.exists_cons_of_length_pos (Nat.zero_lt_of_lt hl)
  cases φ with
  | enter x => exact ((silent_enter x).books hl ht).from ht.pending rfl
  | begin =>
    obtain ⟨x, cs, hc, he⟩ := ha.aligned.poised
    obtain ⟨hcore, ho⟩ := List.cons.inj ((cores_of_frames hf).symm.trans hc)
    obtain ⟨rfl, hφ⟩ := Prod.mk.inj hcore
    rw [step, hf]
    exact (books_begin hP hS hf hφ (ho ▸ he) hl ht).from ht.pending rfl
  | give v =>
    obtain ⟨x, he⟩ := ha.aligned.poised
    obtain ⟨a, hq⟩ := ha.attends
    rw [step, hf]
    exact books_receive hP hS hf he hq hl ht v

/-! ## A turn -/

theorem Books.serves (hb : Books h n s m y) :
    ∃ s', Serves n.arguments s (handed h m y.1 ++ entering h (y.1, y.2.next?)) s' ∧
      Tally h n s' y.1.frames := by
  obtain ⟨new, s', hnew, hs, ht⟩ := hb
  exact ⟨s', handed_eq hnew ▸ hs, ht⟩

/-- What is left of a stack that may have asked about the accessor. -/
theorem serves_abandoned {x z : Moment} (as : List Node) (hx : arrived h x = [])
    (hp : s.pending = true ↔ AsksAbout h x.1.cores)
    (hz : AsksAbout h z.1.cores → AsksAbout h x.1.cores) :
    ∃ s₁ : Ledger, s₁.gathered = s.gathered ∧ (s₁.pending = true ↔ AsksAbout h z.1.cores) ∧
      Serves as s (abandoned h x z) s₁ := by
  by_cases hgone : AsksAbout h x.1.cores ∧ ¬ AsksAbout h z.1.cores
  · refine ⟨{ s with pending := false }, rfl, by simpa using hgone.2, ?_⟩
    rw [abandoned, if_pos ⟨hgone.1, by rw [hx]; rfl, hgone.2⟩]
    exact (Serve.abandons (hp.2 hgone.1)).serves
  · have hstays : AsksAbout h x.1.cores → AsksAbout h z.1.cores := fun ha =>
      Decidable.not_not.1 fun hz => hgone ⟨ha, hz⟩
    refine ⟨s, rfl, hp.trans ⟨hstays, hz⟩, ?_⟩
    rw [abandoned_of_asksAbout hstays]
    exact .nil

/-- Handlers have been called from `m` to `m'` as the ledger `s` of the accessor `n` says. It is now
that of the accessor on the stack `fs`. -/
def Hands (h : Nat) (n : Node) (s : Ledger) (m m' : Machine) (fs : List Frame) : Prop :=
  ∃ new s', m'.calls = new ++ m.calls ∧
    Serves n.arguments s (new.reverse.filterMap (handing? h)) s' ∧ s'.pending = s.pending ∧
    (h < fs.length → claimAt h fs = some (n, s'.gathered))

theorem Hands.refl (hc : m'.calls = m.calls)
    (hn : h < fs.length → claimAt h fs = some (n, s.gathered)) : Hands h n s m m' fs :=
  ⟨[], s, hc, .nil, rfl, hn⟩

theorem Hands.after {c : Host.Call} (hc : m₁.calls = c :: m.calls)
    (hs : Serves n.arguments s (handing? h c).toList s') (hp : s'.pending = s.pending)
    (hh : Hands h n s' m₁ m' fs) : Hands h n s m m' fs := by
  obtain ⟨new, s'', hnew, hs', hp', ht⟩ := hh
  refine ⟨new ++ [c], s'', by rw [hnew, hc]; simp, ?_, hp'.trans hp, ht⟩
  rw [filterMap_handing_concat]
  exact hs.append hs'

theorem Hands.trans (hh : Hands h n s m m₁ gs) (hl : h < gs.length)
    (hh' : ∀ s', claimAt h gs = some (n, s'.gathered) → Hands h n s' m₁ m' fs) :
    Hands h n s m m' fs := by
  obtain ⟨new, s', hnew, hs, hp, hc⟩ := hh
  obtain ⟨new', s'', hnew', hs', hp', hc'⟩ := hh' s' (hc hl)
  refine ⟨new' ++ new, s'', by rw [hnew', hnew, List.append_assoc], ?_, hp'.trans hp, hc'⟩
  rw [List.reverse_append, List.filterMap_append]
  exact hs.append hs'

/-- **Rules that need no evaluation** are asked as the ledger says, also of an accessor that is not
back on the stack yet: then they do not concern it. -/
theorem hands_rounds (gs : List Frame) (hr : Rounds m m')
    (hc : claimAt h (gs ++ m.frames) = some (n, s.gathered)) :
    Hands h n s m m' (gs ++ m'.frames) := by
  induction hr generalizing s with
  | still hcalls hclaims =>
    refine .refl hcalls fun _ => (claimAt_of_claim ?_ h).trans hc
    rw [List.map_append, List.map_append, hclaims]
  | @asked m m₁ m' r k as hk hp _ ih =>
    obtain ⟨s', hc', hpend, hs⟩ := serves_of_prepare_below gs (by simpa using Host.reach?_lt hk) hc hp
    have hcalls := calls_prepare m r k
    rw [hp] at hcalls
    refine .after ((calls_answer m₁ r k as).trans (congrArg _ hcalls)) hs hpend (ih ?_)
    refine (claimAt_of_claim ?_ h).trans hc'
    rw [List.map_append, List.map_append, map_answer (p := Frame.claim) (fun _ _ => rfl)]

/-- The handlers that are called while frames are put back are given what the ledger says. -/
theorem hands_takeUpAll (inner : List Frame) (m : Machine)
    (hq : Awaits (inner.reverse ++ m.frames) x)
    (hc : claimAt h (inner.reverse ++ m.frames) = some (n, s.gathered)) :
    Hands h n s m (takeUpAll inner m).1 (takeUpAll inner m).1.frames := by
  induction inner generalizing m s with
  | nil => exact .refl rfl fun _ => hc
  | cons f inner ih =>
    rw [List.reverse_cons, List.append_assoc, List.singleton_append] at hq hc
    obtain ⟨m₁, ha, hall⟩ := takeUpAll_again f inner m hq
    have hh := hands_rounds inner.reverse ha.rounds hc
    have hs : (inner.reverse ++ m₁.frames).map Frame.sketch =
        (inner.reverse ++ f :: m.frames).map Frame.sketch := by
      rw [List.map_append, List.map_append, ha.frames]
    have hl : h < (inner.reverse ++ m₁.frames).length := by
      have hlt := (List.getElem?_eq_some_iff.1 (Option.map_eq_some_iff.1 hc).choose_spec.1).1
      rwa [List.length_reverse, ← List.length_map (f := Frame.sketch), ← hs, List.length_map] at hlt
    refine hh.trans hl fun s' hc' => ?_
    rcases hall with ⟨v, cells, hall⟩ | hall
    · obtain ⟨hfr, -, hcalls⟩ := finish_eq m₁ v
      rw [hall]
      refine .refl hcalls fun hl' => ?_
      dsimp only at hl' ⊢
      rw [hfr] at hl' ⊢
      cases hf₁ : m₁.frames with
      | nil => simp [hf₁] at hl'
      | cons f₁ outer₁ =>
        rw [hf₁] at hl' hc'
        change h < outer₁.length at hl'
        rw [claimAt_append (Nat.lt_succ_of_lt hl'), claimAt_cons hl'] at hc'
        exact hc'
    · rw [hall]
      exact ih m₁ (hq.of_sketch hs) hc'

/-- **An evaluation is taken up**: the handlers that are called meanwhile are given what the ledger
says. -/
theorem serves_resumption (hq : Awaits m.frames a) (hl : h < m.frames.length)
    (ht : Tally h n s m.frames) :
    ∃ s', Serves n.arguments s (events h (m, none) (m.resumption.1, some m.resumption.2)) s' ∧
      Tally h n s' m.resumption.1.frames := by
  obtain ⟨-, gone, left, hsplit, hleft, hend⟩ := takenUp_resumption hq
  have hentering : entering h (m.resumption.1, some m.resumption.2) = [] := by
    rcases hend with ⟨-, h⟩ | ⟨-, v, h⟩ <;> rw [h] <;> rfl
  obtain ⟨s₁, hg, hp, hs⟩ := serves_abandoned (x := (m, none))
    (z := (m.resumption.1, some m.resumption.2)) n.arguments rfl ht.pending fun ha => by
      rw [cores, hsplit, List.map_append]
      exact asksAbout_append (asksAbout_of_sketch hleft ha)
  obtain ⟨new, s', hnew, hs', hp', hc⟩ := hands_takeUpAll (h := h) (n := n) (s := s₁) (x := a)
    m.frames.reverse { m with frames := [] } (by simpa using hq) (by simpa [hg] using ht.claim hl)
  have hcalls : m.resumption.1.calls = new ++ m.calls := hnew
  refine ⟨s', ?_, hc, by rw [hp']; exact hp⟩
  rw [events, hentering, List.append_nil, handed_eq hcalls]
  exact hs.append hs'

theorem calls_declareGlobals (m : Machine) (ds : List Declaration) :
    (m.declareGlobals ds).calls = m.calls := by
  unfold declareGlobals
  induction ds generalizing m with
  | nil => rfl
  | cons d ds ih =>
    rw [List.foldl_cons]
    split
    · exact ih m
    · exact ih _

/-- **A turn does to the arguments of an accessor what its ledger allows.** -/
theorem serves_turn {y z : Moment} (hP : Program S)
    (hy : Throughout (Attentive S) (Attending S) y) (hl : h < y.1.frames.length)
    (ht : Tally h n s y.1.frames) (hyz : Turn ts y z) :
    ∃ s', Serves n.arguments s (events h y z) s' ∧ Tally h n s' z.1.frames := by
  have hpos : 0 < y.1.frames.length := Nat.zero_lt_of_lt hl
  have hstep : ∀ {m φ}, y = (m, some φ) → ∃ s', Serves n.arguments s
      (events h (m, some φ) ((m.step φ).1, (m.step φ).2.next?)) s' ∧
      Tally h n s' (m.step φ).1.frames := by
    rintro m φ rfl
    obtain ⟨s₁, hs₁, hb⟩ := books_step hP hy hl ht
    obtain ⟨s', hs', ht'⟩ := hb.serves
    exact ⟨s', by rw [events, List.append_assoc _ _ (entering h _)]; exact hs₁.append hs', ht'⟩
  have hnothing : ∀ {m m' : Machine}, m'.calls = m.calls → m'.frames = m.frames →
      events h (m, none) (m', none) = [] := fun {m m'} hc hf => by
    rw [events, handed_eq (show m'.calls = [] ++ m.calls from hc),
      abandoned_of_asksAbout (by rw [cores, cores, hf]; exact id)]
    rfl
  cases hyz with
  | globals m ds =>
    have hf := (declareGlobals_frames m ds).1
    rw [hnothing (calls_declareGlobals m ds) hf, hf]
    exact ⟨s, .nil, ht⟩
  | breakpoints m b => exact ⟨s, hnothing (m := m) rfl rfl ▸ .nil, ht⟩
  | start hp => simp [frames_of_isPending hp] at hpos
  | @resume m hp =>
    obtain ⟨x, hq⟩ := (hy.waiting hp).2
    exact serves_resumption hq hl ht
  | @stepIn m hp =>
    obtain ⟨x, hq⟩ := (hy.waiting hp).2
    exact serves_resumption (m := { m with stopNext := true }) hq hl ht
  | step hs | stop hs =>
    have := hstep rfl
    rwa [hs] at this
  | finish hs =>
    obtain ⟨rfl, hf, rfl⟩ := step_finished hs
    simp [hf] at hpos
  | reset m =>
    have hf : m.reset.frames = [] := rfl
    obtain ⟨s₁, -, hp, hs⟩ := serves_abandoned (x := (m, none))
      (z := (m.reset, none)) n.arguments rfl ht.pending False.elim
    refine ⟨s₁, ?_, fun hl => by simp [hf] at hl, hp⟩
    rw [events, handed_eq (show m.reset.calls = [] ++ m.calls from rfl)]
    simpa [arrived, entering] using hs

theorem Account.later {x y : Moment} (ha : Account ts h x es y) : Later ts x y := by
  induction ha with
  | start => exact .refl
  | turn _ _ ht ih => exact ih.tail ht

theorem Account.serves {x y : Moment} (hP : Program (nodesOf ts))
    (hx : Throughout (Attentive (nodesOf ts)) (Attending (nodesOf ts)) x)
    (ht : Tally h n s x.1.frames) (ha : Account ts h x es y) :
    ∃ s', Serves n.arguments s es s' ∧ Tally h n s' y.1.frames := by
  induction ha with
  | start => exact ⟨s, .nil, ht⟩
  | turn ha hl hyz ih =>
    obtain ⟨s', hs, ht'⟩ := ih
    obtain ⟨s'', hs', ht''⟩ :=
      serves_turn hP ((attending_perpetual hP).of_later ha.later hx) hl ht' hyz
    exact ⟨s'', hs.append hs', ht''⟩

/-! ## The handlers of an accessor -/

theorem exists_awaits {x : Moment} (hx : Throughout (Attentive S) (Attending S) x)
    (hf : frameAt x.1.frames h = some f) : ∃ n, Awaits x.1.frames n := by
  have hne : x.1.frames ≠ [] := by
    intro hnil
    rw [hnil] at hf
    cases hf
  obtain ⟨φ, ha⟩ := exists_attending hx hne
  cases φ with
  | enter n => exact ⟨n, ha.attends⟩
  | begin | give => exact ha.attends

/-- **The handlers of an accessor share its arguments**, at any moment from its frame on. -/
theorem arguments_served {x y : Moment} (hP : Program (nodesOf ts))
    (hh : ∀ r ∈ host, r.Faithful True fun f => ∃ t, nodesOf ts (.function t f.code))
    (hx : Reached host ts x) (hf : frameAt x.1.frames h = some f) (hg : f.gathered = none)
    (ha : Account ts h x es y) :
    Served f.node.arguments es ∧ (Event.abandons ∉ es →
      Host.entries es <+: f.node.arguments.take (Host.wanted f.node.arguments es)) := by
  have hthrough := (attending_perpetual hP).of_reached (attentive_new hh) hx
  obtain ⟨n, hq⟩ := exists_awaits hthrough hf
  have hnone : ¬ AsksAbout h (x.1.frames.map Frame.core) := fun hask => by
    obtain ⟨e, g, he, hge⟩ := gathered_of_awaits hq hask
    obtain rfl := Option.some.inj (hf.symm.trans he)
    rw [hg] at hge
    cases hge
  have htally : Tally h f.node {} x.1.frames := by
    refine ⟨fun _ => ?_, by simpa using hnone⟩
    rw [claimAt, hf, Option.map_some, Frame.claim, hg]
  obtain ⟨s, hs, -⟩ := ha.serves hP hthrough htally
  exact ⟨hs.tells.served, hs.tells.served.once⟩

/-- A call of `f` with three arguments. -/
def offered : Node :=
  .call ⟨9, {}⟩ (.name ⟨1, {}⟩ "f")
    [.constant ⟨2, {}⟩ .null, .constant ⟨3, {}⟩ .undefined, .constant ⟨4, {}⟩ .null]

/-- A host that asks for so many arguments of `f` in turn, and declines each time. -/
def declining (arities : List Nat) : List Host.Rule :=
  arities.map fun arity => ⟨["f"], .call arity, Host.answering fun _ => .decline⟩

theorem faithful_declining (arities : List Nat) (ref : Prop) (k : Closure → Prop) :
    ∀ r ∈ declining arities, r.Faithful ref k := by
  intro r hr
  obtain ⟨arity, -, rfl⟩ := List.mem_map.1 hr
  exact fun _ _ _ => trivial

theorem program_offered : Program (nodesOf [offered]) := by
  refine program_of_apart (fun t ht => ?_) (fun t ht u hu htu => ?_)
  · obtain rfl := List.mem_singleton.1 ht
    refine Node.wellTagged_of_leaves (fun c hc => ?_) (by decide) (fun c hc t v hv => ?_)
    · simp only [offered, Node.children, List.mem_cons, List.not_mem_nil, or_false] at hc
      rcases hc with rfl | rfl | rfl | rfl <;> decide
    · simp only [offered, Node.children, List.mem_cons, List.not_mem_nil, or_false] at hc
      rcases hc with rfl | rfl | rfl | rfl | rfl <;> cases hv <;> rfl
  · exact (htu ((List.mem_singleton.1 ht).trans (List.mem_singleton.1 hu).symm)).elim

/-- The account of so many steps, if the frame stays. -/
def recount (h : Nat) : Nat → Machine → Focus → Option (List Event × Machine × Focus)
  | 0, m, φ => some ([], m, φ)
  | k + 1, m, φ =>
    match recount h k m φ with
    | some (es, m₁, φ₁) =>
      match m₁.step φ₁ with
      | (m₂, .running φ₂) =>
        if h < m₁.frames.length then
          some (es ++ events h (m₁, some φ₁) (m₂, some φ₂), m₂, φ₂)
        else none
      | _ => none
    | none => none

theorem account_of_recount {j : Nat} {z : List Event × Machine × Focus}
    (hz : recount h j m φ = some z) : Account ts h (m, some φ) z.1 (z.2.1, some z.2.2) := by
  induction j generalizing z with
  | zero =>
    obtain rfl := Option.some.inj hz
    exact .start
  | succ j ih =>
    rw [recount] at hz
    split at hz
    · rename_i es m₁ φ₁ hj
      split at hz
      · rename_i m₂ φ₂ hs
        split at hz
        · rename_i hl
          obtain rfl := Option.some.inj hz
          exact (ih hj).turn hl (.step hs)
        · cases hz
      · cases hz
    · cases hz

/-- The evaluation of an argument is given up. -/
def isAbandonment : Event → Bool
  | .abandons => true
  | _ => false

/-- What the calls so far asked for, how many arguments they were given, and how many there are. -/
def shares (m : Machine) : List (Option Nat × Nat × Option Nat) :=
  m.calls.map fun c => (c.rule.ending.arity?, c.request.arguments.length,
    c.request.chain.getLast?.map (·.node.arguments.length))

/-- The first handler asks for two arguments, and the second one for one of them. -/
theorem arguments_served_offered :
    ∃ x es y, Reached (declining [2, 1]) [offered] x ∧ Account [offered] 0 x es y ∧
      shares y.1 = [(some 1, 2, some 3), (some 2, 2, some 3)] ∧
      (Host.entries es).length = 2 ∧ Served offered.arguments es ∧
      Host.entries es <+: offered.arguments.take (Host.wanted offered.arguments es) := by
  have hrun : (recount 0 7 { host := declining [2, 1], frames := [{ node := offered }] }
      .begin).map (fun z => (shares z.2.1, (Host.entries z.1).length, z.1.any isAbandonment)) =
      some ([(some 1, 2, some 3), (some 2, 2, some 3)], 2, false) := by decide +kernel
  obtain ⟨⟨es, y, φ⟩, hy, hrun⟩ := Option.map_eq_some_iff.1 hrun
  obtain ⟨hshares, hrun⟩ := Prod.mk.inj hrun
  obtain ⟨hentries, hany⟩ := Prod.mk.inj hrun
  have hno : Event.abandons ∉ es := fun hm =>
    Bool.false_ne_true (hany.symm.trans (List.any_eq_true.2 ⟨_, hm, rfl⟩))
  have hx : Reached (declining [2, 1]) [offered]
      ({ host := declining [2, 1], frames := [{ node := offered }] }, some .begin) :=
    reached_of_advance (k := 1) (x := (_, .begin)) rfl
  have hserved := arguments_served program_offered
    (Host.forall_always (faithful_declining _ _ _)) hx rfl rfl (account_of_recount hy)
  exact ⟨_, es, (y, some φ), hx, account_of_recount hy, hshares, hentries, hserved.1,
    hserved.2 hno⟩

/-- **A handler is not always given as many arguments as it asks for**, although there are enough.
-/
theorem arity_of_first :
    ¬ ∀ (host : List Host.Rule) (ts : List Node) (x : Moment), Program (nodesOf ts) →
      Reached host ts x → ∀ c ∈ x.1.calls, ∀ k ∈ c.rule.ending.arity?,
        ∀ l ∈ c.request.chain.getLast?,
          c.request.arguments.length = min k l.node.arguments.length := by
  intro h
  have hrun : (advance 6 { host := declining [1, 2] } (.enter offered)).map (shares ·.1) =
      some [(some 2, 1, some 3), (some 1, 1, some 3)] := by decide +kernel
  obtain ⟨y, hy, hshares⟩ := Option.map_eq_some_iff.1 hrun
  have hmem : (some 2, 1, some 3) ∈ shares y.1 := by rw [hshares]; exact List.mem_cons_self
  obtain ⟨c, hc, hshare⟩ := List.mem_map.1 hmem
  obtain ⟨harity, hrest⟩ := Prod.mk.inj hshare
  obtain ⟨hlen, hlast⟩ := Prod.mk.inj hrest
  obtain ⟨l, hl, hargs⟩ := Option.map_eq_some_iff.1 hlast
  have := h _ _ (y.1, some y.2) program_offered (reached_of_advance hy) c hc 2 harity l hl
  rw [hlen, hargs] at this
  exact absurd this (by decide)

end Steppable.Machine
