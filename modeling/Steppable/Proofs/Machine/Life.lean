import Mathlib.Logic.Relation
import Steppable.Proofs.Machine.Schedule
import Steppable.Proofs.Parser.Sources

/-!
# The life of a machine

A machine is made with a host, gets cells for global variables, is started on trees, stopped,
resumed, stepped and reset, in any order. A *moment* of this life is either between two calls or
inside one, where the machine is about to do something; `Turn` leads from one moment to the next.

Every call that returns is a sequence of turns (`later_start`, `later_resume`, `later_stepIn`), and
what every turn preserves holds all the time (`Later.preserves`).
-/

namespace Steppable.Machine

variable {m m' : Machine} {φ : Focus} {n : Node} {host : Host} {ts : List Node}

/-- The machine before the evaluation of a node. -/
def fresh (m : Machine) : Machine :=
  { m with result := none, lastFault := none, stopNext := false }

theorem start_eq (h : m.isPending = false) (n : Node) (steps : Nat) :
    m.start n steps = .ok (run steps m.fresh (.enter n)) := by
  simp [start, h, fresh]

/-- To give cells to global variables changes neither the frames nor the host. -/
theorem declareGlobals_frames (m : Machine) (ds : List Declaration) :
    (m.declareGlobals ds).frames = m.frames ∧ (m.declareGlobals ds).host = m.host := by
  unfold declareGlobals
  induction ds generalizing m with
  | nil => exact ⟨rfl, rfl⟩
  | cons d ds ih =>
    rw [List.foldl_cons]
    split
    · exact ih m
    · exact ih _

theorem rules_declareGlobals (m : Machine) (ds : List Declaration) :
    (m.declareGlobals ds).rules = m.rules := by
  unfold declareGlobals
  induction ds generalizing m with
  | nil => rfl
  | cons d ds ih =>
    rw [List.foldl_cons]
    split
    · exact ih m
    · exact ih _

/-- The end of an evaluation changes neither the cells nor the frames nor the settings. -/
theorem settle_frames (m : Machine) (w : Value) :
    (m.settle w).2.cells = m.cells ∧ (m.settle w).2.frames = m.frames ∧
      (m.settle w).2.settings = m.settings := by
  unfold settle
  cases w with
  | signal kind culprit v => cases kind <;> exact ⟨rfl, rfl, rfl⟩
  | _ => exact ⟨rfl, rfl, rfl⟩

theorem isPending_of_frames (h : m.frames = []) : m.isPending = false := by
  simp [isPending, h]

theorem frames_of_isPending (h : m.isPending = false) : m.frames = [] := by
  simpa [isPending] using h

/-! ## Moments -/

/-- A machine between two calls, or inside a call and what it is about to do. -/
abbrev Moment := Machine × Option Focus

/-- The next moment in the life of a machine that evaluates the trees `ts`. -/
inductive Turn (ts : List Node) : Moment → Moment → Prop
  | globals (m : Machine) (ds : List Declaration) : Turn ts (m, none) (m.declareGlobals ds, none)
  | breakpoints (m : Machine) (b : Breakpoints) :
      Turn ts (m, none) ({ m with breakpoints := b }, none)
  | start {m : Machine} {n : Node} : m.isPending = false → n ∈ ts →
      Turn ts (m, none) (m.fresh, some (.enter n))
  | resume {m : Machine} : m.isPending = true →
      Turn ts (m, none) (m.resumption.1, some m.resumption.2)
  | stepIn {m : Machine} : m.isPending = true →
      Turn ts (m, none) ({ m with stopNext := true }.resumption.1,
        some { m with stopNext := true }.resumption.2)
  | step {m m' : Machine} {φ φ' : Focus} : m.step φ = (m', .running φ') →
      Turn ts (m, some φ) (m', some φ')
  | stop {m m' : Machine} {φ : Focus} : m.step φ = (m', .suspended) →
      Turn ts (m, some φ) (m', none)
  | finish {m m' : Machine} {φ : Focus} {w : Value} : m.step φ = (m', .finished w) →
      Turn ts (m, some φ) ((m'.settle w).2, none)
  | reset (m : Machine) : Turn ts (m, none) (m.reset, none)

/-- The moment `y` is `x` or follows it. -/
def Later (ts : List Node) (x y : Moment) : Prop :=
  Relation.ReflTransGen (Turn ts) x y

/-- The moments in the life of a machine that was made with the given host. -/
def Reached (host : Host) (ts : List Node) (x : Moment) : Prop :=
  ∃ next, Later ts ({ host, next }, none) x

theorem reached_new (host : Host) (ts : List Node) (next : Nat) :
    Reached host ts ({ host, next }, none) :=
  ⟨next, .refl⟩

theorem Reached.turn {x y : Moment} (h : Reached host ts x) (hxy : Turn ts x y) :
    Reached host ts y := by
  obtain ⟨next, h⟩ := h
  exact ⟨next, h.tail hxy⟩

theorem Reached.later {x y : Moment} (h : Reached host ts x) (hxy : Later ts x y) :
    Reached host ts y := by
  obtain ⟨next, h⟩ := h
  exact ⟨next, h.trans hxy⟩

/-- **What every turn preserves holds for ever.** -/
theorem Later.preserves {I : Moment → Prop} (hI : ∀ x y, I x → Turn ts x y → I y) {x y : Moment}
    (h : Later ts x y) (hx : I x) : I y := by
  induction h with
  | refl => exact hx
  | tail _ ht ih => exact hI _ _ ih ht

/-! ## Calls -/

/-- A run that stops or ends is a sequence of turns. -/
theorem later_run {steps : Nat} {s : Status} (h : run steps m φ = (m', s)) (hs : s ≠ .exhausted) :
    Later ts (m, some φ) (m', none) := by
  induction steps generalizing m φ with
  | zero =>
    obtain ⟨-, rfl⟩ := Prod.mk.inj h
    exact (hs rfl).elim
  | succ steps ih =>
    rw [run] at h
    split at h
    · rename_i m₁ φ₁ hr
      exact (ih h).head (.step hr)
    · rename_i m₁ hr
      obtain ⟨rfl, -⟩ := Prod.mk.inj h
      exact .single (.stop hr)
    · rename_i m₁ w hr
      obtain ⟨rfl, -⟩ := Prod.mk.inj h
      exact .single (.finish hr)

theorem later_start {steps : Nat} {s : Status} (hn : n ∈ ts) (h : m.start n steps = .ok (m', s))
    (hs : s ≠ .exhausted) : Later ts (m, none) (m', none) := by
  cases hp : m.isPending with
  | true => simp [start, hp] at h
  | false =>
    rw [start_eq hp] at h
    exact (later_run (Except.ok.inj h) hs).head (.start hp hn)

theorem later_resume {steps : Nat} {s : Status} (h : m.resume steps = .ok (m', s))
    (hs : s ≠ .exhausted) : Later ts (m, none) (m', none) := by
  unfold Machine.resume at h
  split at h
  · rename_i hp
    exact (later_run (Except.ok.inj h) hs).head (.resume hp)
  · cases h

theorem later_stepIn {steps : Nat} {s : Status} (h : m.stepIn steps = .ok (m', s))
    (hs : s ≠ .exhausted) : Later ts (m, none) (m', none) := by
  unfold Machine.stepIn at h
  split at h
  · rename_i hp
    unfold Machine.resume at h
    split at h
    · exact (later_run (Except.ok.inj h) hs).head (.stepIn hp)
    · cases h
  · cases h

/-! ## Counted steps -/

/-- Goes on for so many steps, without a stop. -/
def advance : Nat → Machine → Focus → Option (Machine × Focus)
  | 0, m, φ => some (m, φ)
  | k + 1, m, φ =>
    match m.step φ with
    | (m₁, .running φ₁) => advance k m₁ φ₁
    | _ => none

theorem later_of_advance {k : Nat} {φ' : Focus} (h : advance k m φ = some (m', φ')) :
    Later ts (m, some φ) (m', some φ') := by
  induction k generalizing m φ with
  | zero =>
    cases h
    exact .refl
  | succ k ih =>
    rw [advance] at h
    split at h
    · rename_i m₁ φ₁ hs
      exact (ih h).head (.step hs)
    · cases h

/-- A new machine that is started on a node, as many steps later. -/
theorem reached_of_advance {k : Nat} {x : Machine × Focus}
    (h : advance k { host } (.enter n) = some x) : Reached host [n] (x.1, some x.2) :=
  (reached_new host _ 1).later
    ((later_of_advance h).head (.start rfl (List.mem_singleton_self n)))

/-! ## Invariants -/

/-- `J` holds between calls and `I` inside of them. -/
def Throughout (J : Machine → Prop) (I : Machine → Focus → Prop) : Moment → Prop
  | (m, none) => J m
  | (m, some φ) => I m φ

/-- The turns of a life preserve `J` between calls and `I` inside of them. -/
structure Perpetual (ts : List Node) (J : Machine → Prop) (I : Machine → Focus → Prop) : Prop where
  lasting : Lasting I
  globals : ∀ m ds, J m → J (m.declareGlobals ds)
  stops : ∀ m b stopNext, J m → J (m.withStops b stopNext)
  start : ∀ m n, J m → m.isPending = false → n ∈ ts → I m.fresh (.enter n)
  taken : ∀ m, J m → m.isPending = true → I m .begin
  stopped : ∀ m, I m .begin → J m
  ended : ∀ m w, I m (.give w) → m.frames = [] → J (m.settle w).2
  reset : ∀ m, J m → J m.reset

/-- **What is perpetual holds from one moment on for ever.** -/
theorem Perpetual.of_later {J : Machine → Prop} {I : Machine → Focus → Prop}
    (h : Perpetual ts J I) {x y : Moment} (hxy : Later ts x y) (hx : Throughout J I x) :
    Throughout J I y := by
  refine hxy.preserves (fun x y hx ht => ?_) hx
  cases ht with
  | globals m ds => exact h.globals m ds hx
  | breakpoints m b => exact h.stops m b m.stopNext hx
  | start hp hn => exact h.start _ _ hx hp hn
  | resume hp => exact h.lasting.resumption _ (h.taken _ hx hp)
  | @stepIn m hp => exact h.lasting.resumption _ (h.taken _ (h.stops m m.breakpoints true hx) hp)
  | @step m m' φ φ' hs =>
    have := h.lasting.step m φ φ' hx (by rw [hs]; rfl)
    rwa [hs] at this
  | @stop m m' φ hs =>
    have := h.lasting.step m φ .begin hx (by rw [hs]; rfl)
    rw [hs] at this
    exact h.stopped m' this
  | @finish m m' φ w hs =>
    obtain ⟨rfl, hf, rfl⟩ := step_finished hs
    exact h.ended m' w hx hf
  | reset m => exact h.reset m hx

theorem Perpetual.of_reached {J : Machine → Prop} {I : Machine → Focus → Prop}
    (h : Perpetual ts J I) (hnew : ∀ next, J { host, next }) {x : Moment} (hx : Reached host ts x) :
    Throughout J I x := by
  obtain ⟨next, hx⟩ := hx
  exact h.of_later hx (hnew next)

end Steppable.Machine
