import Steppable.Proofs.Machine.Abruptness
import Steppable.Proofs.Machine.Aliasing

/-!
# Errors stop an evaluation

**Theorem (`errors_fail_stop`).** In an evaluation with the standard host at most one error is made,
wherever the evaluation is stopped and however it is resumed. Once it is made nothing is evaluated
any more: all that follows ends frames, one after the other, and the result is this error.

- **Before.** As long as no error has been made, none is on its way (`Accounted`), because a step
  gives only errors that it has got or made.
- **After.** A frame that gets an error ends with it, whatever it was waiting for (`step_error`).
-/

namespace Steppable.Machine

variable {m m₁ m' : Machine} {φ : Focus} {f : Frame} {fs : List Frame} {e : Fault} {n : Node}
  {S : Node → Prop} {v : Value} {x y : Moment}

/-! ## The way out -/

theorem leave_of_core {g : Frame} (h : g.core = f.core) (s : Cells) : s.leave g = s.leave f := by
  have hown : g.ownVariables = f.ownVariables := by
    unfold Frame.ownVariables
    rw [show g.phase = f.phase from congrArg Prod.snd h,
      show g.node = f.node from congrArg Prod.fst h]
  rw [Cells.leave, Cells.leave, hown]

/-- **A frame that gets an error ends with it.** -/
theorem step_error (hf : m.frames = f :: fs) (hr : Results m.frames (.give (.error e))) :
    ∃ gs, gs.map Frame.core = fs.map Frame.core ∧
      m.step (.give (.error e)) =
        ({ m with frames := gs, cells := m.cells.leave f }, .running (.give (.error e))) := by
  have hfinish : m.finish (.error e) =
      ({ m with frames := fs, cells := m.cells.leave f }, .running (.give (.error e))) := by
    simp [finish, hf, give]
  have hs : m.step (.give (.error e)) = m.receive f (.error e) := by simp [step, hf]
  rw [hs]
  unfold receive
  split
  · exact ⟨fs, rfl, hfinish⟩
  · exact ⟨fs, rfl, hfinish⟩
  · -- The error is also noted in the accessor that asked for the argument.
    rename_i k rules hφ
    have hnone := results_none_of_top hr hf (.inr (by simp [hφ]))
    have hres : m.receiveArgument f.node k rules (.error e) =
        (m.setResult k (.error e)).finish (.error e) :=
      finishResolved_setResult (k := k) hnone rfl
    have hcore : (m.setResult k (.error e)).frames.map Frame.core = m.frames.map Frame.core :=
      map_core_setResult (.error e) k m.frames
    rw [hres]
    cases hg : (m.setResult k (.error e)).frames with
    | nil => simp [hg, hf] at hcore
    | cons g gs =>
      rw [hg, hf, List.map_cons, List.map_cons, List.cons.injEq] at hcore
      refine ⟨gs, hcore.2, ?_⟩
      rw [finish, hg, ← leave_of_core hcore.1]
      rfl
  · exact ⟨fs, rfl, hfinish⟩
  · exact ⟨fs, rfl, hfinish⟩
  · exact ⟨fs, rfl, hfinish⟩

/-! ## Errors are accounted for -/

/-- No error has been made and none is on its way, or the first one is. -/
def Accounted (m : Machine) (φ : Focus) : Prop :=
  match m.lastFault with
  | none => ∀ e, φ ≠ .give (.error e)
  | some e => e.previous = none ∧ φ = .give (.error e)

theorem Accounted.of_some (h : Accounted m φ) (he : m.lastFault = some e) :
    e.previous = none ∧ φ = .give (.error e) := by
  rw [Accounted, he] at h
  exact h

theorem Accounted.of_give (h : Accounted m (.give (.error e))) : m.lastFault = some e := by
  cases hl : m.lastFault with
  | none =>
    rw [Accounted, hl] at h
    exact (h e rfl).elim
  | some e' =>
    obtain ⟨-, he⟩ := h.of_some hl
    cases he
    rfl

/-- The machine is orderly, stores neither errors nor signals, and accounts for its errors. -/
structure Strict (S : Node → Prop) (m : Machine) (φ : Focus) : Prop where
  orderly : Orderly S m φ
  sober : Sober m
  sane : Sane φ
  accounted : Accounted m φ

theorem Strict.lastFault_of_begin (h : Strict S m .begin) : m.lastFault = none := by
  cases hl : m.lastFault with
  | none => rfl
  | some e =>
    obtain ⟨-, he⟩ := h.accounted.of_some hl
    cases he

theorem Strict.accounted_step (hP : Program S) (h : Strict S m φ) {φ' : Focus}
    (hn : (m.step φ).2.next? = some φ') : Accounted (m.step φ).1 φ' := by
  cases hl : m.lastFault with
  | some e =>
    obtain ⟨he, rfl⟩ := h.accounted.of_some hl
    cases hf : m.frames with
    | nil => simp [step, hf, Progress.next?] at hn
    | cons f fs =>
      obtain ⟨gs, -, hs⟩ := step_error hf h.orderly.calm.results
      rw [hs] at hn ⊢
      obtain rfl := Option.some.inj hn
      rw [Accounted]
      dsimp only
      rw [hl]
      exact ⟨he, rfl⟩
  | none =>
    rcases (soberly_step hP h.orderly h.sober h.sane).outcome with ⟨e, he, hl', hs⟩ | ⟨hl', hs⟩
    · rw [hs] at hn
      obtain rfl := Option.some.inj hn
      rw [Accounted, hl']
      exact ⟨he.trans hl, rfl⟩
    · rw [Accounted, hl', hl]
      rintro e rfl
      -- An error that is given without having been made was given before.
      have hgive : (m.step φ).2 = .running (.give (.error e)) := by
        cases hp : (m.step φ).2 with
        | running ψ =>
          rw [hp] at hn
          exact congrArg _ (Option.some.inj hn)
        | suspended => simp [hp, Progress.next?] at hn
        | finished w => simp [hp, Progress.next?] at hn
      have := h.accounted
      rw [Accounted, hl] at this
      exact this e (hs e hgive)

/-- **Errors are accounted for at every moment of an evaluation.** -/
theorem Strict.lasting (hP : Program S) : Lasting (Strict S) where
  step m φ φ' h hn :=
    have hs := soberly_step hP h.orderly h.sober h.sane
    ⟨(Orderly.lasting hP).step m φ φ' h.orderly hn, hs.sober, hs.sane φ' hn,
      h.accounted_step hP hn⟩
  resumption m h := by
    rw [resumption_eq_of_calm h.orderly.calm]
    exact h
  stops m φ b stopNext h := ⟨(Orderly.lasting hP).stops m φ b stopNext h.orderly,
    ⟨h.sober.cells, h.sober.phases, h.sober.host⟩, h.sane, h.accounted⟩

/-- Between two calls the machine stores neither errors nor signals, and an evaluation that is
stopped has made no error. -/
structure Unfailing (S : Node → Prop) (m : Machine) : Prop where
  settled : Settled S m
  sober : Sober m
  lastFault : m.isPending = true → m.lastFault = none

theorem unfailing_new (S : Node → Prop) (next : Nat) :
    Unfailing S { host := Host.standard, next } :=
  ⟨settled_always (Host.tame_standard S) next,
    ⟨Cells.sober_empty, by simp [cores], Host.forall_always Host.sober_standard⟩, by simp⟩

theorem declareGlobals_sober (h : Sober m) (ds : List Declaration) :
    Sober (m.declareGlobals ds) ∧ (m.declareGlobals ds).lastFault = m.lastFault := by
  unfold declareGlobals
  induction ds generalizing m with
  | nil => exact ⟨h, rfl⟩
  | cons d ds ih =>
    rw [List.foldl_cons]
    split
    · exact ih h
    · exact ih (m := { m with globals := d.id :: m.globals, cells := (m.cells.register d).2 })
        ⟨h.cells.register d, h.phases, h.host⟩

/-- **Errors are accounted for all the life of a machine.** -/
theorem strict_perpetual {ts : List Node} (hP : Program (nodesOf ts)) :
    Perpetual ts (Unfailing (nodesOf ts)) (Strict (nodesOf ts)) where
  lasting := Strict.lasting hP
  globals m ds h := by
    obtain ⟨hs, hl⟩ := declareGlobals_sober h.sober ds
    refine ⟨(orderly_perpetual hP).globals m ds h.settled, hs, fun hp => hl.trans (h.lastFault ?_)⟩
    rwa [isPending, (declareGlobals_frames m ds).1] at hp
  stops m b stopNext h := ⟨(orderly_perpetual hP).stops m b stopNext h.settled,
    ⟨h.sober.cells, h.sober.phases, h.sober.host⟩, h.lastFault⟩
  start m n h hp hn := by
    refine ⟨(orderly_perpetual hP).start m n h.settled hp hn,
      ⟨h.sober.cells, h.sober.phases, h.sober.host⟩, by simp [Sane], ?_⟩
    simp [Accounted, fresh]
  taken m h hp := by
    refine ⟨(orderly_perpetual hP).taken m h.settled hp, h.sober, by simp [Sane], ?_⟩
    rw [Accounted, h.lastFault hp]
    simp
  stopped m h := ⟨h.orderly.settled, h.sober, fun _ => h.lastFault_of_begin⟩
  ended m w h hf := by
    obtain ⟨hc, hfr, hset⟩ := settle_frames m w
    refine ⟨(orderly_perpetual hP).ended m w h.orderly hf, ⟨hc ▸ h.sober.cells, ?_, ?_⟩, fun hp => ?_⟩
    · rw [cores, hfr, hf]
      simp
    · rw [show (m.settle w).2.host = m.host from congrArg Prod.fst hset]
      exact h.sober.host
    · rw [isPending_of_frames (hfr.trans hf)] at hp
      simp at hp
  reset m h := ⟨(orderly_perpetual hP).reset m h.settled,
    ⟨h.sober.cells.unwind m.frames, by simp [cores, reset], h.sober.host⟩, by simp [isPending, reset]⟩

/-! ## Evaluations -/

/-- The next moment of an evaluation: a step or a stop, and where it is stopped a change of the
breakpoints or a call that takes it up. -/
inductive Onward : Moment → Moment → Prop
  | breakpoints (m : Machine) (b : Breakpoints) : Onward (m, none) ({ m with breakpoints := b }, none)
  | resume {m : Machine} : m.isPending = true →
      Onward (m, none) (m.resumption.1, some m.resumption.2)
  | stepIn {m : Machine} : m.isPending = true →
      Onward (m, none) ({ m with stopNext := true }.resumption.1,
        some { m with stopNext := true }.resumption.2)
  | step {m m' : Machine} {φ φ' : Focus} : m.step φ = (m', .running φ') →
      Onward (m, some φ) (m', some φ')
  | stop {m m' : Machine} {φ : Focus} : m.step φ = (m', .suspended) → Onward (m, some φ) (m', none)

theorem Onward.turn (ts : List Node) (h : Onward x y) : Turn ts x y := by
  cases h with
  | breakpoints m b => exact .breakpoints m b
  | resume hp => exact .resume hp
  | stepIn hp => exact .stepIn hp
  | step hs => exact .step hs
  | stop hs => exact .stop hs

/-- The moment `y` is `x` or follows it in the same evaluation. -/
abbrev Continues (x y : Moment) : Prop :=
  Relation.ReflTransGen Onward x y

theorem Continues.later (ts : List Node) (h : Continues x y) : Later ts x y :=
  Relation.ReflTransGen.mono (fun _ _ h => Onward.turn ts h) x y h

/-- The moments in the evaluation of `n` by `m`, under any breakpoints and any calls. -/
def Evaluating (m : Machine) (n : Node) (x : Moment) : Prop :=
  Continues (m.fresh, some (.enter n)) x

/-- Since the machine was `m` the evaluation has only ended frames, with the error `e` on its way: the
variables of these frames have ended, all others have kept their values, and neither was a host
called nor a function or another error made. -/
structure Unwound (e : Fault) (m : Machine) (y : Moment) : Prop where
  focus : y.2 = some (.give (.error e))
  lastFault : y.1.lastFault = some e
  frames : ∃ k ≤ m.frames.length, y.1.frames.map Frame.core = (m.frames.drop k).map Frame.core ∧
    y.1.cells = m.cells.unwind (m.frames.take k)
  values : ∀ c, y.1.cells.Live c → y.1.cells.get c = m.cells.get c
  calls : y.1.calls = m.calls
  next : y.1.next = m.next

/-- Ending one more frame. -/
theorem Unwound.step (hp : m.cells.Partitioned) (h : Unwound e m (m₁, some φ))
    (hr : Results m₁.frames φ) {φ' : Focus} (hs : m₁.step φ = (m', .running φ')) :
    Unwound e m (m', some φ') := by
  obtain rfl : φ = .give (.error e) := Option.some.inj h.focus
  obtain ⟨k, hk, hcore, hcells⟩ := h.frames
  dsimp only at hcore hcells
  cases hf : m₁.frames with
  | nil => simp [Machine.step, hf] at hs
  | cons f fs =>
    obtain ⟨gs, hgs, hs'⟩ := step_error hf hr
    obtain ⟨rfl, hφ⟩ := Prod.mk.inj (hs'.symm.trans hs)
    obtain rfl := Progress.running.inj hφ
    have hlt : k < m.frames.length := by
      have := congrArg List.length hcore
      rw [hf] at this
      simp only [List.map_cons, List.length_cons, List.length_map, List.length_drop] at this
      omega
    have hdrop : m.frames.drop k = m.frames[k] :: m.frames.drop (k + 1) := by simp
    have htake : m.frames.take (k + 1) = m.frames.take k ++ [m.frames[k]] := by simp
    rw [hf, hdrop, List.map_cons, List.map_cons, List.cons.injEq] at hcore
    have hcells' : m₁.cells.leave f = m.cells.unwind (m.frames.take (k + 1)) := by
      rw [htake, Cells.unwind, List.foldl_append, hcells, leave_of_core hcore.1]
      rfl
    refine ⟨rfl, h.lastFault, ⟨k + 1, hlt, hgs.trans hcore.2, hcells'⟩, fun c hc => ?_, h.calls,
      h.next⟩
    dsimp only at hc ⊢
    rw [hcells'] at hc ⊢
    exact (hp.live_unwind hc).2

/-! ## Evaluations that fail -/

/-- Errors are final in the evaluation of `n` by `m`, under any breakpoints and any calls that take it
up. -/
structure FailStop (m : Machine) (n : Node) : Prop where
  /-- An error that has been made is the first one, and is on its way out. -/
  first : ∀ x, Evaluating m n x → ∀ e, x.1.lastFault = some e →
    e.previous = none ∧ x.2 = some (.give (.error e))
  /-- An error that is on its way has been made. -/
  made : ∀ m' e, Evaluating m n (m', some (.give (.error e))) → m'.lastFault = some e
  /-- From then on frames end, and nothing else happens. -/
  unwinds : ∀ x, Evaluating m n x → ∀ e, x.1.lastFault = some e →
    ∀ y, Continues x y → Unwound e x.1 y
  /-- The evaluation does end, without another stop. -/
  ends : ∀ m' φ, Evaluating m n (m', some φ) → ∀ e, m'.lastFault = some e →
    ∀ steps, m'.frames.length < steps → ∃ m₁, run steps m' φ = (m₁, .finished (.error e))
  /-- Its result is an error exactly if one has been made, and then this one. -/
  result : ∀ steps cs m₁ v, (m.start n steps).map (drive cs) = .ok (m₁, .finished v) →
    ∀ e, (v = .error e ↔ m₁.lastFault = some e) ∧ (v = .error e → e.previous = none)

/-- An error on its way comes to the root of the evaluation. -/
theorem run_error (hP : Program S) (h : Strict S m (.give (.error e))) {steps : Nat}
    (hs : m.frames.length < steps) : ∃ m₁, run steps m (.give (.error e)) = (m₁, .finished (.error e)) := by
  induction steps generalizing m with
  | zero => simp at hs
  | succ steps ih =>
    rw [run]
    cases hf : m.frames with
    | nil =>
      rw [step, hf]
      exact ⟨_, rfl⟩
    | cons f fs =>
      obtain ⟨gs, hgs, hstep⟩ := step_error hf h.orderly.calm.results
      have h' := (Strict.lasting hP).step m _ _ h (by rw [hstep]; rfl)
      rw [hstep] at h' ⊢
      refine ih h' ?_
      have hlen := congrArg List.length hgs
      rw [List.length_map, List.length_map] at hlen
      rw [hf, List.length_cons] at hs
      show gs.length < steps
      omega

/-- What an evaluation settles on is an error exactly if one has been made, a jump out of the root
included. -/
theorem settle_error (h : Strict S m (.give v)) (e : Fault) :
    ((m.settle v).1 = .error e ↔ (m.settle v).2.lastFault = some e) ∧
      ((m.settle v).1 = .error e → e.previous = none) := by
  cases hl : m.lastFault with
  | some e' =>
    obtain ⟨he', hv⟩ := h.accounted.of_some hl
    obtain rfl : v = .error e' := by simpa using hv
    have hs : m.settle (.error e') = (.error e', { m with result := some (.error e') }) := rfl
    rw [hs]
    dsimp only
    rw [hl]
    constructor
    · constructor <;> rintro ⟨⟩ <;> rfl
    · rintro ⟨⟩
      exact he'
  | none =>
    have hne : ∀ e, v ≠ .error e := fun e hv => by
      have := h.accounted
      rw [Accounted, hl] at this
      exact this e (by rw [hv])
    have hplain : ∀ w : Value, w.isAbrupt = false → ∀ m₁ : Machine, m₁.lastFault = none →
        (w = .error e ↔ m₁.lastFault = some e) ∧ (w = .error e → e.previous = none) := by
      intro w hw m₁ hm₁
      have : w ≠ .error e := by
        rintro rfl
        cases hw
      simp [this, hm₁]
    cases v with
    | signal kind culprit w =>
      have hw := h.sane kind culprit w rfl
      cases kind with
      | «return» => exact hplain w hw _ hl
      | «break» | «continue» =>
        simp only [settle, fault, hl, Value.error.injEq, Option.some.injEq, true_and]
        rintro rfl
        rfl
    | error e' => exact (hne e' rfl).elim
    | reference c => exact hplain _ (h.sober.cells c) _ hl
    | _ => exact hplain _ rfl _ hl

/-- Between two calls the evaluation is stopped. -/
theorem isPending_of_evaluating (h : Evaluating m n x) (hx : x.2 = none) : x.1.isPending = true := by
  induction h with
  | refl => cases hx
  | tail _ ht ih =>
    cases ht with
    | breakpoints => exact ih rfl
    | resume | stepIn | step => cases hx
    | stop hs =>
      obtain ⟨n, -, -, hf⟩ := frames_of_next_begin (by rw [hs]; rfl)
      rw [hs] at hf
      dsimp only at hf
      simp [isPending, hf]

/-- **Errors are fail-stop** in every evaluation of a tree that has been read in turn, by every
machine with the standard host. -/
theorem errors_fail_stop {ts : List Node} {next : Nat} (ht : ReadInTurn ts next)
    (hm : Reached Host.standard ts (m, none)) (hi : m.isPending = false) (hn : n ∈ ts) :
    FailStop m n := by
  have hP := ht.program
  have hreached : ∀ x, Evaluating m n x → Reached Host.standard ts x := fun x hx =>
    (hm.turn (.start hi hn)).later (hx.later ts)
  have hstrict : ∀ x, Evaluating m n x →
      Throughout (Unfailing (nodesOf ts)) (Strict (nodesOf ts)) x := fun x hx =>
    (strict_perpetual hP).of_reached (unfailing_new _) (hreached x hx)
  have hfirst : ∀ x, Evaluating m n x → ∀ e, x.1.lastFault = some e →
      e.previous = none ∧ x.2 = some (.give (.error e)) := by
    rintro ⟨m', φ⟩ hx e he
    have h := hstrict _ hx
    cases φ with
    | none => simp [h.lastFault (isPending_of_evaluating hx rfl)] at he
    | some φ =>
      obtain ⟨hprev, rfl⟩ := h.accounted.of_some he
      exact ⟨hprev, rfl⟩
  refine ⟨hfirst, fun m' e hx => (hstrict _ hx).accounted.of_give, fun x hx e he y hxy => ?_,
    fun m' φ hx e he steps hsteps => ?_, fun steps cs m₁ v hd e => ?_⟩
  · have hp := partitioned_of_throughout
      ((sorted_perpetual hP).of_reached (tidied_new (Host.forall_always (Host.honest_standard _)))
        (hreached x hx))
    induction hxy with
    | refl =>
      exact ⟨(hfirst x hx e he).2, he, ⟨0, Nat.zero_le _, rfl, rfl⟩, fun _ _ => rfl, rfl, rfl⟩
    | @tail y z hxy hyz ih =>
      have hy := hstrict y (hx.trans hxy)
      cases hyz with
      | breakpoints | resume | stepIn => cases ih.focus
      | step hs => exact ih.step hp.1 hy.orderly.calm.results hs
      | stop hs =>
        obtain rfl := Option.some.inj ih.focus
        obtain ⟨n, hn, -⟩ := frames_of_next_begin (by rw [hs]; rfl)
        cases hn
  · obtain ⟨-, hφ⟩ := hfirst _ hx e he
    obtain rfl := Option.some.inj hφ
    exact run_error hP (hstrict _ hx) hsteps
  · rw [start_eq hi] at hd
    have hret := (Strict.lasting hP).drive cs
      ((Strict.lasting hP).run steps (hstrict (m.fresh, some (.enter n)) .refl))
    rw [Except.ok.inj hd] at hret
    obtain ⟨m₂, w, h, -, hw⟩ := hret
    have := settle_error h e
    rwa [hw] at this

/-- The error of an argument ends the evaluation before the host is asked and before the loop goes
on. -/
theorem errors_fail_stop_argument :
    FailStop {} ((Parser.new {}).parse "var i = 0; while (true) i = Number(i(1))").1 :=
  errors_fail_stop (.read _ (.none 1) (.new {} 1) (Nat.le_refl 1)) (reached_new _ _ 1) rfl
    (List.mem_append_right [] (List.mem_singleton_self _))

end Steppable.Machine
