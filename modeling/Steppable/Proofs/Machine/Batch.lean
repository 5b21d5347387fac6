import Steppable.Proofs.Machine.Faults
import Steppable.Proofs.Machine.Lift
import Steppable.Proofs.Machine.Plain

/-!
# Line by line

Trees can be evaluated one after the other, as an interactive loop does it with lines, or all at once
as the statements of one block.

**Theorem (`lines_as_batch`).** It comes to the same: if the lines before the last one go well, then
the last one ends exactly if the block does, with the same result, and with the same cells, the same
record of the host and the same everything else in the machine.

- **One line.** Its evaluation on its own and within the block are the same path, except that the
  block has one more frame below (`path_above`).
- **Between two lines.** An evaluation that has ended leaves no frames, and what the next one forgets
  at its start is what the block never had: a result and an error (`above_fresh`).

The host must not look at where frames are, and no error may be made before the last line, not even
one that a handler leaves behind when it passes a question on: a later error would remember it
(`lines_unlike_batch`). The standard host neither looks nor leaves errors behind.
-/

namespace Steppable.Machine

open Lexical (Overflows)

variable {m m₁ m₂ m' : Machine} {n x e : Node} {ns es rest : List Node} {v w : Value} {t : Tag}
  {cs : List Host.Call} {fine : Machine → Value → Prop} {k : Nat} {φ : Focus}

/-! ## Evaluations as a whole -/

/-- The evaluation of `n` by `m` ends with the result `v` and leaves `m'`. -/
def Ends (m : Machine) (n : Node) (v : Value) (m' : Machine) : Prop :=
  ∃ steps, m.start n steps = .ok (m', .finished v)

/-- The evaluation of `n` by `m` comes to its root with the value `v`. -/
structure Yields (m : Machine) (n : Node) (v : Value) (m' : Machine) : Prop where
  path : ∃ k, Path k m.fresh (.enter n) m' (.give v)
  root : m'.frames = []

theorem ends_iff (hp : m.isPending = false) :
    m.Ends n v m' ↔ ∃ w m₁, m.Yields n w m₁ ∧ m₁.settle w = (v, m') := by
  constructor
  · rintro ⟨steps, h⟩
    rw [start_eq hp] at h
    obtain ⟨k, m₁, φ, m₂, w, -, hpath, hs, hw⟩ := run_eq_finished (Except.ok.inj h)
    obtain ⟨rfl, hf, rfl⟩ := step_finished hs
    exact ⟨w, m₂, ⟨⟨k, hpath⟩, hf⟩, hw⟩
  · rintro ⟨w, m₁, ⟨⟨k, hpath⟩, hf⟩, hw⟩
    have hs : m₁.step (.give w) = (m₁, .finished w) := by simp [step, hf]
    refine ⟨k + 1, ?_⟩
    rw [start_eq hp, run_of_path_finished hpath hs hw (Nat.lt_succ_self k)]

theorem Ends.unique (h : m.Ends n v m₁) (h' : m.Ends n w m₂) : v = w ∧ m₁ = m₂ := by
  obtain ⟨j, h⟩ := h
  obtain ⟨k, h'⟩ := h'
  cases hp : m.isPending with
  | true => simp [start, hp] at h
  | false =>
    rw [start_eq hp] at h h'
    obtain ⟨hm, hv⟩ := run_finished_unique (Except.ok.inj h) (Except.ok.inj h')
    exact ⟨hv, hm⟩

/-! ## Lines -/

/-- The value at the root is neither an error nor a jump. -/
def Plainly (_ : Machine) (v : Value) : Prop :=
  v.isAbrupt = false

/-- The value at the root is neither an error nor a jump, and no error has been made. -/
def Flawlessly (m : Machine) (v : Value) : Prop :=
  v.isAbrupt = false ∧ m.lastFault = none

/-- The trees are evaluated one after the other, and each evaluation comes to its root in a way that
is fine. -/
inductive Lines (fine : Machine → Value → Prop) : Machine → List Node → Machine → Prop
  | nil (m : Machine) : Lines fine m [] m
  | cons {m m₁ m' : Machine} {n : Node} {ns : List Node} {v : Value} :
      m.Yields n v m₁ → fine m₁ v → Lines fine (m₁.settle v).2 ns m' → Lines fine m (n :: ns) m'

/-- The lines `es` have led from `m` to `m₁`. There, one more line ends exactly if the block of all of
them ends on `m`, and with the same result, unless the block gets too deep. What is left of the two
machines is the same but for the places of frames that handlers have been told. -/
def AsBatch (m : Machine) (es : List Node) (m₁ : Machine) : Prop :=
  ∀ (t : Tag) (e : Node), ¬ Overflows m.fresh (.enter (.block t (es ++ [e]) [])) →
    (∀ v m', m₁.Ends e v m' →
      ∃ calls, m.Ends (.block t (es ++ [e]) []) v { m' with calls }) ∧
    ∀ v m', m.Ends (.block t (es ++ [e]) []) v m' → ∃ calls, m₁.Ends e v { m' with calls }

/-! ## Machines at rest -/

/-- No evaluation is under way, nothing will be stopped at, the host does not look at where frames
are, and what is stored is plain. -/
structure Resting (m : Machine) : Prop where
  frames : m.frames = []
  breakpoints : m.breakpoints = {}
  host : ∀ r ∈ m.host, r.Placeless
  plain : m.Plain

theorem Resting.isPending (h : Resting m) : m.isPending = false :=
  isPending_of_frames h.frames

theorem Resting.fresh (h : Resting m) : Resting m.fresh :=
  ⟨h.frames, h.breakpoints, h.host, h.plain.cells, h.plain.phases⟩

theorem Resting.quiet (h : Resting m) : m.fresh.quiet = m.fresh := by
  simp [Machine.quiet, withStops, Machine.fresh, h.breakpoints]

theorem Resting.liftable (h : Resting m) (n : Node) : Liftable m.fresh (.enter n) where
  host := h.host
  sited := by
    rw [cores, h.fresh.frames]
    trivial
  begun := nofun

theorem resting_of_reached {host : Host} {ts : List Node}
    (hm : Reached host ts (m, none)) (hi : m.isPending = false) (hb : m.breakpoints = {})
    (hh : ∀ r ∈ host, r.Placeless) : Resting m := by
  have hhost : m.host = host := (host_perpetual host ts).of_reached (fun _ => rfl) hm
  exact ⟨frames_of_isPending hi, hb, hhost ▸ hh, plain_of_reached hm⟩

/-- A machine without stops stays one. -/
theorem quiet_path {φ' : Focus} (h : m.quiet = m) (hp : Path k m φ m' φ') : m'.quiet = m' := by
  refine hp.preserves (I := fun m _ => m.quiet = m) (fun m φ _ hm _ => ?_) h
  have := (step_quiet m φ).machine
  rwa [hm] at this

/-- An evaluation that has come to its root leaves the machine at rest. -/
theorem Resting.yields (h : Resting m) (hy : m.Yields n v m₁) :
    Resting m₁ ∧ m₁.stopNext = false := by
  obtain ⟨⟨k, hp⟩, hf⟩ := hy
  have hq := quiet_path h.quiet hp
  have hl := hp.preserves (fun _ _ _ hm hn => Liftable.step hm hn) (h.liftable n)
  have hc := hp.preserves (I := fun m _ => m.Plain) (fun _ φ _ hm _ => plain_step hm φ)
    h.fresh.plain
  exact ⟨⟨hf, (congrArg Machine.breakpoints hq).symm, hl.host, hc⟩,
    (congrArg Machine.stopNext hq).symm⟩

theorem Resting.settle (h : Resting m) (v : Value) : Resting (m.settle v).2 := by
  obtain ⟨hc, hf, hs⟩ := settle_frames m v
  have hb : (m.settle v).2.breakpoints = m.breakpoints := by
    unfold Machine.settle
    cases v with
    | signal kind => cases kind <;> rfl
    | _ => rfl
  refine ⟨hf.trans h.frames, hb.trans h.breakpoints, ?_, hc ▸ h.plain.cells, ?_⟩
  · rw [show (m.settle v).2.host = m.host from congrArg Prod.fst hs]
    exact h.host
  · rw [cores, hf]
    exact h.plain.phases

/-! ## The block below the lines -/

/-- The frame of a block of the lines `ns` that waits for one of them, before those in `rest`. -/
def waiting (t : Tag) (ns rest : List Node) : Frame :=
  { node := .block t ns [], phase := .statement rest }

/-- A plain value is the result as it is when it is read. -/
theorem settle_of_isAbrupt (h : v.isAbrupt = false) :
    m.settle v = (m.cells.deref v, { m with result := some (m.cells.deref v) }) := by
  cases v with
  | signal => simp [Value.isAbrupt, Value.isSignal] at h
  | _ => rfl

/-- What the next evaluation forgets, the block never had. -/
theorem above_fresh (b : Frame) (hs : m.stopNext = false) (hfine : Flawlessly m v) :
    (m.settle v).2.fresh.above b cs = m.above b cs := by
  obtain ⟨hv, hl⟩ := hfine
  rw [settle_of_isAbrupt hv]
  simp only [fresh, above, hs, hl]

theorem block_begins (t : Tag) (e : Node) (rest : List Node) (hf : m.frames = [])
    (hq : m.quiet = m) (hr : m.result = none) :
    Path 2 m (.enter (.block t (e :: rest) [])) (m.above (waiting t (e :: rest) rest) m.calls)
      (.enter e) := by
  have hpush : m.quiet.push (.block t (e :: rest) []) =
      ({ m.quiet with frames := { node := .block t (e :: rest) [] } :: m.frames },
        .running .begin) :=
    quiet_push m _ (by simp [hf, maxFrames])
  rw [hq] at hpush
  refine .step hpush (.single ?_)
  cases m
  cases hf
  cases hr
  rfl

theorem block_goesOn (hf : m.frames = []) (hv : v.isAbrupt = false) :
    Path 1 (m.above (waiting t ns (e :: rest)) cs) (.give v) (m.above (waiting t ns rest) cs)
      (.enter e) := by
  refine .single ?_
  simp [step, above, hf, receive, waiting, hv, receivePlain, nextStatement, await]

/-- The block ends as its last line does on its own. -/
theorem block_ends (t : Tag) (ns : List Node) (cs : List Host.Call) (v : Value)
    (hf : m.frames = []) (hc : m.cells.Plain) :
    ∃ w, Path 1 (m.above (waiting t ns []) cs) (.give v) { m with calls := cs, result := none }
        (.give w) ∧
      ({ m with calls := cs, result := none } : Machine).settle w =
        ((m.settle v).1, { (m.settle v).2 with calls := cs }) := by
  have hfinish : ∀ w, (m.above (waiting t ns []) cs).finish w =
      ({ m with calls := cs, result := none }, .running (.give w)) := by
    intro w
    simp only [finish, above, hf]
    rfl
  by_cases hv : v.isAbrupt = true
  · refine ⟨v, .single ?_, ?_⟩
    · rw [← hfinish v]
      simp [step, above, hf, receive, waiting, hv]
    · cases v with
      | signal kind => cases kind <;> rfl
      | _ => rfl
  · rw [Bool.not_eq_true] at hv
    refine ⟨m.cells.deref v, .single ?_, ?_⟩
    · rw [← hfinish]
      simp [step, above, hf, receive, waiting, hv, receivePlain, nextStatement]
    · rw [settle_of_isAbrupt hv, settle_of_isAbrupt (hc.deref hv).2]
      simp only [hc.deref_deref]

/-! ## The lines within the block -/

/-- **The block goes through the lines as they go through on their own**, up to where the last one
starts. -/
theorem Lines.above (h : Lines Flawlessly m es m₁) (hr : Resting m) (hs : es ++ [e] = x :: rest)
    (ho : ¬ Overflows (m.fresh.above (waiting t ns rest) cs) (.enter x)) :
    ∃ k cs', Path k (m.fresh.above (waiting t ns rest) cs) (.enter x)
      (m₁.fresh.above (waiting t ns []) cs') (.enter e) := by
  induction h generalizing x rest cs with
  | nil m =>
    obtain ⟨rfl, rfl⟩ := List.cons.inj hs
    exact ⟨0, cs, .refl _ _⟩
  | @cons m m₁ m' n ns' v hy hfine _ ih =>
    rw [List.cons_append] at hs
    obtain ⟨rfl, rfl⟩ := List.cons.inj hs
    obtain ⟨hr₁, hstop⟩ := hr.yields hy
    obtain ⟨⟨j, hp⟩, hf⟩ := hy
    obtain ⟨calls, hline⟩ := path_above rfl (hr.liftable n) hp ho
    obtain ⟨y, rest', hrest⟩ : ∃ y rest', ns' ++ [e] = y :: rest' :=
      List.exists_cons_of_ne_nil (by simp)
    rw [hrest] at hline ho ⊢
    have hnext := hline.trans (block_goesOn hf hfine.1)
    rw [← above_fresh (waiting t ns rest') hstop hfine] at hnext
    obtain ⟨k, cs', hlater⟩ := ih (hr₁.settle v) hrest fun hover => ho (hover.of_path hnext)
    exact ⟨_, cs', hnext.trans hlater⟩

theorem Lines.resting (h : Lines fine m es m₁) (hr : Resting m) : Resting m₁ := by
  induction h with
  | nil => exact hr
  | cons hy _ _ ih => exact ih ((hr.yields hy).1.settle _)

/-- What the evaluation of the last line goes through, the block goes through. -/
theorem Lines.last (h : Lines Flawlessly m es m₁) (hr : Resting m)
    (ho : ¬ Overflows m.fresh (.enter (.block t (es ++ [e]) [])))
    (hp : Path k m₁.fresh (.enter e) m' φ) :
    ∃ j ns calls, k ≤ j ∧ Path j m.fresh (.enter (.block t (es ++ [e]) []))
      (m'.above (waiting t ns []) calls) φ := by
  obtain ⟨x, rest, hs⟩ : ∃ x rest, es ++ [e] = x :: rest := List.exists_cons_of_ne_nil (by simp)
  rw [hs] at ho ⊢
  have hbegins := block_begins t x rest hr.fresh.frames hr.quiet rfl
  obtain ⟨j, cs, hlines⟩ := h.above hr hs fun hover => ho (hover.of_path hbegins)
  have hlines := hbegins.trans hlines
  obtain ⟨calls, hlast⟩ := path_above rfl ((h.resting hr).liftable e) hp
    fun hover => ho (hover.of_path hlines)
  exact ⟨2 + j + k, _, calls, Nat.le_add_left k _, hlines.trans hlast⟩

/-- The block ends if its last line does. -/
theorem Lines.block_ends_of_last (h : Lines Flawlessly m es m₁) (hr : Resting m)
    (ho : ¬ Overflows m.fresh (.enter (.block t (es ++ [e]) []))) (he : m₁.Ends e v m') :
    ∃ calls, m.Ends (.block t (es ++ [e]) []) v { m' with calls } := by
  have hr₁ := h.resting hr
  obtain ⟨w, m₂, hy, hw⟩ := (ends_iff hr₁.isPending).1 he
  obtain ⟨j, ns, calls, -, hp⟩ := h.last hr ho hy.path.choose_spec
  obtain ⟨u, hu, hsettle⟩ := block_ends t ns calls w hy.root (hr₁.yields hy).1.plain.cells
  rw [hw] at hsettle
  exact ⟨calls, (ends_iff hr.isPending).2 ⟨u, _, ⟨⟨_, hp.trans hu⟩, hy.root⟩, hsettle⟩⟩

/-- The last line ends if the block does. -/
theorem Lines.last_ends_of_block (h : Lines Flawlessly m es m₁) (hr : Resting m)
    (ho : ¬ Overflows m.fresh (.enter (.block t (es ++ [e]) [])))
    (hb : m.Ends (.block t (es ++ [e]) []) v m') : ∃ w m₂, m₁.Ends e w m₂ := by
  have hr₁ := h.resting hr
  obtain ⟨steps, hsteps⟩ := hb
  rw [start_eq hr.isPending] at hsteps
  have hsteps := Except.ok.inj hsteps
  rcases hrun : run steps m₁.fresh (.enter e) with ⟨m₂, status⟩
  cases status with
  | finished w => exact ⟨w, m₂, steps, by rw [start_eq hr₁.isPending, hrun]⟩
  | suspended =>
    obtain ⟨k, m₃, φ, -, hp, hs⟩ := run_eq_suspended hrun
    have := (step_quiet m₃ φ).running
    rw [quiet_path hr₁.quiet hp] at this
    simp [hs] at this
  | exhausted =>
    -- A line that goes on for so long keeps the block from ending.
    obtain ⟨m₃, φ, hp⟩ := path_of_run_exhausted (congrArg Prod.snd hrun)
    obtain ⟨j, ns, calls, hj, hp⟩ := h.last hr ho hp
    exact absurd (hp.lt_of_run_finished hsteps) (Nat.not_lt.2 hj)

/-- **After lines in which no error has been made, the last one ends as the block does.** -/
theorem asBatch_of_lines (h : Lines Flawlessly m es m₁) (hr : Resting m) : AsBatch m es m₁ := by
  refine fun t e ho => ⟨fun v m' he => h.block_ends_of_last hr ho he, fun v m' hb => ?_⟩
  obtain ⟨w, m₂, he⟩ := h.last_ends_of_block hr ho hb
  obtain ⟨calls, hb'⟩ := h.block_ends_of_last hr ho he
  obtain ⟨rfl, rfl⟩ := hb.unique hb'
  exact ⟨m₂.calls, he⟩

/-! ## The standard host -/

/-- With the standard host no error is left behind: a line that ends with a plain value has made
none. -/
theorem Lines.flawless {ts : List Node} (hP : Program (nodesOf ts)) (h : Lines Plainly m es m₁)
    (hm : Unfailing (nodesOf ts) m) (hi : m.isPending = false) (hes : ∀ n ∈ es, n ∈ ts) :
    Lines Flawlessly m es m₁ := by
  induction h with
  | nil m => exact .nil m
  | @cons m m₁ m' n ns v hy hv _ ih =>
    obtain ⟨hn, hns⟩ := List.forall_mem_cons.1 hes
    have hstart := (strict_perpetual hP).start m n hm hi hn
    have hend := hy.path.choose_spec.preserves (Strict.lasting hP).step hstart
    have hfault : m₁.lastFault = none := by
      cases hl : m₁.lastFault with
      | none => rfl
      | some e =>
        obtain ⟨-, hφ⟩ := hend.accounted.of_some hl
        cases hφ
        cases hv
    exact .cons hy ⟨hv, hfault⟩ (ih ((strict_perpetual hP).ended m₁ v hend hy.root)
      (isPending_of_frames ((settle_frames m₁ v).2.1.trans hy.root)) hns)

/-- **Line by line is all at once.** -/
theorem lines_as_batch {host : Host} {ts : List Node}
    (hm : Reached host ts (m, none)) (hi : m.isPending = false) (hb : m.breakpoints = {}) :
    ((∀ r ∈ host, r.Placeless) → ∀ es m₁, Lines Flawlessly m es m₁ → AsBatch m es m₁) ∧
      (host = Host.standard → ∀ next, ReadInTurn ts next → ∀ es m₁, (∀ n ∈ es, n ∈ ts) →
        Lines Plainly m es m₁ → AsBatch m es m₁) := by
  refine ⟨fun hh es m₁ h => asBatch_of_lines h (resting_of_reached hm hi hb hh), ?_⟩
  rintro rfl next ht es m₁ hes h
  have hfailing := (strict_perpetual ht.program).of_reached (unfailing_new _) hm
  exact asBatch_of_lines (h.flawless ht.program hfailing hi hes)
    (resting_of_reached hm hi hb (Host.forall_always Host.placeless_standard))

/-! ## Lines that are computed -/

instance decidablePlainly (m : Machine) (v : Value) : Decidable (Plainly m v) :=
  inferInstanceAs (Decidable (v.isAbrupt = false))

instance decidableFlawlessly (m : Machine) (v : Value) : Decidable (Flawlessly m v) :=
  inferInstanceAs (Decidable (v.isAbrupt = false ∧ m.lastFault = none))

/-- Goes on until a value has come to the root. -/
def toRoot : Nat → Machine → Focus → Option (Machine × Value)
  | 0, _, _ => none
  | steps + 1, m, φ =>
    match m.step φ with
    | (m₁, .running φ₁) => toRoot steps m₁ φ₁
    | (_, .suspended) => none
    | (m₁, .finished v) => some (m₁, v)

theorem path_of_toRoot {steps : Nat} (h : toRoot steps m φ = some (m', v)) :
    (∃ k, Path k m φ m' (.give v)) ∧ m'.frames = [] := by
  induction steps generalizing m φ with
  | zero => cases h
  | succ steps ih =>
    rw [toRoot] at h
    split at h
    · rename_i hs
      obtain ⟨⟨k, hp⟩, hf⟩ := ih h
      exact ⟨⟨k + 1, .step hs hp⟩, hf⟩
    · cases h
    · rename_i hs
      cases h
      obtain ⟨rfl, hf, rfl⟩ := step_finished hs
      exact ⟨⟨0, .refl _ _⟩, hf⟩

/-- Whether the evaluation is over in so many steps and no error of too deep a stack was ever the last
one. -/
def shallow : Nat → Machine → Focus → Bool
  | 0, _, _ => false
  | steps + 1, m, φ =>
    m.lastFault.all (·.message != tooDeep) &&
      match m.step φ with
      | (m₁, .running φ₁) => shallow steps m₁ φ₁
      | _ => true

theorem not_overflows_of_shallow {steps : Nat} (h : shallow steps m φ = true) : ¬ Overflows m φ := by
  rintro ⟨k, m', φ', f, hp, hf, hdeep⟩
  induction hp generalizing steps with
  | refl =>
    cases steps with
    | zero => cases h
    | succ => simp [shallow, hf, hdeep] at h
  | step hs _ ih =>
    cases steps with
    | zero => cases h
    | succ steps =>
      rw [shallow, hs, Bool.and_eq_true] at h
      exact ih h.2 hf

/-- Evaluates the trees one after the other, as long as that is fine. -/
def follow (fine : Machine → Value → Prop) [∀ m v, Decidable (fine m v)] (steps : Nat) :
    Machine → List Node → Option Machine
  | m, [] => some m
  | m, n :: ns =>
    match toRoot steps m.fresh (.enter n) with
    | some (m₁, v) => if fine m₁ v then follow fine steps (m₁.settle v).2 ns else none
    | none => none

theorem lines_of_follow [∀ m v, Decidable (fine m v)] {steps : Nat}
    (h : follow fine steps m es = some m₁) : Lines fine m es m₁ := by
  induction es generalizing m with
  | nil =>
    cases h
    exact .nil _
  | cons n ns ih =>
    rw [follow] at h
    split at h
    · rename_i m₂ v hroot
      split at h
      · rename_i hfine
        obtain ⟨hp, hf⟩ := path_of_toRoot hroot
        exact .cons ⟨hp, hf⟩ hfine (ih h)
      · cases h
    · cases h

theorem readInTurn_pair (options : Scope.Options) (i : Nat) (source source' : String) :
    ReadInTurn [((Parser.new options i).parse source).1,
      (((Parser.new options i).parse source).2.parse source').1]
      (((Parser.new options i).parse source).2.parse source').2.next :=
  .read source' (.read source (.none i) (.new options i) (Nat.le_refl i))
    (.parse source (.new options i)) (Nat.le_refl _)

/-- A line that calls a function, and one that leaves a loop. -/
theorem lines_as_batch_loop :
    let r₁ := (Parser.new { global := true }).parse "(function() { return null; })()"
    let r₂ := r₁.2.parse "do { break; } while (true)"
    ∃ m₁, Lines Plainly {} [r₁.1, r₂.1] m₁ ∧ AsBatch {} [r₁.1, r₂.1] m₁ := by
  have hread := readInTurn_pair { global := true } 1 "(function() { return null; })()"
    "do { break; } while (true)"
  have hsome : (follow Plainly 60 {} [((Parser.new { global := true }).parse
      "(function() { return null; })()").1, (((Parser.new { global := true }).parse
      "(function() { return null; })()").2.parse "do { break; } while (true)").1]).isSome = true := by
    decide +kernel
  obtain ⟨m₁, hm₁⟩ := Option.isSome_iff_exists.1 hsome
  have hlines := lines_of_follow hm₁
  exact ⟨m₁, hlines, (lines_as_batch (reached_new _ _ 1) rfl rfl).2 rfl _ hread _ _
    (fun _ hn => hn) hlines⟩

/-! ## Hosts that tell the difference -/

/-- After the lines `es` there is one more line that ends with another result than the block of all of
them, although neither gets too deep. -/
def Departs (m : Machine) (es : List Node) (m₁ : Machine) : Prop :=
  ∃ t e v w m' m₂, m₁.Ends e v m' ∧ m.Ends (.block t (es ++ [e]) []) w m₂ ∧ v ≠ w ∧
    ¬ Overflows m₁.fresh (.enter e) ∧ ¬ Overflows m.fresh (.enter (.block t (es ++ [e]) []))

/-- The result of the evaluation of `n`, if it ends in so many steps and without too deep a stack. -/
def outcome (steps : Nat) (m : Machine) (n : Node) : Option Value :=
  match m.start n steps with
  | .ok (_, .finished v) => if shallow steps m.fresh (.enter n) then some v else none
  | _ => none

/-- A machine whose host answers `where` with the accessors and where their frames are. -/
def describing : Machine :=
  { host := Host.always [⟨[], .outermost "where", Host.describeChain⟩] }

/-- A machine whose host leaves an error on `odd` before it answers. -/
def lenient : Machine :=
  { host := Host.always [⟨[], .get "odd", Host.answering fun _ => .failAndPass "odd"⟩,
      ⟨[], .get "odd", Host.answering fun _ => .value (.number 1)⟩] }

/-- Whether the value is an error that remembers no other one. -/
def isFirstFault : Value → Bool
  | .error f => f.previous.isNone
  | _ => false

theorem outcome_spec {steps : Nat} (h : outcome steps m n = some v) :
    (∃ m', m.Ends n v m') ∧ ¬ Overflows m.fresh (.enter n) := by
  unfold outcome at h
  split at h
  · rename_i m' w hstart
    split at h
    · rename_i hs
      cases h
      exact ⟨⟨m', steps, hstart⟩, not_overflows_of_shallow hs⟩
    · cases h
  · cases h

theorem departs_of_outcome (steps : Nat) (t : Tag) (e : Node) (test : Value → Bool)
    (he : (outcome steps m₁ e).map test = some true)
    (hb : (outcome steps m (.block t (es ++ [e]) [])).map test = some false) : Departs m es m₁ := by
  obtain ⟨v, hv, htrue⟩ := Option.map_eq_some_iff.1 he
  obtain ⟨w, hw, hfalse⟩ := Option.map_eq_some_iff.1 hb
  obtain ⟨⟨m', hends⟩, ho⟩ := outcome_spec hv
  obtain ⟨⟨m₂, hends'⟩, ho'⟩ := outcome_spec hw
  refine ⟨t, e, v, w, m', m₂, hends, hends', ?_, ho, ho'⟩
  rintro rfl
  rw [htrue] at hfalse
  cases hfalse

/-- **Hosts can tell lines from a block**: by where frames are, which is one place further in within
the block, and by leaving an error behind, which the next error within the block remembers. -/
theorem lines_unlike_batch :
    (∃ m₁, Lines Flawlessly describing [.name { id := 1 } "where"] m₁ ∧
      Departs describing [.name { id := 1 } "where"] m₁) ∧
    (∃ m₁, Lines Plainly lenient [.name { id := 1 } "odd"] m₁ ∧
      Departs lenient [.name { id := 1 } "odd"] m₁) := by
  constructor
  · refine ⟨_, lines_of_follow (Option.some_get (by decide +kernel :
      (follow Flawlessly 20 describing [.name { id := 1 } "where"]).isSome)).symm, ?_⟩
    exact departs_of_outcome 20 {} (.name { id := 2 } "where")
      (fun v => v.text == "0 member where") (by decide +kernel) (by decide +kernel)
  · refine ⟨_, lines_of_follow (Option.some_get (by decide +kernel :
      (follow Plainly 20 lenient [.name { id := 1 } "odd"]).isSome)).symm, ?_⟩
    exact departs_of_outcome 20 {} (.name { id := 2 } "even") isFirstFault (by decide +kernel)
      (by decide +kernel)

end Steppable.Machine
