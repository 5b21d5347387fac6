import Steppable.Proofs.Machine.Transparency

/-!
# Evaluation stops exactly where it is told

The nodes that evaluation can stop before get their frames in a certain order in the run without
breakpoints. Each of these *entries* has a position, and a stop is at one of them.

**Theorem (`stops_in_order`).** From the start, or from a stop at position `i`, an evaluation goes on
to the first later position whose node has a breakpoint, or to position `i + 1` if it is stepped; and
it ends if there is none. So no entry is stopped at twice, and none is passed over.

- **One step.** A frame is pushed for a node that evaluation can stop before: it stops there if the
  breakpoints or the latch say so, and otherwise both stay as they are (`step_entry`).
- **A run.** So a run passes over entries that nothing says to stop at, up to the first one that
  something does (`run_passes`).
- **Calls.** To take up a stopped evaluation changes nothing, so a call goes on at the position after
  the one it stands at.
-/

namespace Steppable.Machine

variable {m m' m₁ m₂ : Machine} {φ φ₁ ψ : Focus} {n x y : Node} {i j k : Nat} {S : Node → Prop}
  {v : Value}

/-! ## Entries -/

/-- The node that evaluation can stop before and that is about to get a frame. The activation above a
call belongs to the entry of the call. -/
def entered? (m : Machine) : Focus → Option Node
  | .enter x => if x.isBreakable && decide (m.frames.length < maxFrames) then some x else none
  | _ => none

/-- The entries among the first steps. -/
def entries : Nat → Machine → Focus → List Node
  | 0, _, _ => []
  | k + 1, m, φ =>
    (m.entered? φ).toList ++
      match m.step φ with
      | (m₁, .running φ₁) => entries k m₁ φ₁
      | _ => []

theorem entries_step (h : m.step φ = (m₁, .running φ₁)) (k : Nat) :
    entries (k + 1) m φ = (m.entered? φ).toList ++ entries k m₁ φ₁ := by
  rw [entries, h]

/-- With more steps there may be more entries after those there were. -/
theorem entries_succ_extends (k : Nat) (m : Machine) (φ : Focus) :
    entries k m φ <+: entries (k + 1) m φ := by
  induction k generalizing m φ with
  | zero => exact List.nil_prefix
  | succ k ih =>
    rw [entries, entries]
    refine (List.prefix_append_right_inj _).2 ?_
    split
    · exact ih _ _
    · exact List.prefix_refl _

theorem entries_mono (h : j ≤ k) (m : Machine) (φ : Focus) : entries j m φ <+: entries k m φ := by
  induction k with
  | zero =>
    obtain rfl := Nat.le_zero.1 h
    exact List.prefix_refl _
  | succ k ih =>
    rcases Nat.lt_or_ge j (k + 1) with hlt | hge
    · exact (ih (Nat.le_of_lt_succ hlt)).trans (entries_succ_extends k m φ)
    · obtain rfl := Nat.le_antisymm h hge
      exact List.prefix_refl _

theorem entries_of_path (h : Path j m φ m₁ φ₁) (k : Nat) :
    entries (j + k) m φ = entries j m φ ++ entries k m₁ φ₁ := by
  induction h with
  | refl => simp [entries]
  | @step j _ _ _ _ _ _ hs _ ih =>
    rw [show j + 1 + k = (j + k) + 1 by omega, entries_step hs, entries_step hs, ih,
      List.append_assoc]

/-! ## One step -/

/-- Whether the machine stops before the node when it gets a frame. -/
def stops (m : Machine) (x : Node) : Bool :=
  m.stopNext || m.breakpoints.stopsAt x

/-- The step is no entry, or one that nothing says to stop at. -/
structure Passes (m : Machine) (φ : Focus) (r : Machine × Progress) : Prop where
  running : r.2 ≠ .suspended
  entry : ∀ x, m.entered? φ = some x → m.stops x = false
  stops : ∀ x, r.1.stops x = m.stops x

/-- The step stops at an entry, and takes back what may have said so for once. -/
structure Halts (m : Machine) (φ : Focus) (x : Node) (r : Machine × Progress) : Prop where
  suspended : r.2 = .suspended
  entry : m.entered? φ = some x
  stops : m.stops x = true
  latch : r.1.stopNext = false
  frames : r.1.frames = { node := x } :: m.frames

/-- What goes on and leaves the breakpoints alone passes. -/
theorem passes_of_goesOn {r : Machine × Progress} (he : m.entered? φ = none) (hg : GoesOn r)
    (hr : r = restop m.breakpoints m.stopNext r) : Passes m φ r := by
  refine ⟨?_, by simp [he], fun x => ?_⟩
  · rcases hg with ⟨n, h⟩ | ⟨v, h⟩ <;> simp [h]
  · rw [hr]
    rfl

theorem push_entry (m : Machine) (n : Node) :
    (∃ x, Halts m (.enter n) x (m.push n)) ∨ Passes m (.enter n) (m.push n) := by
  by_cases hd : m.frames.length ≥ maxFrames
  · right
    have hp : m.push n = (m.fault n tooDeep).2.give (m.fault n tooDeep).1 := if_pos hd
    rw [hp]
    exact ⟨by simp [give], by simp [entered?, Nat.not_lt.2 hd], fun _ => rfl⟩
  · have hp : m.push n = if n.isBreakable && (m.stopNext || m.breakpoints.stopsAt n) then
        ({ m with frames := { node := n } :: m.frames, stopNext := false }, .suspended)
      else ({ m with frames := { node := n } :: m.frames }, .running .begin) := if_neg hd
    have he : m.entered? (.enter n) = if n.isBreakable then some n else none := by
      simp [entered?, Nat.lt_of_not_le hd]
    rw [hp]
    split
    · rename_i hs
      rw [Bool.and_eq_true] at hs
      exact .inl ⟨n, rfl, by rw [he, if_pos hs.1], hs.2, rfl, rfl⟩
    · rename_i hs
      refine .inr ⟨by simp, fun x hx => ?_, fun _ => rfl⟩
      rw [he] at hx
      split at hx
      · rename_i hb
        obtain rfl := Option.some.inj hx
        simpa [hb, stops] using hs
      · cases hx

/-- **A step stops at an entry exactly if something says so**, and leaves what says so as it is if it
does not stop. -/
theorem step_entry (m : Machine) (φ : Focus) :
    (∃ x, Halts m φ x (m.step φ)) ∨ Passes m φ (m.step φ) := by
  cases φ with
  | enter n =>
    cases n with
    | constant | nop | invalid => exact .inr (passes_of_goesOn rfl (.inr ⟨_, rfl⟩) rfl)
    | declare t d | var t d =>
      exact .inr (passes_of_goesOn rfl (goesOn_giveVariable m _ d)
        (giveVariable_withStops m m.breakpoints m.stopNext _ d))
    | function t code =>
      exact .inr (passes_of_goesOn rfl (goesOn_giveFunction m _ code)
        (giveFunction_withStops m m.breakpoints m.stopNext _ code))
    | _ => exact push_entry m _
  | begin =>
    right
    rw [step]
    split
    · rename_i f outer hf
      exact passes_of_goesOn rfl (begin_beginning m f.node).goesOn
        (begin_withStops m m.breakpoints m.stopNext f.node)
    · exact passes_of_goesOn rfl (.inr ⟨_, rfl⟩) rfl
  | give v =>
    right
    rw [step]
    split
    · rename_i f outer hf
      exact passes_of_goesOn rfl (receive_reaction m f v).goesOn
        (receive_withStops m m.breakpoints m.stopNext f v)
    · exact ⟨by simp, by simp [entered?], fun _ => rfl⟩

/-! ## Runs -/

/-- What a run does to the entries of the run without breakpoints: it passes over those that nothing
says to stop at, up to one that something does. -/
def Passed (k : Nat) (m : Machine) (φ : Focus) : Machine × Status → Prop
  | (m', .suspended) => ∃ i xs x, Path i m.quiet φ m'.quiet .begin ∧
      entries i m.quiet φ = xs ++ [x] ∧ (∀ y ∈ xs, m.stops y = false) ∧ m.stops x = true ∧
      m'.stopNext = false ∧ m'.current? = some x
  | (_, .finished _) => ∀ i, ∀ y ∈ entries i m.quiet φ, m.stops y = false
  | (_, .exhausted) => ∀ y ∈ entries k m.quiet φ, m.stops y = false

theorem run_passes (k : Nat) (m : Machine) (φ : Focus) : Passed k m φ (run k m φ) := by
  induction k generalizing m φ with
  | zero => exact List.forall_mem_nil _
  | succ k ih =>
    rw [run]
    rcases hs : m.step φ with ⟨m₁, p⟩
    have hstep := step_entry m φ
    rw [hs] at hstep
    rcases hstep with ⟨x, h⟩ | h
    · obtain rfl : p = .suspended := h.suspended
      have hq := quiet_step_of_next (m := m) (φ := φ) (by rw [hs]; rfl)
      rw [hs] at hq
      refine ⟨1, [], x, .single hq, ?_, by simp, h.stops, h.latch, ?_⟩
      · rw [entries_step hq, show m.quiet.entered? φ = some x from h.entry]
        rfl
      · rw [current?, h.frames]
        rfl
    · have hentry : ∀ y ∈ (m.quiet.entered? φ).toList, m.stops y = false := fun y hy =>
        h.entry y (Option.mem_toList.1 hy)
      cases p with
      | suspended => exact (h.running rfl).elim
      | finished w =>
        obtain ⟨rfl, hf, rfl⟩ := step_finished hs
        intro i y hy
        cases i with
        | zero => cases hy
        | succ i =>
          have hf' : m₁.quiet.frames = [] := hf
          simp [entries, entered?, step, hf'] at hy
      | running ψ =>
        have hq := quiet_step_of_next (m := m) (φ := φ) (by rw [hs]; rfl)
        rw [hs] at hq
        have hi := ih m₁ ψ
        have hstops : m₁.stops = m.stops := funext h.stops
        dsimp only
        rcases hres : run k m₁ ψ with ⟨m', s⟩
        rw [hres] at hi
        have hmore : ∀ i, (∀ y ∈ entries i m₁.quiet ψ, m₁.stops y = false) →
            ∀ y ∈ entries (i + 1) m.quiet φ, m.stops y = false := by
          intro i hall y hy
          rw [entries_step hq] at hy
          rcases List.mem_append.1 hy with hy | hy
          · exact hentry y hy
          · rw [← hstops]
            exact hall y hy
        cases s with
        | suspended =>
          obtain ⟨i, xs, x, hp, he, hxs, hx, hl, hc⟩ := hi
          refine ⟨i + 1, (m.quiet.entered? φ).toList ++ xs, x, .step hq hp, ?_, fun y hy => ?_, ?_, hl,
            hc⟩
          · rw [entries_step hq, he, List.append_assoc]
          · rcases List.mem_append.1 hy with hy | hy
            · exact hentry y hy
            · rw [← hstops]
              exact hxs y hy
          · rw [← hstops]
            exact hx
        | finished v =>
          intro i
          cases i with
          | zero => exact List.forall_mem_nil _
          | succ i => exact hmore i (hi i)
        | exhausted => exact hmore k hi

/-! ## Positions -/

/-- The machine at the start of an evaluation without breakpoints. -/
def unstopped (m : Machine) : Machine :=
  fresh { m with breakpoints := {} }

/-- In the evaluation of `n` by `m` without breakpoints the entry at position `i` is that of `x`. -/
def EnteredAt (m : Machine) (n : Node) (i : Nat) (x : Node) : Prop :=
  ∃ k, (entries k m.unstopped (.enter n))[i]? = some x

/-- The machine `m'` is stopped at position `i` in the evaluation of `n` by `m`. -/
def StoppedAt (m : Machine) (n : Node) (i : Nat) (m' : Machine) : Prop :=
  m'.stopNext = false ∧ ∃ k xs x, Path k m.unstopped (.enter n) m'.quiet .begin ∧
    entries k m.unstopped (.enter n) = xs ++ [x] ∧ xs.length = i ∧ m'.current? = some x

/-- Of the positions from `first` on, `i` is the first one with a node `x` to stop at. -/
structure FirstStop (m : Machine) (n : Node) (first : Nat) (stops : Node → Bool) (i : Nat) (x : Node) :
    Prop where
  le : first ≤ i
  entered : EnteredAt m n i x
  told : stops x = true
  earlier : ∀ j y, first ≤ j → j < i → EnteredAt m n j y → stops y = false

/-- How a call ends that goes on with the position `first`: it stops at the first position with a node
to stop at, or the evaluation ends as it does without breakpoints and there is no such position. -/
def Meets (m : Machine) (n : Node) (first : Nat) (stops : Node → Bool) : Machine × Status → Prop
  | (m', .suspended) => ∃ i x, FirstStop m n first stops i x ∧ StoppedAt m n i m' ∧
      m'.stack.getLast? = some x
  | (m', .finished v) => (∀ i x, first ≤ i → EnteredAt m n i x → stops x = false) ∧
      ∃ k, run k m.unstopped (.enter n) = (m'.quiet, .finished v)
  | (_, .exhausted) => True

/-- A call goes on with the position `first` and stops at the nodes given. With enough steps it does
return, if there is a position to stop at or the evaluation ends at all. -/
structure GoesOnTo (m : Machine) (n : Node) (first : Nat) (stops : Node → Bool)
    (call : Nat → Except Misuse (Machine × Status)) : Prop where
  meets : ∀ steps, ∃ r, call steps = .ok r ∧ Meets m n first stops r
  returns : (∃ i x, first ≤ i ∧ EnteredAt m n i x ∧ stops x = true) ∨
      (∃ k m' v, run k m.unstopped (.enter n) = (m', .finished v)) →
    ∃ bound, ∀ steps, bound ≤ steps → ∀ r, call steps = .ok r → r.2 ≠ .exhausted

theorem getElem?_of_initial {xs ys : List Node} (h : xs <+: ys) (hx : xs[i]? = some x) :
    ys[i]? = some x := by
  obtain ⟨zs, rfl⟩ := h
  obtain ⟨hlt, -⟩ := List.getElem?_eq_some_iff.1 hx
  rwa [List.getElem?_append_left hlt]

/-- Positions in the rest of the evaluation. -/
theorem enteredAt_iff (hp : Path k m.unstopped (.enter n) m₁ φ₁) (i : Nat) (x : Node) :
    EnteredAt m n ((entries k m.unstopped (.enter n)).length + i) x ↔
      ∃ j, (entries j m₁ φ₁)[i]? = some x := by
  have hget : ∀ j, (entries (k + j) m.unstopped (.enter n))[
      (entries k m.unstopped (.enter n)).length + i]? = (entries j m₁ φ₁)[i]? := by
    intro j
    rw [entries_of_path hp, List.getElem?_append_right (Nat.le_add_right _ _), Nat.add_sub_cancel_left]
  constructor
  · rintro ⟨j, hj⟩
    exact ⟨j, (hget j).symm.trans (getElem?_of_initial (entries_mono (Nat.le_add_left j k) _ _) hj)⟩
  · rintro ⟨j, hj⟩
    exact ⟨k + j, (hget j).trans hj⟩

/-- **A run goes on to the first position with a node to stop at.** -/
theorem goesOnTo_run (hp : Path k m.unstopped (.enter n) m₁.quiet φ₁) {first : Nat}
    (hfirst : (entries k m.unstopped (.enter n)).length = first)
    {call : Nat → Except Misuse (Machine × Status)}
    (hcall : ∀ steps, call steps = .ok (run steps m₁ φ₁)) : GoesOnTo m n first m₁.stops call := by
  have hat : ∀ i x, EnteredAt m n (first + i) x ↔ ∃ j, (entries j m₁.quiet φ₁)[i]? = some x :=
    fun i x => hfirst ▸ enteredAt_iff hp i x
  constructor
  · intro steps
    refine ⟨_, hcall steps, ?_⟩
    have hpass := run_passes steps m₁ φ₁
    have hmirror := mirrors_run steps m₁ φ₁
    rcases hr : run steps m₁ φ₁ with ⟨m', s⟩
    rw [hr] at hpass hmirror
    cases s with
    | suspended =>
      obtain ⟨i, xs, x, hpi, he, hxs, hx, hl, hc⟩ := hpass
      have hlast : (entries i m₁.quiet φ₁)[xs.length]? = some x := by simp [he]
      refine ⟨first + xs.length, x, ⟨Nat.le_add_right _ _, (hat _ x).2 ⟨i, hlast⟩, hx, ?_⟩,
        ⟨hl, k + i, entries k m.unstopped (.enter n) ++ xs, x, hp.trans hpi, ?_, ?_, hc⟩, ?_⟩
      · intro j y hj hlt hy
        -- The entries before the last one are those that were passed over.
        obtain ⟨d, rfl⟩ := Nat.exists_eq_add_of_le hj
        obtain ⟨i', hi'⟩ := (hat d y).1 hy
        have hd : d < xs.length := by omega
        have hxs' : (entries i m₁.quiet φ₁)[d]? = some xs[d] := by
          rw [he, List.getElem?_append_left hd, List.getElem?_eq_getElem hd]
        have h₁ := getElem?_of_initial (entries_mono (Nat.le_max_left i i') _ _) hxs'
        have h₂ := getElem?_of_initial (entries_mono (Nat.le_max_right i i') _ _) hi'
        rw [← Option.some.inj (h₁.symm.trans h₂)]
        exact hxs _ (List.getElem_mem hd)
      · rw [entries_of_path hp, he, List.append_assoc]
      · rw [List.length_append, hfirst]
      · rw [stack, List.getLast?_reverse, List.head?_map]
        exact hc
    | finished v =>
      refine ⟨fun i x hi hx => ?_, k + steps, (run_of_path hp).trans hmirror⟩
      obtain ⟨d, rfl⟩ := Nat.exists_eq_add_of_le hi
      obtain ⟨j, hj⟩ := (hat d x).1 hx
      exact hpass j x (List.mem_of_getElem? hj)
    | exhausted => trivial
  · intro hdue
    -- A call without enough steps has passed over all the entries of its steps.
    have hexhausted : ∀ steps r, call steps = .ok r → r.2 = .exhausted →
        (∀ y ∈ entries steps m₁.quiet φ₁, m₁.stops y = false) ∧
          ∃ m' φ', Path steps m₁.quiet φ₁ m' φ' := by
      intro steps r hr he
      obtain rfl := Except.ok.inj ((hcall steps).symm.trans hr)
      have hpass := run_passes steps m₁ φ₁
      have hmirror := mirrors_run steps m₁ φ₁
      rcases hrun : run steps m₁ φ₁ with ⟨m', s⟩
      rw [hrun] at hpass hmirror he
      obtain rfl : s = .exhausted := he
      exact ⟨hpass, path_of_run_exhausted hmirror⟩
    rcases hdue with ⟨i, x, hi, hx, hs⟩ | ⟨j, m', v, hj⟩
    · obtain ⟨d, rfl⟩ := Nat.exists_eq_add_of_le hi
      obtain ⟨j, hj⟩ := (hat d x).1 hx
      refine ⟨j, fun steps hle r hr he => ?_⟩
      have hmem := List.mem_of_getElem? (getElem?_of_initial (entries_mono hle _ _) hj)
      simp [(hexhausted steps r hr he).1 x hmem] at hs
    · refine ⟨j, fun steps hle r hr he => ?_⟩
      obtain ⟨m₂, φ₂, hpath⟩ := (hexhausted steps r hr he).2
      have := (hp.trans hpath).lt_of_run_finished hj
      omega

/-! ## Calls -/

/-- The evaluation of `n` by `m` stops exactly where it is told, under any breakpoints. -/
structure Punctual (m : Machine) (n : Node) : Prop where
  start : GoesOnTo m n 0 m.breakpoints.stopsAt fun steps => m.start n steps
  resume : ∀ i m', StoppedAt m n i m' → ∀ b : Breakpoints,
    GoesOnTo m n (i + 1) b.stopsAt fun steps => { m' with breakpoints := b }.resume steps
  stepIn : ∀ i m', StoppedAt m n i m' → ∀ b : Breakpoints,
    GoesOnTo m n (i + 1) (fun _ => true) fun steps =>
      { m' with breakpoints := b }.stepIn steps

/-- **An evaluation stops at the first position that it is told to, and nowhere else**, for all trees
that have been read in turn, on every machine with the standard host. -/
theorem stops_in_order {ts : List Node} {next : Nat} (ht : ReadInTurn ts next)
    (hm : Reached Host.standard ts (m, none)) (hi : m.isPending = false) (hn : n ∈ ts) :
    Punctual m n := by
  have hP := ht.program
  have hperp := orderly_perpetual hP
  have hstart : Orderly (nodesOf ts) m.unstopped (.enter n) :=
    hperp.start _ n (hperp.of_reached (settled_always (Host.tame_standard _))
      (hm.turn (.breakpoints m {}))) hi hn
  -- A stopped machine is orderly, whatever the breakpoints are.
  have hstopped : ∀ i m', StoppedAt m n i m' → ∀ b s, Orderly (nodesOf ts) (m'.withStops b s) .begin := by
    rintro i m' ⟨-, k, -, -, hp, -⟩ b s
    have hq : Orderly (nodesOf ts) m'.quiet .begin := hp.preserves (Orderly.lasting hP).step hstart
    exact (Orderly.lasting hP).stops m'.quiet .begin b s hq
  have hresume : ∀ i m', StoppedAt m n i m' → ∀ b s steps,
      (m'.withStops b s).resume steps = .ok (run steps (m'.withStops b s) .begin) := by
    intro i m' h b s steps
    have ho := hstopped i m' h b s
    rw [Machine.resume, if_pos (isPending_of_poised ho.poised), resumption_eq_of_calm ho.calm]
  -- The entries up to a stop are those at the positions before it and the one it is at.
  have hposition : ∀ i m', StoppedAt m n i m' → ∀ b s, ∃ k,
      Path k m.unstopped (.enter n) (m'.withStops b s).quiet .begin ∧
        (entries k m.unstopped (.enter n)).length = i + 1 := by
    rintro i m' ⟨-, k, xs, x, hp, he, rfl, -⟩ b s
    exact ⟨k, hp, by simp [he]⟩
  refine ⟨?_, fun i m' h b => ?_, fun i m' h b => ?_⟩
  · have hp : Path 0 m.unstopped (.enter n) m.fresh.quiet (.enter n) := .refl _ _
    exact goesOnTo_run hp rfl fun steps => start_eq hi n steps
  · obtain ⟨k, hp, hlen⟩ := hposition i m' h b false
    have hstops : (m'.withStops b false).stops = b.stopsAt := rfl
    have hm' : ({ m' with breakpoints := b } : Machine) = m'.withStops b false := by
      rw [withStops, h.1]
    rw [← hstops, hm']
    exact goesOnTo_run hp hlen fun steps => hresume i m' h b false steps
  · obtain ⟨k, hp, hlen⟩ := hposition i m' h b true
    have hstops : (m'.withStops b true).stops = fun _ => true := rfl
    rw [← hstops]
    refine goesOnTo_run hp hlen fun steps => ?_
    have hpending := isPending_of_poised (hstopped i m' h b m'.stopNext).poised
    exact (if_pos hpending).trans (hresume i m' h b true steps)

/-- A loop with a call, on a new machine. -/
theorem stops_in_order_loop :
    Punctual {} ((Parser.new {}).parse "var i = 0; while (i < 3) i = i + Number('1'); i").1 :=
  stops_in_order (.read _ (.none 1) (.new {} 1) (Nat.le_refl 1)) (reached_new _ _ 1) rfl
    (List.mem_append_right [] (List.mem_singleton_self _))

end Steppable.Machine
