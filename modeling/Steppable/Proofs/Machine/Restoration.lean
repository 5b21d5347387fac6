import Steppable.Proofs.Cells.Stack
import Steppable.Proofs.Machine.Reaction

/-!
# Scopes are restored

A frame that opens variables ends them when it is popped. So a step changes the frames at the top of
the stack and, with them, the variables that these have opened, and what is left of the stacks of
cells without these variables is as before (`Shift`, `shift_step`). Hence the stacks without the
variables of any frame, the *floor* of the machine, are the same at every moment of an evaluation
(`floor_step`), also when it is taken up again after a stop (`floor_resumption`). When no frame is
left, the floor is all there is.

The law holds for every tree and every host, for it only depends on frames being popped with the
variables they have opened.
-/

namespace Steppable

theorem owned_of_core {fs gs : List Frame} (h : fs.map Frame.core = gs.map Frame.core) :
    owned fs = owned gs := by
  induction fs generalizing gs with
  | nil =>
    cases gs with
    | nil => rfl
    | cons g gs => simp at h
  | cons f fs ih =>
    cases gs with
    | nil => simp at h
    | cons g gs =>
      rw [List.map_cons, List.map_cons, List.cons.injEq] at h
      obtain ⟨hfg, h⟩ := h
      obtain ⟨hn, hφ⟩ := Prod.mk.inj hfg
      have hown : f.ownVariables = g.ownVariables := by
        unfold Frame.ownVariables
        rw [hn, hφ]
      rw [owned, owned, List.flatMap_cons, List.flatMap_cons, hown]
      exact congrArg _ (ih h)

theorem owned_append (fs gs : List Frame) : owned (fs ++ gs) = owned fs ++ owned gs :=
  List.flatMap_append

theorem owned_singleton (f : Frame) : owned [f] = f.ownVariables := by
  simp [owned]

namespace Machine

variable {m m' m₁ : Machine} {f : Frame} {outer : List Frame} {d : Declaration} {φ : Focus}

/-- The top frame has opened no variables. -/
def TopBare (m : Machine) : Prop :=
  ∀ f ∈ m.frames.head?, f.phase.isBare = true

theorem Alike.topBare (h : Alike m m') (hb : TopBare m) : TopBare m' := by
  intro f hf
  have hh : (m'.frames.map Frame.core).head? = some f.core := by rw [List.head?_map, hf]; rfl
  rw [h.frames, List.head?_map] at hh
  obtain ⟨g, hg, hc⟩ := Option.map_eq_some_iff.1 hh
  rw [← show g.phase = f.phase from congrArg Prod.snd hc]
  exact hb g hg

theorem topBare_cons (h : m.frames = f :: outer) (hf : f.phase.isBare = true) : TopBare m := by
  intro g hg
  rw [h, List.head?_cons, Option.mem_some_iff] at hg
  exact hg ▸ hf

/-! ## Changes at the top of the stack -/

/-- While `m` did `φ` and became `m'`, frames `top` at the top of the stack were replaced by `top'`,
and the stacks of cells without the variables of these frames are the same. A frame is left to write
to a cell only if a reference to it has just arrived. -/
def Shift (φ : Focus) (m m' : Machine) : Prop :=
  ∃ top top' base base', m.frames = top ++ base ∧ m'.frames = top' ++ base' ∧
    base'.map Frame.core = base.map Frame.core ∧
    (∀ ds d, m'.cells.below (owned top' ++ ds) d = m.cells.below (owned top ++ ds) d) ∧
    ∀ f ∈ top', ∀ c, f.phase = .assigned c →
      top' = [f] ∧ φ = .give (.reference c) ∧ m'.cells = m.cells

/-- Nothing but what a host remembers has changed. -/
theorem Alike.shift_of (ha : Alike m m₁) (h : Shift φ m₁ m') : Shift φ m m' := by
  obtain ⟨top, top', base, base', hm₁, hm', hbase, hbelow, hassigned⟩ := h
  have hf := ha.frames
  rw [hm₁, List.map_append] at hf
  obtain ⟨t, b, hsplit, ht, hb⟩ := List.map_eq_append_iff.1 hf.symm
  refine ⟨t, top', b, base', hsplit, hm', hbase.trans hb.symm, fun ds d => ?_, ?_⟩
  · rw [hbelow, ha.cells, owned_of_core ht]
  · rwa [← ha.cells]

theorem shift_finish (m : Machine) (v : Value) : Shift φ m (m.finish v).1 := by
  unfold finish
  split
  · exact ⟨[], [], m.frames, m.frames, rfl, rfl, rfl, fun _ _ => rfl, by simp⟩
  · rename_i f outer h
    refine ⟨[f], [], outer, outer, h, rfl, rfl, fun ds d => ?_, by simp⟩
    rw [owned_singleton]
    exact Cells.below_leave m.cells f ds d

theorem shift_finishFault (m : Machine) (culprit : Node) (message : String) :
    Shift φ m (m.finishFault culprit message).1 :=
  (alike_fault m culprit message).shift_of (shift_finish _ _)

/-- A frame may wait for something else as long as its variables stay the same. -/
theorem shift_await {ψ : Phase} (n : Node)
    (h : ∀ f ∈ m.frames.head?, { f with phase := ψ }.ownVariables = f.ownVariables)
    (ha : ∀ c, ψ = .assigned c → φ = .give (.reference c)) : Shift φ m (m.await ψ n).1 := by
  unfold await
  split
  · exact ⟨[], [], m.frames, m.frames, rfl, rfl, rfl, fun _ _ => rfl, by simp⟩
  · rename_i f outer hf
    refine ⟨[f], [{ f with phase := ψ }], outer, outer, hf, rfl, rfl, fun ds d => ?_, ?_⟩
    · rw [owned_singleton, owned_singleton, h f (by rw [hf]; rfl)]
    · intro g hg c hc
      obtain rfl := List.mem_singleton.1 hg
      exact ⟨rfl, ha c hc, rfl⟩

theorem shift_await_bare {ψ : Phase} (n : Node) (hb : TopBare m) (hψ : ψ.isBare = true)
    (ha : ∀ c, ψ = .assigned c → φ = .give (.reference c)) : Shift φ m (m.await ψ n).1 :=
  shift_await n (fun f hf => (Frame.ownVariables_of_isBare hψ).trans
    (Frame.ownVariables_of_isBare (hb f hf)).symm) ha

theorem shift_consult (n : Node) (rules : List Host.Rule) (hb : TopBare m) :
    Shift φ m (consult n rules m).1 := by
  obtain ⟨m₁, ha, ⟨w, h⟩ | ⟨k, rules', a, h, -⟩⟩ := consult_cases n rules m
  · rw [h]
    exact ha.shift_of (shift_finish m₁ w)
  · rw [h]
    exact ha.shift_of (shift_await_bare a (ha.topBare hb) rfl (by simp))

/-! ## Opening variables -/

theorem shift_nextStatement {rest : List Node} (last : Value) (ss : List Node)
    (hf : m.frames = f :: outer) (hφ : f.phase = .statement rest) :
    Shift φ m (m.nextStatement last ss).1 := by
  cases ss with
  | nil => exact shift_finish m last
  | cons s ss =>
    refine shift_await s (fun g hg => ?_) (by simp)
    rw [hf, List.head?_cons, Option.mem_some_iff] at hg
    subst hg
    unfold Frame.ownVariables
    rw [hφ]
    cases f.node <;> rfl

theorem shift_nextArgument (callee : Closure) (done : List Value) (as : List Node)
    (hf : m.frames = f :: outer) (hb : f.phase.isBare = true) :
    Shift φ m (m.nextArgument callee done as).1 := by
  cases as with
  | cons a as => exact shift_await_bare a (topBare_cons hf hb) rfl (by simp)
  | nil =>
    refine ⟨[f], [{ f with phase := .running callee }], outer, outer, hf, ?_, rfl, fun ds d => ?_,
      by simp⟩
    · simp [nextArgument, await, hf]
    · rw [owned_singleton, owned_singleton, Frame.ownVariables_of_isBare hb]
      simp only [nextArgument, await, hf]
      exact Cells.below_activate m.cells callee done ds d

theorem shift_call (n : Node) (callee : Closure) (hf : m.frames = f :: outer)
    (hb : f.phase.isBare = true) : Shift φ m (m.call n callee).1 := by
  have hown : owned [f] = [] := by rw [owned_singleton, Frame.ownVariables_of_isBare hb]
  unfold call
  rw [hf]
  cases n.arguments with
  | cons a as =>
    refine ⟨[f], [{ node := n, phase := .argument callee [] as }, { f with phase := .activation }],
      outer, outer, hf, rfl, rfl, fun ds d => ?_, by simp⟩
    rw [hown]
    rfl
  | nil =>
    refine ⟨[f], [{ node := n, phase := .running callee }, { f with phase := .activation }],
      outer, outer, hf, rfl, rfl, fun ds d => ?_, by simp⟩
    have hcalled : owned [{ node := n, phase := .running callee }, { f with phase := .activation }] =
        callee.captures.map (·.1) ++ callee.code.params := List.append_nil _
    rw [hown, hcalled]
    exact Cells.below_activate m.cells callee [] ds d

/-- A block that begins opens its locals. -/
theorem shift_block {ss : List Node} {t : Tag} {locals : List Declaration}
    (hf : m.frames = f :: outer) (hn : f.node = .block t ss locals) (hb : f.phase.isBare = true) :
    Shift φ m ({ m with
      frames := { f with phase := .statement ss } :: outer
      cells := m.cells.registerAll locals }.nextStatement .undefined ss).1 := by
  have hown : ∀ rest, ({ f with phase := .statement rest } : Frame).ownVariables = locals := by
    intro rest
    unfold Frame.ownVariables
    simp only [hn]
  cases ss with
  | nil =>
    refine ⟨[f], [], outer, outer, hf, rfl, rfl, fun ds d => ?_, by simp⟩
    rw [owned_singleton, Frame.ownVariables_of_isBare hb]
    simp only [nextStatement, finish, give]
    rw [show owned [] = [] from rfl, List.nil_append, Cells.below_leave, hown,
      Cells.below_registerAll]
  | cons s ss =>
    refine ⟨[f], [{ f with phase := .statement ss }], outer, outer, hf, rfl, rfl, fun ds d => ?_,
      by simp⟩
    rw [owned_singleton, owned_singleton, Frame.ownVariables_of_isBare hb, hown]
    exact Cells.below_registerAll m.cells locals ds d

/-! ## Steps -/

/-- A step that pushes a bare frame or changes cells without touching a stack. -/
theorem shift_of_stack (top : List Frame) (hf : m'.frames = top ++ m.frames)
    (ht : ∀ f ∈ top, f.phase = .ready) (hs : ∀ d, m'.cells.stack d = m.cells.stack d) :
    Shift φ m m' := by
  have hown : owned top = [] := by
    refine List.flatMap_eq_nil_iff.2 fun f hm => Frame.ownVariables_of_isBare ?_
    rw [ht f hm]
    rfl
  refine ⟨[], top, m.frames, m.frames, rfl, hf, rfl, fun ds d => ?_, fun f hm c hc => ?_⟩
  · rw [hown]
    exact Cells.below_of_stack hs ds d
  · rw [ht f hm] at hc
    cases hc

theorem shift_enter (m : Machine) (n : Node) : Shift φ m (m.enter n).1 := by
  have h := enter_entering m n
  generalize m.enter n = x at h
  cases h with
  | constant | nothing | reference | fault =>
    exact shift_of_stack [] rfl (by simp) fun _ => rfl
  | @function t code captures cells hn hc =>
    have hs := Cells.stack_captureAll m.cells code.free
    rw [hc] at hs
    exact shift_of_stack [] rfl (by simp) hs
  | @named t code captures cells e cell hn hc hd hcell =>
    have hs := Cells.stack_captureAll m.cells code.free
    rw [hc] at hs
    exact shift_of_stack [] rfl (by simp) hs
  | unbound code next message =>
    exact shift_of_stack [] rfl (by simp) (Cells.stack_captureAll m.cells code.free)
  | push =>
    refine shift_of_stack [{ node := n }] ?_ (by simp) fun d => ?_
    · split <;> rfl
    · split <;> rfl

theorem shift_begin (hf : m.frames = f :: outer) (hb : f.phase.isBare = true) :
    Shift φ m (m.begin f.node).1 := by
  have h := begin_beginning m f.node
  generalize m.begin f.node = x at h
  cases h with
  | @await ψ c hw _ ha =>
    exact shift_await_bare c (topBare_cons hf hb) hw.isBare fun c hc => (ha c hc).elim
  | ask => exact shift_consult f.node m.rules (topBare_cons hf hb)
  | block hn hf' =>
    rw [hf] at hf'
    cases hf'
    exact shift_block hf hn hb
  | jump | finish => exact shift_finish m _

theorem shift_receiveArgument (n : Node) (distance : Nat) (rules : List Host.Rule) (v : Value)
    (hb : TopBare m) : Shift φ m (m.receiveArgument n distance rules v).1 := by
  unfold receiveArgument
  dsimp only
  split
  · refine (alike_setResult m distance (m.cells.deref v)).shift_of ?_
    unfold finishResolved
    split <;> exact shift_finish _ _
  · have ha := alike_addArgument m distance (m.cells.deref v)
    exact ha.shift_of (shift_consult n rules (ha.topBare hb))

theorem shift_receive (v : Value) (hf : m.frames = f :: outer) :
    Shift (.give v) m (m.receive f v).1 := by
  have h := receive_reaction m f v
  generalize m.receive f v = x at h
  cases h with
  | pass | abrupt | yield | result | unwrap => exact shift_finish m _
  | fault culprit message => exact shift_finishFault m culprit message
  | @write cell x w =>
    refine ⟨[f], [], outer, outer, hf, by simp [finish, hf, give], rfl, fun ds d => ?_, by simp⟩
    rw [owned_singleton]
    simp only [finish, hf, give]
    exact Cells.below_leave (m.cells.set cell x) f ds d
  | await hb hw _ ha =>
    exact shift_await_bare _ (topBare_cons hf hb) hw.isBare fun c hc => by rw [ha c hc]
  | statement hφ => exact shift_nextStatement _ _ hf hφ
  | call hφ => exact shift_call f.node _ hf (by rw [hφ]; rfl)
  | members hφ => exact shift_consult f.node _ (topBare_cons hf (by rw [hφ]; rfl))
  | argument hφ => exact shift_nextArgument _ _ _ hf (by rw [hφ]; rfl)
  | ask hφ => exact shift_receiveArgument f.node _ _ v (topBare_cons hf (by rw [hφ]; rfl))

/-- **A step changes the top of the stack only.** A node that begins has opened no variables yet. -/
theorem shift_step (hb : φ = .begin → TopBare m) : Shift φ m (m.step φ).1 := by
  cases φ with
  | enter n => exact shift_enter m n
  | begin =>
    rw [step]
    split
    · rename_i f outer hf
      exact shift_begin hf (hb rfl f (by rw [hf]; rfl))
    · exact shift_of_stack [] rfl (by simp) fun _ => rfl
  | give v =>
    rw [step]
    split
    · rename_i f outer hf
      exact shift_receive v hf
    · exact shift_of_stack [] rfl (by simp) fun _ => rfl

/-! ## The floor -/

/-- The stack of `d` without the variables of the frames. -/
def floor (m : Machine) (d : Declaration) : List Nat :=
  m.cells.below (owned m.frames) d

theorem floor_of_frames_nil (h : m.frames = []) (d : Declaration) : m.floor d = m.cells.stack d := by
  rw [floor, h]
  rfl

/-- What changes at the top of the stack leaves the floor as it is. -/
theorem Shift.floor_eq (h : Shift φ m m') (d : Declaration) : m'.floor d = m.floor d := by
  obtain ⟨top, top', base, base', hm, hm', hbase, hbelow, -⟩ := h
  rw [floor, floor, hm, hm', owned_append, owned_append, owned_of_core hbase]
  exact hbelow (owned base) d

/-- **No step changes the floor.** -/
theorem floor_step (hb : φ = .begin → TopBare m) (d : Declaration) :
    (m.step φ).1.floor d = m.floor d :=
  (shift_step hb).floor_eq d

/-! ## Taking up a stopped evaluation -/

/-- A frame that is taken up ends, asks its host again or waits on. -/
theorem takeUp_cases (m : Machine) (f : Frame) :
    (∃ v, m.takeUp f = m.finish v) ∨
      (f.phase.isBare = true ∧ m.takeUp f = consult f.node m.rules m) ∨
      m.takeUp f = (m, .running .begin) := by
  unfold takeUp
  split
  · exact .inl ⟨_, rfl⟩
  · rename_i hφ _
    exact .inr (.inl ⟨by rw [hφ]; rfl, rfl⟩)
  · exact .inr (.inr rfl)

theorem shift_takeUp (hf : m.frames = f :: outer) : Shift .begin m (m.takeUp f).1 := by
  rcases takeUp_cases m f with ⟨v, h⟩ | ⟨hb, h⟩ | h
  · rw [h]
    exact shift_finish m v
  · rw [h]
    exact shift_consult f.node m.rules (topBare_cons hf hb)
  · rw [h]
    exact shift_of_stack [] rfl (by simp) fun _ => rfl

/-- A frame that is not ended when it is taken up stays what it is, or waits for an argument. -/
theorem frames_takeUp (hf : m.frames = f :: outer) :
    (∃ v, (m.takeUp f).2 = .running (.give v)) ∨
      ∃ φ, (φ = f.phase ∨ φ.isBare = true) ∧
        (m.takeUp f).1.frames.map Frame.core = (f.node, φ) :: outer.map Frame.core := by
  rcases takeUp_cases m f with ⟨v, h⟩ | ⟨hb, h⟩ | h
  · exact .inl ⟨v, by rw [h, finish_snd]⟩
  · obtain ⟨m₁, ha, ⟨w, hc⟩ | ⟨k, rules, a, hc, -⟩⟩ := consult_cases f.node m.rules m
    · exact .inl ⟨w, by rw [h, hc, finish_snd]⟩
    · refine .inr ⟨.asking k rules, .inr rfl, ?_⟩
      have hfr := ha.frames
      rw [hf] at hfr
      rw [h, hc, await]
      split
      · rename_i hnil
        simp [hnil] at hfr
      · rename_i f₁ outer₁ hcons
        rw [hcons, List.map_cons, List.map_cons, List.cons.injEq] at hfr
        rw [List.map_cons, hfr.2]
        exact congrArg (fun n => (n, Phase.asking k rules) :: _) (congrArg Prod.fst hfr.1)
  · exact .inr ⟨f.phase, .inl rfl, by rw [h, hf]; rfl⟩

theorem takeUpAll_cons (f : Frame) (inner : List Frame) (m : Machine) :
    (∃ v m₁, ({ m with frames := f :: m.frames } : Machine).takeUp f = (m₁, .running (.give v)) ∧
      takeUpAll (f :: inner) m =
        ({ m₁ with cells := m₁.cells.unwind inner.reverse }, .give v)) ∨
      (∀ v, (({ m with frames := f :: m.frames } : Machine).takeUp f).2 ≠ .running (.give v)) ∧
        takeUpAll (f :: inner) m =
          takeUpAll inner (({ m with frames := f :: m.frames } : Machine).takeUp f).1 := by
  rw [takeUpAll]
  split
  · rename_i m₁ v h
    exact .inl ⟨v, m₁, h, rfl⟩
  · rename_i m₁ p hne h
    refine .inr ⟨fun v hv => hne v ?_, by rw [h]⟩
    rwa [h] at hv

theorem floor_takeUpAll (inner : List Frame) (m : Machine) (d : Declaration) :
    (takeUpAll inner m).1.floor d = m.cells.below (owned (inner.reverse ++ m.frames)) d := by
  induction inner generalizing m with
  | nil => rfl
  | cons f inner ih =>
    have hm := (shift_takeUp (m := { m with frames := f :: m.frames }) rfl).floor_eq d
    have hr : m.cells.below (owned ((f :: inner).reverse ++ m.frames)) d =
        (floor { m with frames := f :: m.frames } d).drop
          (occurrences d (owned inner.reverse)) := by
      rw [List.reverse_cons, List.append_assoc, owned_append, Cells.below_append]
      rfl
    rw [hr, ← hm]
    rcases takeUpAll_cons f inner m with ⟨v, m₁, h, ht⟩ | ⟨-, ht⟩
    · rw [ht, h, floor, Cells.below_unwind, Cells.below_append]
      rfl
    · rw [ht, ih, owned_append, Cells.below_append]
      rfl

/-- The frame on top when all frames have been taken up is the innermost one, still bare. -/
theorem topBare_takeUpAll (inner : List Frame) (m : Machine)
    (h : ∀ f ∈ (inner.reverse ++ m.frames).head?, f.phase.isBare = true)
    (hb : (takeUpAll inner m).2 = .begin) : TopBare (takeUpAll inner m).1 := by
  induction inner generalizing m with
  | nil => exact h
  | cons f inner ih =>
    rcases takeUpAll_cons f inner m with ⟨v, m₁, -, ht⟩ | ⟨hne, ht⟩
    · simp [ht] at hb
    · rw [ht] at hb ⊢
      refine ih _ (fun g hg => ?_) hb
      rcases frames_takeUp (m := { m with frames := f :: m.frames }) rfl with ⟨v, hv⟩ | ⟨φ, hφ, hc⟩
      · exact (hne v hv).elim
      · cases hr : inner.reverse with
        | cons e es =>
          refine h g ?_
          rw [hr, List.cons_append, List.head?_cons] at hg
          rw [List.reverse_cons, hr, List.cons_append, List.cons_append, List.head?_cons]
          exact hg
        | nil =>
          -- `f` is the innermost frame, and it keeps its phase or waits for an argument.
          rw [hr, List.nil_append] at hg
          have hg' := congrArg List.head? hc
          rw [List.head?_map, hg] at hg'
          have hgφ : g.phase = φ := congrArg Prod.snd (Option.some.inj hg')
          rcases hφ with rfl | hφ
          · rw [hgφ]
            exact h f (by rw [List.reverse_cons, hr]; rfl)
          · rw [hgφ, hφ]

theorem settings_takeUpAll (inner : List Frame) (m : Machine) :
    (takeUpAll inner m).1.settings = m.settings := by
  induction inner generalizing m with
  | nil => rfl
  | cons f inner ih =>
    have hf : (({ m with frames := f :: m.frames } : Machine).takeUp f).1.settings = m.settings := by
      rcases takeUp_cases { m with frames := f :: m.frames } f with ⟨v, h⟩ | ⟨-, h⟩ | h
      · rw [h]
        exact settings_finish _ v
      · rw [h]
        exact settings_consult _ _ _
      · rw [h]
        rfl
    rcases takeUpAll_cons f inner m with ⟨v, m₁, h, ht⟩ | ⟨-, ht⟩
    · rw [h] at hf
      rw [ht]
      exact hf
    · rw [ht, ih, hf]

theorem settings_resumption (m : Machine) : m.resumption.1.settings = m.settings :=
  settings_takeUpAll _ _

/-! ## Evaluations -/

/-- The floor is `base`, and a node that is to begin has opened no variables. -/
def Steady (base : Declaration → List Nat) (m : Machine) (φ : Focus) : Prop :=
  (∀ d, m.floor d = base d) ∧ (φ = .begin → TopBare m)

theorem Steady.step {base : Declaration → List Nat} (m : Machine) (φ φ' : Focus)
    (h : Steady base m φ) (hn : (m.step φ).2.next? = some φ') : Steady base (m.step φ).1 φ' := by
  refine ⟨fun d => (floor_step h.2 d).trans (h.1 d), fun hb => ?_⟩
  subst hb
  obtain ⟨n, -, -, hf⟩ := frames_of_next_begin hn
  exact topBare_cons hf rfl

theorem Steady.resumption {base : Declaration → List Nat} (h : Steady base m .begin) :
    Steady base m.resumption.1 m.resumption.2 := by
  refine ⟨fun d => ?_, fun hb => ?_⟩
  · refine (floor_takeUpAll m.frames.reverse _ d).trans ?_
    rw [List.reverse_reverse, List.append_nil]
    exact h.1 d
  · refine topBare_takeUpAll _ _ (fun f hf => ?_) hb
    rw [List.reverse_reverse, List.append_nil] at hf
    exact h.2 rfl f hf

end Machine

end Steppable
