import Steppable.Machine.Step

/-!
# Stacks of cells

Every operation on cells is described by what it does to the stacks of the declarations. Variables
begin and end in pairs, so what counts is not the top of a stack but what is left of it when some
variables have ended: `below s ds` is the stack of each declaration without the cells of `ds`. To
begin variables, to end them, to write and to capture all leave it as it is, if `ds` grows and
shrinks with the variables that begin and end.
-/

namespace Steppable

/-- How often a declaration is listed. -/
def occurrences (d : Declaration) (ds : List Declaration) : Nat :=
  ds.countP (·.id == d.id)

theorem occurrences_cons (d e : Declaration) (ds : List Declaration) :
    occurrences d (e :: ds) = occurrences d ds + if e.id = d.id then 1 else 0 := by
  simp [occurrences, List.countP_cons]

theorem occurrences_append (d : Declaration) (ds es : List Declaration) :
    occurrences d (ds ++ es) = occurrences d ds + occurrences d es :=
  List.countP_append

theorem occurrences_perm (d : Declaration) {ds es : List Declaration} (h : ds.Perm es) :
    occurrences d ds = occurrences d es :=
  h.countP_eq _

/-- The variables of several frames. -/
def owned (fs : List Frame) : List Declaration :=
  fs.flatMap Frame.ownVariables

namespace Cells

/-! ## One operation on one stack -/

theorem stack_push (s : Cells) (d e : Declaration) (cell : Nat) :
    (s.push e cell).stack d = if e.id = d.id then cell :: s.stack d else s.stack d := by
  by_cases h : e.id = d.id
  · simp [stack, push, h]
  · rw [if_neg h, stack_push_of_ne s h]

theorem stack_register (s : Cells) (d e : Declaration) :
    (s.register e).2.stack d =
      if e.id = d.id then (s.register e).1 :: s.stack d else s.stack d := by
  unfold register
  split <;> exact stack_push _ d e _

theorem stack_unregister (s : Cells) (d e : Declaration) :
    (s.unregister e).2.stack d = if e.id = d.id then (s.stack d).tail else s.stack d := by
  have hd : ∀ rest, (if rest.isEmpty then s.activations.erase e.id
      else s.activations.insert e.id rest).getD d.id [] =
        if e.id = d.id then rest else s.stack d := by
    intro rest
    by_cases h : e.id = d.id
    · cases rest with
      | nil => simp [h]
      | cons c rest => simp [h]
    · cases rest with
      | nil => simp [h, Std.TreeMap.getD_erase, stack]
      | cons c rest => simp [h, Std.TreeMap.getD_insert, stack]
  have htail : e.id = d.id → s.stack d = s.stack e := fun h => by simp [stack, h]
  unfold unregister
  split
  · rename_i hs
    split
    · rename_i h
      rw [htail h, hs]
      rfl
    · rfl
  · rename_i cell rest hs
    have : (if e.id = d.id then rest else s.stack d) =
        if e.id = d.id then (s.stack d).tail else s.stack d := by
      split
      · rename_i h
        rw [htail h, hs]
        rfl
      · rfl
    have h := (hd rest).trans this
    generalize (if rest.isEmpty then s.activations.erase e.id
      else s.activations.insert e.id rest) = activations at h
    dsimp only
    split <;> exact h

@[simp]
theorem stack_set (s : Cells) (cell : Nat) (v : Value) (d : Declaration) :
    (s.set cell v).stack d = s.stack d := rfl

@[simp]
theorem stack_capture (s : Cells) (cell : Nat) (d : Declaration) :
    (s.capture cell).stack d = s.stack d := rfl

theorem stack_captureAll (s : Cells) (ds : List Declaration) (d : Declaration) :
    (Machine.captureAll s ds).2.stack d = s.stack d := by
  induction ds generalizing s with
  | nil => rfl
  | cons e ds ih =>
    rw [Machine.captureAll]
    split
    · rfl
    · rename_i cell _
      have := ih (s.capture cell)
      split <;> simp_all

/-! ## What is left when variables have ended -/

/-- The stack of `d` without the cells of the variables `ds`. -/
def below (s : Cells) (ds : List Declaration) (d : Declaration) : List Nat :=
  (s.stack d).drop (occurrences d ds)

@[simp]
theorem below_nil (s : Cells) (d : Declaration) : s.below [] d = s.stack d := rfl

theorem below_perm (s : Cells) {ds es : List Declaration} (h : ds.Perm es) (d : Declaration) :
    s.below ds d = s.below es d := by
  rw [below, below, occurrences_perm d h]

theorem below_append (s : Cells) (es ds : List Declaration) (d : Declaration) :
    s.below (es ++ ds) d = (s.below ds d).drop (occurrences d es) := by
  rw [below, below, occurrences_append, List.drop_drop, Nat.add_comm]

theorem below_of_stack {s t : Cells} (h : ∀ d, t.stack d = s.stack d) (ds : List Declaration)
    (d : Declaration) : t.below ds d = s.below ds d := by
  rw [below, below, h]

theorem below_push (s : Cells) (e : Declaration) (cell : Nat) (ds : List Declaration)
    (d : Declaration) : (s.push e cell).below (e :: ds) d = s.below ds d := by
  rw [below, below, stack_push, occurrences_cons]
  split <;> simp

theorem below_register (s : Cells) (e : Declaration) (ds : List Declaration) (d : Declaration) :
    (s.register e).2.below (e :: ds) d = s.below ds d := by
  rw [below, below, stack_register, occurrences_cons]
  split <;> simp

theorem below_unregister (s : Cells) (e : Declaration) (ds : List Declaration) (d : Declaration) :
    (s.unregister e).2.below ds d = s.below (e :: ds) d := by
  rw [below, below, stack_unregister, occurrences_cons]
  split
  · rw [List.drop_tail]
  · rfl

@[simp]
theorem below_set (s : Cells) (cell : Nat) (v : Value) (ds : List Declaration) (d : Declaration) :
    (s.set cell v).below ds d = s.below ds d := rfl

theorem below_registerAll (s : Cells) (es ds : List Declaration) (d : Declaration) :
    (s.registerAll es).below (es ++ ds) d = s.below ds d := by
  induction es generalizing s ds with
  | nil => rfl
  | cons e es ih =>
    have hp : (e :: es ++ ds).Perm (es ++ e :: ds) := List.perm_middle.symm
    rw [below_perm _ hp]
    exact (ih (s.register e).2 (e :: ds)).trans (below_register s e ds d)

theorem below_bindParams (s : Cells) (es : List Declaration) (vs : List Value)
    (ds : List Declaration) (d : Declaration) :
    (Machine.bindParams s es vs).below (es ++ ds) d = s.below ds d := by
  induction es generalizing s vs ds with
  | nil => rfl
  | cons e es ih =>
    have hp : (e :: es ++ ds).Perm (es ++ e :: ds) := List.perm_middle.symm
    rw [below_perm _ hp, Machine.bindParams, ih, below_set, below_register]

theorem below_pushAll (s : Cells) (cs : List (Declaration × Nat)) (ds : List Declaration)
    (d : Declaration) :
    (cs.foldl (fun s (e, cell) => s.push e cell) s).below (cs.map (·.1) ++ ds) d =
      s.below ds d := by
  induction cs generalizing s ds with
  | nil => rfl
  | cons c cs ih =>
    obtain ⟨e, cell⟩ := c
    have hp : (e :: (cs.map (·.1)) ++ ds).Perm (cs.map (·.1) ++ e :: ds) := List.perm_middle.symm
    rw [List.map_cons, below_perm _ hp]
    exact (ih (s.push e cell) (e :: ds)).trans (below_push s e cell ds d)

/-- An activation begins the free variables of its function and its parameters. -/
theorem below_activate (s : Cells) (callee : Closure) (vs : List Value) (ds : List Declaration)
    (d : Declaration) :
    (Machine.activate s callee vs).below (callee.captures.map (·.1) ++ callee.code.params ++ ds) d =
      s.below ds d := by
  have hp : (callee.captures.map (·.1) ++ callee.code.params ++ ds).Perm
      (callee.code.params ++ (callee.captures.map (·.1) ++ ds)) := by
    rw [← List.append_assoc]
    exact List.perm_append_comm.append_right ds
  rw [below_perm _ hp, Machine.activate, below_bindParams, below_pushAll]

theorem below_unregisterAll (s : Cells) (es ds : List Declaration) (d : Declaration) :
    (s.unregisterAll es).below ds d = s.below (es ++ ds) d := by
  have h : ∀ (es : List Declaration) (s : Cells),
      (es.foldl (fun s e => (s.unregister e).2) s).below ds d = s.below (es ++ ds) d := by
    intro es
    induction es with
    | nil => exact fun s => rfl
    | cons e es ih => exact fun s => (ih _).trans (below_unregister s e (es ++ ds) d)
  rw [unregisterAll, h]
  exact below_perm s (es.reverse_perm.append_right ds) d

/-! ## Frames -/

theorem below_leave (s : Cells) (f : Frame) (ds : List Declaration) (d : Declaration) :
    (s.leave f).below ds d = s.below (f.ownVariables ++ ds) d :=
  below_unregisterAll s f.ownVariables ds d

theorem below_unwind (s : Cells) (fs : List Frame) (ds : List Declaration) (d : Declaration) :
    (s.unwind fs).below ds d = s.below (owned fs ++ ds) d := by
  induction fs generalizing s with
  | nil => rfl
  | cons f fs ih =>
    have h := (ih (s.leave f)).trans (below_leave s f (owned fs ++ ds) d)
    rw [owned, List.flatMap_cons, List.append_assoc]
    exact h

end Cells

end Steppable
