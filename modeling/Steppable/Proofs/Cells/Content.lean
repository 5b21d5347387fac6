import Steppable.Proofs.Cells.Stack

/-!
# Contents of cells

What every operation on cells does to the value and to the mark of each cell. Only a write changes a
value to another one; to begin or end a variable makes its cell undefined, or leaves it if it is
captured. Only `capture` marks a cell, and only `register` can take the mark away again.

So a property of the undefined value and of every value written is one of the values in all cells
(`Cells.Each`).
-/

namespace Steppable.Cells

theorem getD_setIfInBounds (cs : Array Cell) (i j : Nat) :
    (cs.setIfInBounds i {}).getD j {} = if i = j then {} else cs.getD j {} := by
  simp only [Array.getD_eq_getD_getElem?, Array.getElem?_setIfInBounds]
  by_cases h : i = j
  · subst h
    by_cases hi : i < cs.size <;> simp [hi]
  · simp [h]

theorem getD_push (cs : Array Cell) (j : Nat) : (cs.push {}).getD j {} = cs.getD j {} := by
  simp only [Array.getD_eq_getD_getElem?, Array.getElem?_push]
  split
  · rename_i h
    simp [h]
  · rfl

theorem getD_modify (cs : Array Cell) (i j : Nat) (f : Cell → Cell) :
    (cs.modify i f).getD j {} = if i = j ∧ i < cs.size then f (cs.getD j {}) else cs.getD j {} := by
  simp only [Array.getD_eq_getD_getElem?, Array.getElem?_modify]
  by_cases h : i = j
  · subst h
    by_cases hi : i < cs.size <;> simp [hi]
  · simp [h]

/-! ## Single operations -/

/-- The cell that `register` gives is blank, and every other one is left as it is. -/
theorem getD_register (s : Cells) (d : Declaration) (c : Nat) :
    (s.register d).2.cells.getD c {} =
      if (s.register d).1 = c then {} else s.cells.getD c {} := by
  unfold register
  split
  · exact getD_setIfInBounds s.cells _ c
  · refine (getD_push s.cells c).trans ?_
    split
    · rename_i h
      subst h
      simp
    · rfl

theorem get_register (s : Cells) (d : Declaration) (c : Nat) :
    (s.register d).2.get c = if (s.register d).1 = c then .undefined else s.get c := by
  rw [get, getD_register]
  split <;> rfl

theorem isCaptured_register (s : Cells) (d : Declaration) (c : Nat) :
    (s.register d).2.isCaptured c = if (s.register d).1 = c then false else s.isCaptured c := by
  rw [isCaptured, getD_register]
  split <;> rfl

/-- A variable that ends leaves the cells as they are, or blanks a cell that is not captured. -/
theorem getD_unregister (s : Cells) (d : Declaration) (c : Nat) :
    (s.unregister d).2.cells.getD c {} =
      if s.find? d = some c ∧ s.isCaptured c = false then {} else s.cells.getD c {} := by
  unfold unregister find?
  split
  · rename_i h
    simp [h]
  · rename_i cell rest h
    have hcap : ∀ a, ({ s with activations := a } : Cells).isCaptured cell = s.isCaptured cell :=
      fun _ => rfl
    simp only [h, hcap, List.head?_cons, Option.some.injEq]
    by_cases hc : s.isCaptured cell = true
    · rw [if_pos hc]
      refine (if_neg ?_).symm
      rintro ⟨rfl, hn⟩
      simp [hc] at hn
    · rw [if_neg hc]
      refine (getD_setIfInBounds s.cells cell c).trans ?_
      by_cases he : cell = c
      · subst he
        simp [hc]
      · simp [he]

theorem get_unregister (s : Cells) (d : Declaration) (c : Nat) :
    (s.unregister d).2.get c = s.get c ∨ (s.unregister d).2.get c = .undefined := by
  rw [get, getD_unregister]
  split
  · exact .inr rfl
  · exact .inl rfl

@[simp]
theorem isCaptured_unregister (s : Cells) (d : Declaration) (c : Nat) :
    (s.unregister d).2.isCaptured c = s.isCaptured c := by
  rw [isCaptured, getD_unregister]
  split
  · rename_i h
    exact h.2.symm
  · rfl

theorem isCaptured_unregisterAll (s : Cells) (ds : List Declaration) (c : Nat) :
    (s.unregisterAll ds).isCaptured c = s.isCaptured c := by
  unfold unregisterAll
  induction ds.reverse generalizing s with
  | nil => rfl
  | cons d ds ih => exact (ih _).trans (isCaptured_unregister s d c)

theorem get_set (s : Cells) (cell : Nat) (v : Value) (c : Nat) :
    (s.set cell v).get c = if cell = c ∧ cell < s.cells.size then s.deref v else s.get c := by
  rw [get, set, getD_modify]
  split <;> rfl

@[simp]
theorem isCaptured_set (s : Cells) (cell : Nat) (v : Value) (c : Nat) :
    (s.set cell v).isCaptured c = s.isCaptured c := by
  rw [isCaptured, set, getD_modify]
  split <;> rfl

@[simp]
theorem get_capture (s : Cells) (cell c : Nat) : (s.capture cell).get c = s.get c := by
  rw [get, capture, getD_modify]
  split <;> rfl

theorem isCaptured_capture (s : Cells) (cell c : Nat) :
    (s.capture cell).isCaptured c =
      (decide (cell = c ∧ cell < s.cells.size) || s.isCaptured c) := by
  rw [isCaptured, capture, getD_modify]
  split
  · rename_i h
    rw [decide_eq_true h]
    rfl
  · rename_i h
    rw [decide_eq_false h]
    rfl

@[simp]
theorem get_push (s : Cells) (d : Declaration) (cell c : Nat) : (s.push d cell).get c = s.get c :=
  rfl

@[simp]
theorem isCaptured_push (s : Cells) (d : Declaration) (cell c : Nat) :
    (s.push d cell).isCaptured c = s.isCaptured c := rfl

/-! ## What holds of every value -/

/-- The value in every cell has the property. -/
def Each (P : Value → Prop) (s : Cells) : Prop :=
  ∀ c, P (s.get c)

section

variable {P : Value → Prop} {s : Cells}

theorem Each.register (h : s.Each P) (hP : P .undefined) (d : Declaration) :
    (s.register d).2.Each P := by
  intro c
  rw [get_register]
  split
  · exact hP
  · exact h c

theorem Each.unregister (h : s.Each P) (hP : P .undefined) (d : Declaration) :
    (s.unregister d).2.Each P := by
  intro c
  rcases get_unregister s d c with hc | hc
  · exact hc ▸ h c
  · exact hc ▸ hP

theorem Each.set (h : s.Each P) (cell : Nat) {v : Value} (hv : P (s.deref v)) :
    (s.set cell v).Each P := by
  intro c
  rw [get_set]
  split
  · exact hv
  · exact h c

theorem Each.capture (h : s.Each P) (cell : Nat) : (s.capture cell).Each P := by
  intro c
  rw [get_capture]
  exact h c

theorem Each.registerAll (h : s.Each P) (hP : P .undefined) (ds : List Declaration) :
    (s.registerAll ds).Each P := by
  induction ds generalizing s with
  | nil => exact h
  | cons d ds ih => exact ih (h.register hP d)

theorem Each.unregisterAll (h : s.Each P) (hP : P .undefined) (ds : List Declaration) :
    (s.unregisterAll ds).Each P := by
  unfold Cells.unregisterAll
  induction ds.reverse generalizing s with
  | nil => exact h
  | cons d ds ih => exact ih (h.unregister hP d)

theorem Each.unwind (h : s.Each P) (hP : P .undefined) (fs : List Frame) :
    (s.unwind fs).Each P := by
  induction fs generalizing s with
  | nil => exact h
  | cons f fs ih => exact ih (h.unregisterAll hP f.ownVariables)

theorem Each.captureAll (h : s.Each P) (ds : List Declaration) :
    (Machine.captureAll s ds).2.Each P := by
  induction ds generalizing s with
  | nil => exact h
  | cons d ds ih =>
    rw [Machine.captureAll]
    split
    · exact h
    · rename_i cell _
      have hrest := ih (h.capture cell)
      split
      · rename_i captures s₁ hs
        rwa [hs] at hrest
      · rename_i e s₁ hs
        rwa [hs] at hrest

/-- It is enough that the arguments have the property whenever the cells have it. -/
theorem Each.bindParams (h : s.Each P) (hP : P .undefined) (ds : List Declaration)
    {vs : List Value} (hv : ∀ v ∈ vs, ∀ s' : Cells, s'.Each P → P (s'.deref v)) :
    (Machine.bindParams s ds vs).Each P := by
  induction ds generalizing s vs with
  | nil => exact h
  | cons d ds ih =>
    have hreg := h.register hP d
    have hhead : P ((s.register d).2.deref (vs.headD .undefined)) := by
      cases vs with
      | nil => exact hP
      | cons v vs => exact hv v (by simp) _ hreg
    exact ih (hreg.set _ hhead) fun v hm => hv v (List.mem_of_mem_tail hm)

theorem Each.activate (h : s.Each P) (hP : P .undefined) (callee : Closure) {vs : List Value}
    (hv : ∀ v ∈ vs, ∀ s' : Cells, s'.Each P → P (s'.deref v)) :
    (Machine.activate s callee vs).Each P := by
  refine Each.bindParams ?_ hP callee.code.params hv
  induction callee.captures generalizing s with
  | nil => exact h
  | cons p ps ih => exact ih fun c => h c

end

end Steppable.Cells
