import Steppable.Proofs.Cells.Content

/-!
# Every cell has one use

A cell is free, or belongs to one variable, or is captured. `Partitioned` says so: the free cells are
listed once each and are neither captured nor on a stack, and a cell that is neither free nor
captured is on exactly one stack, once. Beginning and ending variables, writing, capturing what is on
a stack and using a captured cell again keep this.

A cell on a stack or captured is *live*. To end variables changes the value of no cell that is still
live afterwards (`Partitioned.live_unwind`).
-/

namespace Steppable.Cells

variable {s : Cells} {c cell : Nat} {d e : Declaration}

/-- The cell is on one stack only, and there once. -/
def OccursOnce (s : Cells) (c : Nat) : Prop :=
  ∃ d, (s.stack d).count c = 1 ∧ ∀ e, e.id ≠ d.id → c ∉ s.stack e

structure Partitioned (s : Cells) : Prop where
  nodup : s.free.Nodup
  spare : ∀ c ∈ s.free, c < s.cells.size ∧ s.isCaptured c = false ∧ ∀ d, c ∉ s.stack d
  stacked : ∀ d, ∀ c ∈ s.stack d, c < s.cells.size
  once : ∀ c < s.cells.size, s.isCaptured c = false → c ∉ s.free → s.OccursOnce c

theorem stack_congr (s : Cells) (h : d.id = e.id) : s.stack d = s.stack e := by
  rw [stack, stack, h]

theorem partitioned_empty : Partitioned {} := by
  refine ⟨List.nodup_nil, by simp, fun d c hc => ?_, fun c hc => ?_⟩
  · simp [stack] at hc
  · simp at hc

theorem lt_size_of_isCaptured (h : s.isCaptured c = true) : c < s.cells.size := by
  apply Nat.lt_of_not_le
  intro hle
  rw [isCaptured, Array.getD_eq_getD_getElem?, Array.getElem?_eq_none hle] at h
  simp at h

/-- A captured cell is not free. -/
theorem Partitioned.not_mem_free (h : s.Partitioned) (hc : s.isCaptured c = true) : c ∉ s.free := by
  intro hm
  have := (h.spare c hm).2.1
  simp [hc] at this

theorem mem_stack_of_find (h : s.find? d = some c) : c ∈ s.stack d :=
  List.mem_of_mem_head? h

/-- Two tables of cells with the same free cells and stacks, of which the second may have more
captured cells. -/
theorem Partitioned.of_same {s' : Cells} (h : s.Partitioned) (hf : s'.free = s.free)
    (hs : ∀ d, s'.stack d = s.stack d) (hz : s'.cells.size = s.cells.size)
    (hc : ∀ c, s.isCaptured c = true → s'.isCaptured c = true)
    (hn : ∀ c ∈ s.free, s'.isCaptured c = false) : s'.Partitioned where
  nodup := hf ▸ h.nodup
  spare c hm := by
    rw [hf] at hm
    obtain ⟨h₁, -, h₃⟩ := h.spare c hm
    exact ⟨hz ▸ h₁, hn c hm, fun d => hs d ▸ h₃ d⟩
  stacked d c hm := by
    rw [hs] at hm
    exact hz ▸ h.stacked d c hm
  once c hlt hcap hm := by
    have hcap' : s.isCaptured c = false := by
      cases hb : s.isCaptured c with
      | false => rfl
      | true => simp [hc c hb] at hcap
    obtain ⟨d, h₁, h₂⟩ := h.once c (hz ▸ hlt) hcap' (hf ▸ hm)
    exact ⟨d, by rw [hs]; exact h₁, fun e he => by rw [hs]; exact h₂ e he⟩

/-! ## Beginning a variable -/

theorem free_register (s : Cells) (d : Declaration) : (s.register d).2.free = s.free.tail := by
  unfold register
  split
  · rename_i h
    rw [h]
    rfl
  · rename_i h
    rw [push, h]
    rfl

theorem size_register (s : Cells) (d : Declaration) (h : s.Partitioned) :
    (s.register d).1 < (s.register d).2.cells.size ∧
      ∀ c, c < (s.register d).2.cells.size ↔ c < s.cells.size ∨ c = (s.register d).1 := by
  unfold register
  split
  · rename_i cell free hf
    have hlt : cell < s.cells.size := (h.spare cell (by simp [hf])).1
    simp only [push, Array.size_setIfInBounds]
    exact ⟨hlt, fun c => ⟨.inl, fun hc => hc.elim id fun he => he ▸ hlt⟩⟩
  · simp only [push, Array.size_push]
    exact ⟨Nat.lt_succ_self _, fun c => by omega⟩

/-- **The cell that a variable gets was not in use**: it was on no stack and not captured. -/
theorem Partitioned.register_unused (h : s.Partitioned) (d : Declaration) :
    (∀ e, (s.register d).1 ∉ s.stack e) ∧ s.isCaptured (s.register d).1 = false ∧
      (s.register d).1 ∉ s.free.tail := by
  unfold register
  split
  · rename_i cell free hf
    have hs := h.spare cell (by simp [hf])
    have hn := h.nodup
    rw [hf, List.nodup_cons] at hn
    exact ⟨hs.2.2, hs.2.1, by rw [hf]; exact hn.1⟩
  · rename_i hf
    refine ⟨fun e hm => ?_, ?_, by simp [hf]⟩
    · exact Nat.lt_irrefl _ (h.stacked e _ hm)
    · simp [isCaptured]

theorem Partitioned.register (h : s.Partitioned) (d : Declaration) :
    (s.register d).2.Partitioned := by
  obtain ⟨hstack, hcap, hfree⟩ := h.register_unused d
  obtain ⟨hlt, hsize⟩ := size_register s d h
  have hold : ∀ c e, c ≠ (s.register d).1 → ((s.register d).2.stack e).count c = (s.stack e).count c := by
    intro c e hne
    rw [stack_register]
    split
    · rw [List.count_cons_of_ne (Ne.symm hne)]
    · rfl
  have hmem : ∀ c e, c ≠ (s.register d).1 → (c ∈ (s.register d).2.stack e ↔ c ∈ s.stack e) := by
    intro c e hne
    rw [← List.count_pos_iff, ← List.count_pos_iff, hold c e hne]
  refine ⟨?_, fun c hm => ?_, fun e c hm => ?_, fun c hc hn hm => ?_⟩
  · rw [free_register]
    exact h.nodup.sublist (List.tail_sublist _)
  · rw [free_register] at hm
    have hne : c ≠ (s.register d).1 := fun he => hfree (he ▸ hm)
    obtain ⟨h₁, h₂, h₃⟩ := h.spare c (List.mem_of_mem_tail hm)
    refine ⟨(hsize c).2 (.inl h₁), ?_, fun e => ?_⟩
    · rw [isCaptured_register, if_neg (Ne.symm hne), h₂]
    · rw [hmem c e hne]
      exact h₃ e
  · by_cases he : c = (s.register d).1
    · exact he ▸ hlt
    · exact (hsize c).2 (.inl (h.stacked e c ((hmem c e he).1 hm)))
  · by_cases he : c = (s.register d).1
    · -- The new cell is on the stack of `d` only.
      subst he
      refine ⟨d, ?_, fun e hne => ?_⟩
      · rw [stack_register, if_pos rfl, List.count_cons_self, List.count_eq_zero.2 (hstack d)]
      · rw [stack_register, if_neg (Ne.symm hne)]
        exact hstack e
    · rw [isCaptured_register, if_neg (Ne.symm he)] at hn
      rw [free_register] at hm
      have hlt' : c < s.cells.size := ((hsize c).1 hc).resolve_right he
      have hm' : c ∉ s.free := by
        intro hf
        unfold Cells.register at he
        split at he
        · rename_i cell free hcons
          rw [hcons] at hf hm
          rcases List.mem_cons.1 hf with rfl | hf
          · exact he rfl
          · exact hm hf
        · rename_i hnil
          simp [hnil] at hf
      obtain ⟨e, h₁, h₂⟩ := h.once c hlt' hn hm'
      exact ⟨e, (hold c e he).trans h₁, fun e' hne => fun hc' => h₂ e' hne ((hmem c e' he).1 hc')⟩

/-- The cells that declarations get which begin one after the other. -/
def given (s : Cells) : List Declaration → List Nat
  | [] => []
  | d :: ds => (s.register d).1 :: (s.register d).2.given ds

/-- **Variables that begin together get cells of their own that were not in use.** -/
theorem Partitioned.given_unused (h : s.Partitioned) (ds : List Declaration) :
    (s.given ds).Nodup ∧
      ∀ c ∈ s.given ds, (∀ e, c ∉ s.stack e) ∧ s.isCaptured c = false := by
  induction ds generalizing s with
  | nil => exact ⟨List.nodup_nil, by simp [given]⟩
  | cons d ds ih =>
    obtain ⟨hstack, hcap, -⟩ := h.register_unused d
    obtain ⟨hnodup, hrest⟩ := ih (h.register d)
    have hne : ∀ c ∈ (s.register d).2.given ds, c ≠ (s.register d).1 := by
      rintro c hc rfl
      refine (hrest _ hc).1 d ?_
      rw [stack_register, if_pos rfl]
      exact List.mem_cons_self
    refine ⟨List.nodup_cons.2 ⟨fun hm => hne _ hm rfl, hnodup⟩, fun c hc => ?_⟩
    rcases List.mem_cons.1 hc with rfl | hc
    · exact ⟨hstack, hcap⟩
    · obtain ⟨h₁, h₂⟩ := hrest c hc
      refine ⟨fun e he => h₁ e ?_, ?_⟩
      · rw [stack_register]
        split
        · exact List.mem_cons_of_mem _ he
        · exact he
      · rwa [isCaptured_register, if_neg (hne c hc).symm] at h₂

/-! ## Ending a variable -/

theorem size_unregister (s : Cells) (d : Declaration) :
    (s.unregister d).2.cells.size = s.cells.size := by
  unfold unregister
  split
  · rfl
  · rename_i cell rest _
    generalize (if rest.isEmpty then s.activations.erase d.id
      else s.activations.insert d.id rest) = activations
    dsimp only
    split
    · rfl
    · exact Array.size_setIfInBounds

theorem free_unregister (s : Cells) (d : Declaration) :
    (s.unregister d).2.free =
      match s.find? d with
      | some c => if s.isCaptured c then s.free else c :: s.free
      | none => s.free := by
  unfold unregister find?
  split
  · rename_i h
    simp [h]
  · rename_i cell rest h
    have hcap : ∀ a, ({ s with activations := a } : Cells).isCaptured cell = s.isCaptured cell :=
      fun _ => rfl
    simp only [h, hcap, List.head?_cons]
    split <;> rfl

theorem Partitioned.unregister (h : s.Partitioned) (d : Declaration) :
    (s.unregister d).2.Partitioned := by
  cases hs : s.stack d with
  | nil =>
    have : (s.unregister d).2 = s := by
      unfold Cells.unregister
      rw [hs]
    rwa [this]
  | cons cell rest =>
    have hfind : s.find? d = some cell := by simp [find?, hs]
    have hsub : ∀ e c, c ∈ (s.unregister d).2.stack e → c ∈ s.stack e := by
      intro e c hm
      rw [stack_unregister] at hm
      split at hm
      · exact List.mem_of_mem_tail hm
      · exact hm
    -- All that is not the cell of `d` is where it was.
    have hold : ∀ c e, c ≠ cell → ((s.unregister d).2.stack e).count c = (s.stack e).count c := by
      intro c e hne
      rw [stack_unregister]
      split
      · rename_i he
        rw [← s.stack_congr he, hs, List.tail_cons, List.count_cons_of_ne (Ne.symm hne)]
      · rfl
    have hfree := free_unregister s d
    rw [hfind] at hfree
    dsimp only at hfree
    have honce : ∀ c < s.cells.size, s.isCaptured c = false → c ∉ s.free → c ≠ cell →
        (s.unregister d).2.OccursOnce c := by
      intro c hlt hn hm hne
      obtain ⟨e, h₁, h₂⟩ := h.once c hlt hn hm
      exact ⟨e, (hold c e hne).trans h₁, fun e' he' hc => h₂ e' he' (hsub e' c hc)⟩
    have hcell : cell ∈ s.stack d := by simp [hs]
    refine ⟨?_, fun c hm => ?_, fun e c hm => ?_, fun c hlt hn hm => ?_⟩
    · rw [hfree]
      split
      · exact h.nodup
      · exact List.nodup_cons.2 ⟨fun hm => (h.spare cell hm).2.2 d hcell, h.nodup⟩
    · rw [hfree] at hm
      rw [size_unregister, isCaptured_unregister]
      have hspare : c ∈ s.free → c < s.cells.size ∧ s.isCaptured c = false ∧
          ∀ e, c ∉ (s.unregister d).2.stack e := by
        intro hm
        obtain ⟨h₁, h₂, h₃⟩ := h.spare c hm
        exact ⟨h₁, h₂, fun e hc => h₃ e (hsub e c hc)⟩
      split at hm
      · exact hspare hm
      · rename_i hcap
        rcases List.mem_cons.1 hm with rfl | hm
        · -- The cell was on the stack of `d` only, and there once.
          have hcap' : s.isCaptured c = false := by simpa using hcap
          have hlt := h.stacked d c hcell
          refine ⟨hlt, hcap', fun e hc => ?_⟩
          obtain ⟨d', h₁, h₂⟩ := h.once c hlt hcap' fun hm => (h.spare c hm).2.2 d hcell
          have hd : d.id = d'.id := Decidable.byContradiction fun hne => h₂ d hne hcell
          by_cases he : e.id = d'.id
          · rw [stack_unregister, if_pos (hd.trans he.symm)] at hc
            rw [s.stack_congr he, ← s.stack_congr hd, hs, List.tail_cons] at hc
            rw [← s.stack_congr hd, hs, List.count_cons_self] at h₁
            have := List.count_pos_iff.2 hc
            omega
          · exact h₂ e he (hsub e c hc)
        · exact hspare hm
    · rw [size_unregister]
      exact h.stacked e c (hsub e c hm)
    · rw [size_unregister] at hlt
      rw [isCaptured_unregister] at hn
      rw [hfree] at hm
      split at hm
      · rename_i hcap
        refine honce c hlt hn hm ?_
        rintro rfl
        simp [hcap] at hn
      · exact honce c hlt hn (fun hm' => hm (List.mem_cons_of_mem cell hm'))
          fun he => hm (he ▸ List.mem_cons_self)

/-! ## Writing, capturing and using again -/

theorem Partitioned.set (h : s.Partitioned) (cell : Nat) (v : Value) : (s.set cell v).Partitioned :=
  h.of_same rfl (fun _ => rfl) (by simp [Cells.set]) (fun c hc => by simpa using hc)
    fun c hm => by simpa using (h.spare c hm).2.1

theorem Partitioned.capture (h : s.Partitioned) (hd : s.find? d = some cell) :
    (s.capture cell).Partitioned := by
  refine h.of_same rfl (fun _ => rfl) (by simp [Cells.capture]) (fun c hc => ?_) fun c hm => ?_
  · rw [isCaptured_capture, hc, Bool.or_true]
  · have hne : cell ≠ c := by
      rintro rfl
      exact (h.spare cell hm).2.2 d (mem_stack_of_find hd)
    rw [isCaptured_capture, (h.spare c hm).2.1]
    simp [hne]

theorem Partitioned.push (h : s.Partitioned) (hc : s.isCaptured cell = true) (d : Declaration) :
    (s.push d cell).Partitioned := by
  have hold : ∀ c e, c ≠ cell → ((s.push d cell).stack e).count c = (s.stack e).count c := by
    intro c e hne
    rw [stack_push]
    split
    · rw [List.count_cons_of_ne (Ne.symm hne)]
    · rfl
  have hmem : ∀ c e, c ≠ cell → (c ∈ (s.push d cell).stack e ↔ c ∈ s.stack e) := by
    intro c e hne
    rw [← List.count_pos_iff, ← List.count_pos_iff, hold c e hne]
  have hne : ∀ c, s.isCaptured c = false → c ≠ cell := by
    rintro c hn rfl
    simp [hc] at hn
  refine ⟨h.nodup, fun c hm => ?_, fun e c hm => ?_, fun c hlt hn hm => ?_⟩
  · obtain ⟨h₁, h₂, h₃⟩ := h.spare c hm
    exact ⟨h₁, h₂, fun e => fun he => h₃ e ((hmem c e (hne c h₂)).1 he)⟩
  · by_cases he : c = cell
    · rw [he]
      exact lt_size_of_isCaptured (s := s) hc
    · exact h.stacked e c ((hmem c e he).1 hm)
  · obtain ⟨e, h₁, h₂⟩ := h.once c hlt hn hm
    exact ⟨e, (hold c e (hne c hn)).trans h₁,
      fun e' he' => fun hc' => h₂ e' he' ((hmem c e' (hne c hn)).1 hc')⟩

/-! ## Live cells -/

/-- A variable or a function can refer to the cell. -/
def Live (s : Cells) (c : Nat) : Prop :=
  (∃ d, c ∈ s.stack d) ∨ s.isCaptured c = true

theorem live_of_find {s : Cells} {d : Declaration} {c : Nat} (h : s.find? d = some c) : s.Live c :=
  .inl ⟨d, mem_stack_of_find h⟩

theorem Partitioned.lt_of_live {s : Cells} {c : Nat} (h : s.Partitioned) (hc : s.Live c) :
    c < s.cells.size := by
  rcases hc with ⟨d, hd⟩ | hc
  · exact h.stacked d c hd
  · exact lt_size_of_isCaptured hc

theorem Partitioned.not_live_register {s : Cells} (h : s.Partitioned) (d : Declaration) :
    ¬ s.Live (s.register d).1 := by
  obtain ⟨hstack, hcap, -⟩ := h.register_unused d
  rintro (⟨e, he⟩ | hc)
  · exact hstack e he
  · simp [hcap] at hc

/-- The cell that a variable gets becomes live. -/
theorem live_register (s : Cells) (d : Declaration) (c : Nat) :
    (s.register d).2.Live c ↔ c = (s.register d).1 ∨ (c ≠ (s.register d).1 ∧ s.Live c) := by
  by_cases hc : c = (s.register d).1
  · subst hc
    simp only [ne_eq, not_true_eq_false, false_and, or_false, iff_true]
    exact .inl ⟨d, by simp [stack_register]⟩
  · have hstack : ∀ e, c ∈ (s.register d).2.stack e ↔ c ∈ s.stack e := by
      intro e
      rw [stack_register]
      split
      · simp [hc]
      · rfl
    simp only [Live, hstack, isCaptured_register, if_neg (Ne.symm hc), hc, ne_eq, not_false_eq_true,
      true_and, false_or]

/-- What is live after a variable has ended was live, and keeps its value. -/
theorem Partitioned.live_unregister {s : Cells} (h : s.Partitioned) {d : Declaration} {c : Nat}
    (hc : (s.unregister d).2.Live c) : s.Live c ∧ (s.unregister d).2.get c = s.get c := by
  have hlive : s.Live c := by
    rcases hc with ⟨e, he⟩ | hc
    · rw [stack_unregister] at he
      split at he
      · exact .inl ⟨e, List.mem_of_mem_tail he⟩
      · exact .inl ⟨e, he⟩
    · exact .inr (by rwa [isCaptured_unregister] at hc)
  refine ⟨hlive, ?_⟩
  rw [get, getD_unregister, if_neg]
  · rfl
  · -- A cell that is blanked is free afterwards.
    rintro ⟨hd, hcap⟩
    have hfree : c ∈ (s.unregister d).2.free := by
      rw [free_unregister, hd]
      simp [hcap]
    obtain ⟨-, hcap', hstack⟩ := (h.unregister d).spare c hfree
    rcases hc with ⟨e, he⟩ | hc
    · exact hstack e he
    · simp [hcap'] at hc

/-- What is live after several variables have ended was live, and keeps its value. -/
theorem Partitioned.live_unregisterAll {s : Cells} (h : s.Partitioned) (ds : List Declaration) :
    (s.unregisterAll ds).Partitioned ∧ ∀ c, (s.unregisterAll ds).Live c →
      s.Live c ∧ (s.unregisterAll ds).get c = s.get c := by
  unfold unregisterAll
  induction ds.reverse generalizing s with
  | nil => exact ⟨h, fun c hc => ⟨hc, rfl⟩⟩
  | cons d ds ih =>
    obtain ⟨hp, hlive⟩ := ih (h.unregister d)
    refine ⟨hp, fun c hc => ?_⟩
    obtain ⟨h₁, hget⟩ := hlive c hc
    obtain ⟨h₂, hget'⟩ := h.live_unregister h₁
    exact ⟨h₂, hget.trans hget'⟩

theorem Partitioned.live_unwind {s : Cells} (h : s.Partitioned) {fs : List Frame} {c : Nat}
    (hc : (s.unwind fs).Live c) : s.Live c ∧ (s.unwind fs).get c = s.get c := by
  induction fs generalizing s with
  | nil => exact ⟨hc, rfl⟩
  | cons f fs ih =>
    obtain ⟨hp, hlive⟩ := h.live_unregisterAll f.ownVariables
    obtain ⟨h₁, hget⟩ := ih hp hc
    obtain ⟨h₂, hget'⟩ := hlive c h₁
    exact ⟨h₂, hget.trans hget'⟩

end Steppable.Cells
