import Steppable.Proofs.Machine.Aliasing
import Steppable.Session

/-!
# Global variables keep their cells

An evaluation leaves the stacks of cells as it found them, whether it ends or is abandoned at a stop
(`Restores`); this is the law of the floor for a machine that begins without frames.

So a global variable has for ever the one cell that it was given when its source was read. For this
nothing but the laws of the floor is needed while evaluations come and go; but a source may be read
while an evaluation is stopped, and then one has to know that nothing on the stack of frames concerns
a variable that is only now declared. This and that functions bring back no other cell for a global
variable is the custody `globalCustody`.
-/

namespace Steppable

namespace Machine

variable {m m' : Machine} {φ : Focus} {n : Node} {base : Declaration → List Nat}

/-! ## Evaluations -/

theorem steady_lasting (base : Declaration → List Nat) : Lasting (Steady base) where
  step := Steady.step
  resumption _ h := h.resumption
  stops _ _ _ _ h := h

theorem stack_reset (m : Machine) (d : Declaration) : m.reset.cells.stack d = m.floor d := by
  rw [floor, ← List.append_nil (owned m.frames), ← Cells.below_unwind]
  rfl

/-- The evaluation of `n`, however it is stopped and resumed, leaves the stacks of cells as they
were: when it ends, and when it is abandoned at a stop. -/
structure Restores (m : Machine) (n : Node) : Prop where
  ended : ∀ (b : Breakpoints) (steps : Nat) (cs : List Command) (m' : Machine) (v : Value),
    ({ m with breakpoints := b }.start n steps).map (drive cs) = .ok (m', .finished v) →
    ∀ d, m'.cells.stack d = m.cells.stack d
  abandoned : ∀ (b : Breakpoints) (steps : Nat) (cs : List Command) (m' : Machine),
    ({ m with breakpoints := b }.start n steps).map (drive cs) = .ok (m', .suspended) →
    ∀ d, m'.reset.cells.stack d = m.cells.stack d

theorem restores_of_idle (h : m.isPending = false) (n : Node) : Restores m n := by
  have hrun : ∀ b steps cs r,
      ({ m with breakpoints := b }.start n steps).map (drive cs) = .ok r →
      Returns (Steady m.cells.stack) r := by
    intro b steps cs r hr
    rw [start_eq (m := { m with breakpoints := b }) h] at hr
    obtain rfl := Except.ok.inj hr
    refine (steady_lasting _).drive cs ((steady_lasting _).run steps ⟨fun d => ?_, by simp⟩)
    exact floor_of_frames_nil (frames_of_isPending h) d
  refine ⟨fun b steps cs m' v hr d => ?_, fun b steps cs m' hr d => ?_⟩
  · obtain ⟨m₁, w, hs, hf, hw⟩ := hrun b steps cs _ hr
    have hc := (settle_frames m₁ w).1
    rw [hw] at hc
    rw [hc, ← hs.1 d, floor_of_frames_nil hf]
  · rw [stack_reset]
    exact (hrun b steps cs _ hr).1 d

end Machine

/-! ## The cells of global variables -/

/-- The custody of the functions that know the cells `γ` of the global variables. Only declarations
below `N` and global ones are in use. -/
def globalCustody (S : Node → Prop) (N : Nat) (γ : Nat → Option Nat) : Custody where
  nodes := S
  cells s := (∀ d, N ≤ d.id → γ d.id = none → s.stack d = []) ∧
    ∀ d c, γ d.id = some c → ∀ c' ∈ s.stack d, c' = c
  functions _ f := (∃ t, S (.function t f.code)) ∧
    ∀ p ∈ f.captures, p.1.id < N ∧ ∀ c, γ p.1.id = some c → p.2 = c
  rules := Host.Rule.Honest fun _ => False
  references := True

/-- The trees declare and use only declarations below `N`, and no global variable is declared inside
of them. -/
structure Local (ts : List Node) (N : Nat) (γ : Nat → Option Nat) : Prop where
  tagged : ∀ t ∈ ts, t.WellTagged
  binds : ∀ n, nodesOf ts n → ∀ d ∈ n.binds, d.id < N
  opens : ∀ n, nodesOf ts n → ∀ d ∈ n.opens, γ d.id = none

variable {ts : List Node} {N : Nat} {γ : Nat → Option Nat}

/-- Global variables that are added have new identities. -/
theorem Local.extend {γ' : Nat → Option Nat} (h : Local ts N γ)
    (hγ : ∀ k c, γ' k = some c → γ k = some c ∨ N ≤ k) : Local ts N γ' where
  tagged := h.tagged
  binds := h.binds
  opens n hn d hd := by
    have hlt := h.binds n hn d (Parser.mem_binds_of_opens hd)
    have hnone := h.opens n hn d hd
    cases hd' : γ' d.id with
    | none => rfl
    | some c =>
      rcases hγ _ c hd' with hc | hc
      · simp [hnone] at hc
      · omega

theorem mem_captureAll {s s' : Cells} {ds : List Declaration} {captures : List (Declaration × Nat)}
    (h : Machine.captureAll s ds = (.ok captures, s')) :
    ∀ p ∈ captures, p.1 ∈ ds ∧ p.2 ∈ s.stack p.1 := by
  induction ds generalizing s captures with
  | nil =>
    obtain ⟨hc, rfl⟩ := Prod.mk.inj h
    obtain rfl := Except.ok.inj hc
    simp
  | cons d ds ih =>
    rw [Machine.captureAll] at h
    split at h
    · simp at h
    · rename_i cell hd
      split at h
      · rename_i rest s₁ hrest
        obtain ⟨hc, rfl⟩ := Prod.mk.inj h
        obtain rfl := Except.ok.inj hc
        intro p hp
        rcases List.mem_cons.1 hp with rfl | hp
        · exact ⟨List.mem_cons_self, Cells.mem_stack_of_find hd⟩
        · obtain ⟨h₁, h₂⟩ := ih hrest p hp
          exact ⟨List.mem_cons_of_mem d h₁, h₂⟩
      · simp at h

theorem globalCustody_lawful (h : Local ts N γ) : (globalCustody (nodesOf ts) N γ).Lawful where
  children := fun ⟨t, hm, hn⟩ hc => ⟨t, hm, hn.trans (Node.within_of_mem hc)⟩
  literal := fun ⟨t, hm, hn⟩ => (h.tagged t hm _ hn).literal _ _ rfl
  code hf := hf.1
  renew _ _ hf := hf
  register s d := by
    rintro ⟨n, hn, hd⟩ hs
    have hlt := h.binds n hn d (Parser.mem_binds_of_opens hd)
    have hnone := h.opens n hn d hd
    refine ⟨⟨fun e he hγ => ?_, fun e c hγ c' hc' => ?_⟩, fun _ hf => hf⟩
    · rw [Cells.stack_register, if_neg (by omega)]
      exact hs.1 e he hγ
    · rw [Cells.stack_register, if_neg (by rintro hid; rw [hid, hγ] at hnone; cases hnone)] at hc'
      exact hs.2 e c hγ c' hc'
  unregister s d hs := by
    refine ⟨⟨fun e he hγ => ?_, fun e c hγ c' hc' => ?_⟩, fun _ hf => hf⟩
    · rw [Cells.stack_unregister, hs.1 e he hγ]
      split <;> rfl
    · rw [Cells.stack_unregister] at hc'
      split at hc'
      · exact hs.2 e c hγ c' (List.mem_of_mem_tail hc')
      · exact hs.2 e c hγ c' hc'
  set s c v hs := ⟨hs, fun _ hf => hf⟩
  capture _ hs := ⟨hs, fun _ hf => hf⟩
  push hf hp hs := by
    obtain ⟨hlt, hcell⟩ := hf.2 _ hp
    refine ⟨⟨fun e he hγ => ?_, fun e c hγ c' hc' => ?_⟩, fun _ hf => hf⟩
    · rw [Cells.stack_push, if_neg (by omega)]
      exact hs.1 e he hγ
    · rw [Cells.stack_push] at hc'
      split at hc'
      · rename_i hid
        rcases List.mem_cons.1 hc' with rfl | hc'
        · exact hcell c (hid ▸ hγ)
        · exact hs.2 e c hγ c' hc'
      · exact hs.2 e c hγ c' hc'
  make := by
    intro s s' t code captures i hs hn hc
    refine ⟨⟨t, hn⟩, fun p hp => ?_⟩
    obtain ⟨hd, hstack⟩ := mem_captureAll hc p hp
    exact ⟨h.binds _ hn p.1 (List.mem_append_right _ hd), fun c hγ => hs.2 p.1 c hγ _ hstack⟩
  faithful s _ hr := hr True _ fun _ _ ⟨_, hf⟩ => hf.elim
  members v := Host.honest_members (fun _ => False) v

/-- The variables of a frame are below `N`. -/
theorem id_lt_of_ownVariables (h : Local ts N γ) {s : Cells} {f : Frame}
    (hf : (globalCustody (nodesOf ts) N γ).Frames s f) : ∀ d ∈ f.ownVariables, d.id < N := by
  intro d hd
  have hnode := hf.node
  have hvalues := hf.values
  unfold Frame.ownVariables at hd
  split at hd
  · rename_i hn
    rw [hn] at hnode
    exact h.binds _ hnode d hd
  · rename_i callee hφ
    rw [hφ] at hvalues
    obtain ⟨⟨t, ht⟩, hcaptures⟩ := hvalues (.function callee) (by simp [Phase.values])
    rcases List.mem_append.1 hd with hd | hd
    · obtain ⟨p, hp, rfl⟩ := List.mem_map.1 hd
      exact (hcaptures p hp).1
    · exact h.binds _ ht d (List.mem_append_left _ hd)
  · cases hd

namespace Machine

variable {m m' : Machine} {φ : Focus}

/-- Between two calls every global variable has its cell, and nothing refers to another one for it.
-/
structure Endowed (ts : List Node) (N : Nat) (γ : Nat → Option Nat) (m : Machine) : Prop where
  held : (globalCustody (nodesOf ts) N γ).Machines m
  bare : TopBare m
  floor : ∀ d c, γ d.id = some c → m.floor d = [c]
  marked : ∀ k, m.globals.contains k = true ↔ ∃ c, γ k = some c

/-! ### Calls -/

/-- What holds inside a call: what is held, the floor and the marks. -/
def Endowing (ts : List Node) (N : Nat) (γ : Nat → Option Nat) (base : Machine) (m : Machine)
    (φ : Focus) : Prop :=
  (globalCustody (nodesOf ts) N γ).Holds m φ ∧ Steady base.floor m φ ∧ m.settings = base.settings

theorem endowing_lasting (hL : Local ts N γ) (base : Machine) :
    Lasting (Endowing ts N γ base) where
  step m φ φ' h hn :=
    ⟨(Custody.lasting (globalCustody_lawful hL)).step m φ φ' h.1 hn, h.2.1.step m φ φ' hn,
      (settings_step m φ).trans h.2.2⟩
  resumption m h :=
    ⟨(Custody.lasting (globalCustody_lawful hL)).resumption m h.1, h.2.1.resumption,
      (settings_resumption m).trans h.2.2⟩
  stops m φ b stopNext h :=
    ⟨(Custody.lasting (globalCustody_lawful hL)).stops m φ b stopNext h.1, h.2⟩

/-- A machine with the same floor and settings. -/
theorem Endowed.of_floor {base : Machine} (h : Endowed ts N γ base)
    (hm : (globalCustody (nodesOf ts) N γ).Machines m) (hb : TopBare m)
    (hf : ∀ d, m.floor d = base.floor d) (hs : m.settings = base.settings) : Endowed ts N γ m :=
  ⟨hm, hb, fun d c hγ => (hf d).trans (h.floor d c hγ), fun k => by
    rw [show m.globals = base.globals from congrArg Prod.snd hs]
    exact h.marked k⟩

theorem topBare_of_frames (h : m.frames = []) : TopBare m := by
  intro f hf
  simp [h] at hf

theorem Endowed.of_returns {base : Machine} {s : Status} (h : Endowed ts N γ base)
    (hr : Returns (Endowing ts N γ base) (m, s)) (hs : s ≠ .exhausted) : Endowed ts N γ m := by
  cases s with
  | suspended => exact h.of_floor hr.1.1 (hr.2.1.2 rfl) hr.2.1.1 hr.2.2
  | exhausted => exact (hs rfl).elim
  | finished v =>
    obtain ⟨m₁, w, hI, hf, hw⟩ := hr
    obtain ⟨hcells, hframes, hset⟩ := settle_frames m₁ w
    have hheld := Custody.machines_settle hI.1
    rw [hw] at hcells hframes hset hheld
    dsimp only at hcells hframes hset hheld
    refine h.of_floor hheld (topBare_of_frames (hframes.trans hf)) (fun d => ?_)
      (hset.trans hI.2.2)
    rw [← hI.2.1.1 d, Machine.floor, Machine.floor, hcells, hframes]

theorem Endowed.start {steps : Nat} {s : Status} {n : Node} (hL : Local ts N γ)
    (h : Endowed ts N γ m) (hn : n ∈ ts) (hr : m.start n steps = .ok (m', s))
    (hs : s ≠ .exhausted) : Endowed ts N γ m' := by
  cases hp : m.isPending with
  | true => simp [Machine.start, hp] at hr
  | false =>
    rw [start_eq hp] at hr
    have hI : Endowing ts N γ m m.fresh (.enter n) :=
      ⟨⟨⟨h.held.cells, h.held.frames, by simp [fresh], h.held.host⟩, n, hn, .refl n⟩,
        ⟨fun _ => rfl, by simp⟩, rfl⟩
    have hret := (endowing_lasting hL m).run steps hI
    rw [Except.ok.inj hr] at hret
    exact h.of_returns hret hs

theorem Endowed.stops (h : Endowed ts N γ m) (b : Breakpoints) (stopNext : Bool) :
    Endowed ts N γ (m.withStops b stopNext) :=
  h.of_floor ⟨h.held.cells, h.held.frames, h.held.result, h.held.host⟩ h.bare (fun _ => rfl) rfl

theorem Endowed.resume {steps : Nat} {s : Status} (hL : Local ts N γ) (h : Endowed ts N γ m)
    (hr : m.resume steps = .ok (m', s)) (hs : s ≠ .exhausted) : Endowed ts N γ m' := by
  unfold Machine.resume at hr
  split at hr
  · have hlast := endowing_lasting hL m
    have hret := hlast.run steps (hlast.resumption m
      ⟨⟨h.held, trivial⟩, ⟨fun _ => rfl, fun _ => h.bare⟩, rfl⟩)
    rw [show run steps m.resumption.1 m.resumption.2 = (m', s) from Except.ok.inj hr] at hret
    exact h.of_returns hret hs
  · cases hr

theorem Endowed.stepIn {steps : Nat} {s : Status} (hL : Local ts N γ) (h : Endowed ts N γ m)
    (hr : m.stepIn steps = .ok (m', s)) (hs : s ≠ .exhausted) : Endowed ts N γ m' := by
  unfold Machine.stepIn at hr
  split at hr
  · exact (h.stops m.breakpoints true).resume hL hr hs
  · cases hr

theorem Endowed.reset (hL : Local ts N γ) (h : Endowed ts N γ m) : Endowed ts N γ m.reset :=
  h.of_floor (Custody.machines_reset (globalCustody_lawful hL) h.held) (topBare_of_frames rfl)
    (fun d => (floor_of_frames_nil rfl d).trans (stack_reset m d)) rfl

/-! ### New global variables -/

/-- The cells of the global variables when `k` has got the cell `c`. -/
def endow (γ : Nat → Option Nat) (k c : Nat) : Nat → Option Nat :=
  fun j => if j = k then some c else γ j

theorem endow_self (γ : Nat → Option Nat) (k c : Nat) : endow γ k c k = some c :=
  if_pos rfl

theorem endow_of_ne (γ : Nat → Option Nat) {j k : Nat} (c : Nat) (h : j ≠ k) :
    endow γ k c j = γ j :=
  if_neg h

/-- What is held is still allowed if a variable gets a cell that nothing refers to yet. -/
theorem machines_endow {d : Declaration} {c : Nat} {s : Cells}
    (h : (globalCustody (nodesOf ts) N γ).Machines m) (hd : N ≤ d.id)
    (hs : (globalCustody (nodesOf ts) N (endow γ d.id c)).cells s)
    (hget : ∀ i, s.get i = m.cells.get i ∨ s.get i = .undefined) :
    (globalCustody (nodesOf ts) N (endow γ d.id c)).Machines { m with cells := s } := by
  refine h.move hs hget (fun _ hn => hn) (fun f hf => ⟨hf.1, fun p hp => ?_⟩) (fun _ hr => hr) rfl
  obtain ⟨hlt, hcell⟩ := hf.2 p hp
  refine ⟨hlt, fun c' hc' => hcell c' ?_⟩
  rwa [endow_of_ne γ c (by omega)] at hc'

/-- A global variable that is new gets a cell; one that is known keeps its own. -/
theorem Endowed.declare (hL : Local ts N γ) (h : Endowed ts N γ m) {d : Declaration}
    (hd : N ≤ d.id ∨ ∃ c, γ d.id = some c) :
    ∃ γ', (∀ k c, γ k = some c → γ' k = some c) ∧ (∃ c, γ' d.id = some c) ∧
      (∀ k c, γ' k = some c → γ k = some c ∨ k = d.id ∧ N ≤ k) ∧
      Endowed ts N γ' (if m.globals.contains d.id then m
        else { m with globals := d.id :: m.globals, cells := (m.cells.register d).2 }) := by
  split
  · rename_i hm
    exact ⟨γ, fun _ _ hγ => hγ, (h.marked d.id).1 hm, fun _ _ hγ => .inl hγ, h⟩
  · rename_i hm
    have hnone : γ d.id = none := by
      cases hγ : γ d.id with
      | none => rfl
      | some c => exact (hm ((h.marked d.id).2 ⟨c, hγ⟩)).elim
    have hN : N ≤ d.id := hd.resolve_right (by simp [hnone])
    have hempty : m.cells.stack d = [] := h.held.cells.1.1 d hN hnone
    have hown : occurrences d (owned m.frames) = 0 := by
      refine List.countP_eq_zero.2 fun e he => ?_
      obtain ⟨f, hf, hef⟩ := List.mem_flatMap.1 he
      have := id_lt_of_ownVariables hL (h.held.frames f hf) e hef
      simp only [beq_iff_eq]
      omega
    refine ⟨endow γ d.id (m.cells.register d).1, fun k c hγ => ?_, ⟨_, endow_self _ _ _⟩,
      fun k c hγ => ?_, ?_, h.bare, fun e c hγ => ?_, fun k => ?_⟩
    · rw [endow_of_ne γ _ (by rintro rfl; simp [hnone] at hγ)]
      exact hγ
    · by_cases hk : k = d.id
      · exact .inr ⟨hk, hk ▸ hN⟩
      · rw [endow_of_ne γ _ hk] at hγ
        exact .inl hγ
    · have hcells : (globalCustody (nodesOf ts) N (endow γ d.id (m.cells.register d).1)).cells
          (m.cells.register d).2 := by
        refine ⟨fun e he hγ => ?_, fun e c hγ c' hc' => ?_⟩
        · have hne : d.id ≠ e.id := by
            intro hid
            rw [← hid, endow_self] at hγ
            cases hγ
          rw [Cells.stack_register, if_neg hne]
          exact h.held.cells.1.1 e he (endow_of_ne γ _ hne.symm ▸ hγ)
        · rw [Cells.stack_register] at hc'
          by_cases hid : d.id = e.id
          · rw [← hid, endow_self] at hγ
            rw [if_pos hid, ← m.cells.stack_congr hid, hempty, List.mem_singleton] at hc'
            exact hc'.trans (Option.some.inj hγ)
          · rw [if_neg hid] at hc'
            rw [endow_of_ne γ _ (Ne.symm hid)] at hγ
            exact h.held.cells.1.2 e c hγ c' hc'
      have hm' := machines_endow h.held hN hcells fun i => by
        rw [Cells.get_register]
        split
        · exact .inr rfl
        · exact .inl rfl
      exact ⟨hm'.cells, hm'.frames, hm'.result, hm'.host⟩
    · show (m.cells.register d).2.below (owned m.frames) e = [c]
      rw [Cells.below, Cells.stack_register]
      by_cases hid : d.id = e.id
      · rw [← hid, endow_self] at hγ
        rw [if_pos hid, ← m.cells.stack_congr hid, hempty,
          show occurrences e (owned m.frames) = 0 by rw [← hown, occurrences, occurrences, hid],
          List.drop_zero, Option.some.inj hγ]
      · rw [if_neg hid]
        rw [endow_of_ne γ _ (Ne.symm hid)] at hγ
        exact h.floor e c hγ
    · rw [List.contains_cons]
      by_cases hk : k = d.id
      · subst hk
        simp [endow_self]
      · rw [endow_of_ne γ _ hk, ← h.marked k]
        simp [hk]

/-- All the declarations are global variables afterwards, and those that were have kept their cells.
-/
theorem Endowed.declareGlobals (hL : Local ts N γ) (h : Endowed ts N γ m) {ds : List Declaration}
    (hds : ∀ d ∈ ds, N ≤ d.id ∨ ∃ c, γ d.id = some c) :
    ∃ γ', (∀ k c, γ k = some c → γ' k = some c) ∧ (∀ d ∈ ds, ∃ c, γ' d.id = some c) ∧
      (∀ k c, γ' k = some c → γ k = some c ∨ N ≤ k ∧ ∃ d ∈ ds, d.id = k) ∧
      Endowed ts N γ' (m.declareGlobals ds) := by
  induction ds generalizing m γ with
  | nil => exact ⟨γ, fun _ _ hc => hc, by simp, fun _ _ hc => .inl hc, h⟩
  | cons d ds ih =>
    obtain ⟨γ₁, hold, hnew, honly, h₁⟩ := h.declare hL (hds d (by simp))
    have hL₁ : Local ts N γ₁ := hL.extend fun k c hc => (honly k c hc).imp_right And.right
    obtain ⟨γ₂, hold₂, hnew₂, honly₂, h₂⟩ := ih hL₁ h₁ fun e he =>
      (hds e (List.mem_cons_of_mem d he)).imp_right fun ⟨c, hc⟩ => ⟨c, hold _ c hc⟩
    refine ⟨γ₂, fun k c hc => hold₂ k c (hold k c hc), fun e he => ?_, fun k c hc => ?_, h₂⟩
    · rcases List.mem_cons.1 he with rfl | he
      · obtain ⟨c, hc⟩ := hnew
        exact ⟨c, hold₂ _ c hc⟩
      · exact hnew₂ e he
    · rcases honly₂ k c hc with hc | ⟨hN, e, he, hk⟩
      · rcases honly k c hc with hc | ⟨rfl, hN⟩
        · exact .inl hc
        · exact .inr ⟨hN, d, List.mem_cons_self, rfl⟩
      · exact .inr ⟨hN, e, List.mem_cons_of_mem d he, hk⟩

/-- More trees and more declarations may come into use. -/
theorem Endowed.widen {ts' : List Node} {N' : Nat} (h : Endowed ts N γ m)
    (ht : ∀ t ∈ ts, t ∈ ts') (hN : N ≤ N') : Endowed ts' N' γ m := by
  have hnodes : ∀ n, nodesOf ts n → nodesOf ts' n := fun n ⟨t, hm, hn⟩ => ⟨t, ht t hm, hn⟩
  have hcells : (globalCustody (nodesOf ts') N' γ).cells m.cells :=
    ⟨fun d hd => h.held.cells.1.1 d (Nat.le_trans hN hd), h.held.cells.1.2⟩
  refine ⟨h.held.move hcells (fun _ => .inl rfl) hnodes (fun f hf => ?_) (fun _ hr => hr) rfl,
    h.bare, h.floor, h.marked⟩
  · obtain ⟨t, hcode⟩ := hf.1
    refine ⟨⟨t, hnodes _ hcode⟩, fun p hp => ?_⟩
    exact ⟨Nat.lt_of_lt_of_le (hf.2 p hp).1 hN, (hf.2 p hp).2⟩

/-- The declaration has one cell only, and as long as no evaluation is under way it has it once. -/
structure OnlyCell (m : Machine) (d : Declaration) (c : Nat) : Prop where
  has : m.cells.stack d ≠ []
  only : ∀ c' ∈ m.cells.stack d, c' = c
  idle : m.isPending = false → m.cells.stack d = [c]

theorem Endowed.onlyCell (h : Endowed ts N γ m) {d : Declaration} {c : Nat}
    (hγ : γ d.id = some c) : OnlyCell m d c where
  has he := by
    have := h.floor d c hγ
    simp [Machine.floor, Cells.below, he] at this
  only := h.held.cells.1.2 d c hγ
  idle hp := (floor_of_frames_nil (frames_of_isPending hp) d).symm.trans (h.floor d c hγ)

end Machine

/-! ## Sessions -/

namespace Session

open Machine

/-- What happens to a session from one call to the next; with it go the trees that there are. Trees
may also come from other parsers, which do not use an identity twice either. -/
inductive Turn : List Node × Session → List Node × Session → Prop
  | parse (ts : List Node) (s : Session) (source : String) :
      Turn (ts, s) (ts ++ [(s.parse source).1], (s.parse source).2)
  | other (ts : List Node) (s : Session) {p : Parser} (source : String) : p.Used →
      s.parser.next ≤ p.next →
      Turn (ts, s) (ts ++ [(p.parse source).1],
        { s with parser := { s.parser with next := (p.parse source).2.next } })
  | start {ts : List Node} {s : Session} {n : Node} {steps : Nat} {m : Machine} {status : Status} :
      n ∈ ts → s.machine.start n steps = .ok (m, status) → status ≠ .exhausted →
      Turn (ts, s) (ts, { s with machine := m })
  | resume {ts : List Node} {s : Session} {steps : Nat} {m : Machine} {status : Status} :
      s.machine.resume steps = .ok (m, status) → status ≠ .exhausted →
      Turn (ts, s) (ts, { s with machine := m })
  | stepIn {ts : List Node} {s : Session} {steps : Nat} {m : Machine} {status : Status} :
      s.machine.stepIn steps = .ok (m, status) → status ≠ .exhausted →
      Turn (ts, s) (ts, { s with machine := m })
  | reset (ts : List Node) (s : Session) : Turn (ts, s) (ts, s.reset)
  | breakpoints (ts : List Node) (s : Session) (b : Breakpoints) :
      Turn (ts, s) (ts, s.withBreakpoints b)

/-- What follows, sooner or later. -/
def Later (x y : List Node × Session) : Prop :=
  Relation.ReflTransGen Turn x y

/-- The global variables of the session have the cells `γ`. -/
structure Kept (γ : Nat → Option Nat) (x : List Node × Session) : Prop where
  idle : x.2.parser.Idle
  trees : Local x.1 x.2.parser.next γ
  known : ∀ k c, γ k = some c → k < x.2.parser.next
  globals : ∀ d ∈ x.2.parser.scope.globals, ∃ c, γ d.id = some c
  endowed : Endowed x.1 x.2.parser.next γ x.2.machine

variable {x y : List Node × Session} {ts : List Node} {s : Session} {γ : Nat → Option Nat}

/-- A tree whose own variables are new may be added. -/
theorem local_append {γ' : Nat → Option Nat} {N N' : Nat} {p p' : Parser} {n : Node}
    (h : Local ts N γ') (hN : N ≤ p.next) (hp : Parser.Parsed p n p') (hN' : p'.next = N')
    (hγ : ∀ x, n.Within x → ∀ d ∈ x.opens, γ' d.id = none) : Local (ts ++ [n]) N' γ' where
  tagged t ht := by
    rcases List.mem_append.1 ht with ht | ht
    · exact h.tagged t ht
    · exact List.mem_singleton.1 ht ▸ hp.tagged
  binds := by
    rintro x ⟨t, ht, hx⟩ d hd
    rcases List.mem_append.1 ht with ht | ht
    · have := h.binds x ⟨t, ht, hx⟩ d hd
      have := hp.next
      omega
    · obtain rfl := List.mem_singleton.1 ht
      exact hN' ▸ hp.binds x hx d hd
  opens := by
    rintro x ⟨t, ht, hx⟩ d hd
    rcases List.mem_append.1 ht with ht | ht
    · exact h.opens x ⟨t, ht, hx⟩ d hd
    · obtain rfl := List.mem_singleton.1 ht
      exact hγ x hx d hd

/-- A source may bring global variables; those that there are keep their cells. -/
theorem Kept.parse (h : Kept γ (ts, s)) (source : String) :
    ∃ γ', (∀ k c, γ k = some c → γ' k = some c) ∧
      Kept γ' (ts ++ [(s.parse source).1], (s.parse source).2) := by
  have hp := Parser.parse_sound h.idle source
  obtain ⟨new, hglobals, hnew⟩ := hp.globals
  have hds : ∀ d ∈ (s.parser.parse source).2.scope.globals,
      s.parser.next ≤ d.id ∨ ∃ c, γ d.id = some c := by
    intro d hd
    rw [hglobals] at hd
    rcases List.mem_append.1 hd with hd | hd
    · exact .inr (h.globals d hd)
    · exact .inl (hnew d hd).1
  obtain ⟨γ', hold, hall, honly, he⟩ := h.endowed.declareGlobals h.trees hds
  have hknown : ∀ k c, γ' k = some c → k < (s.parser.parse source).2.next := by
    intro k c hc
    rcases honly k c hc with hc | ⟨hk, d, hd, rfl⟩
    · exact Nat.lt_of_lt_of_le (h.known k c hc) hp.next
    · rw [hglobals] at hd
      rcases List.mem_append.1 hd with hd | hd
      · obtain ⟨c, hc⟩ := h.globals d hd
        exact Nat.lt_of_lt_of_le (h.known _ c hc) hp.next
      · exact (hnew d hd).2
  have hfresh : ∀ x, (s.parser.parse source).1.Within x → ∀ d ∈ x.opens, γ' d.id = none := by
    intro x hx d hd
    obtain ⟨hN, hne⟩ := hp.opens x hx d hd
    cases hγ : γ' d.id with
    | none => rfl
    | some c =>
      rcases honly _ c hγ with hc | ⟨-, e, he, hid⟩
      · exact absurd (h.known _ c hc) (Nat.not_lt.2 hN)
      · exact (hne e he hid).elim
  refine ⟨γ', hold, hp.idle, ?_, hknown, hall, he.widen (fun t ht => by simp [ht]) hp.next⟩
  exact local_append (h.trees.extend fun k c hc => (honly k c hc).imp_right And.left)
    (Nat.le_refl _) hp rfl hfresh

/-- A tree of another parser opens none of the global variables. -/
theorem Kept.other (h : Kept γ (ts, s)) {p : Parser} (hp : p.Used) (hN : s.parser.next ≤ p.next)
    (source : String) :
    Kept γ (ts ++ [(p.parse source).1],
      { s with parser := { s.parser with next := (p.parse source).2.next } }) := by
  have hs := Parser.parse_sound hp.idle source
  have hle : s.parser.next ≤ (p.parse source).2.next := Nat.le_trans hN hs.next
  refine ⟨⟨h.idle.coherent.of_same hle rfl rfl rfl, h.idle.functions, h.idle.levels⟩, ?_,
    fun k c hc => Nat.lt_of_lt_of_le (h.known k c hc) hle, h.globals,
    h.endowed.widen (fun t ht => by simp [ht]) hle⟩
  refine local_append h.trees hN hs rfl fun x hx d hd => ?_
  cases hγ : γ d.id with
  | none => rfl
  | some c =>
    have hlt : d.id < s.parser.next := h.known _ c hγ
    have hge := (hs.opens x hx d hd).1
    omega

/-- **One call: global variables may be added, and keep their cells.** -/
theorem Kept.turn (h : Kept γ x) (hxy : Turn x y) :
    ∃ γ', (∀ k c, γ k = some c → γ' k = some c) ∧ Kept γ' y := by
  have same : ∀ {ts s m}, Kept γ (ts, s) → Endowed ts s.parser.next γ m →
      ∃ γ', (∀ k c, γ k = some c → γ' k = some c) ∧ Kept γ' (ts, { s with machine := m }) :=
    fun h he => ⟨γ, fun _ _ hc => hc, h.idle, h.trees, h.known, h.globals, he⟩
  cases hxy with
  | parse ts s source => exact h.parse source
  | other ts s source hp hN => exact ⟨γ, fun _ _ hc => hc, h.other hp hN source⟩
  | start hn hr hs => exact same h (h.endowed.start h.trees hn hr hs)
  | resume hr hs => exact same h (h.endowed.resume h.trees hr hs)
  | stepIn hr hs => exact same h (h.endowed.stepIn h.trees hr hs)
  | reset => exact same h (h.endowed.reset h.trees)
  | breakpoints ts s b => exact same h (h.endowed.stops b s.machine.stopNext)

theorem Kept.later (h : Kept γ x) (hxy : Later x y) :
    ∃ γ', (∀ k c, γ k = some c → γ' k = some c) ∧ Kept γ' y := by
  induction hxy with
  | refl => exact ⟨γ, fun _ _ hc => hc, h⟩
  | tail _ ht ih =>
    obtain ⟨γ₁, hold₁, h₁⟩ := ih
    obtain ⟨γ₂, hold₂, h₂⟩ := h₁.turn ht
    exact ⟨γ₂, fun k c hc => hold₂ k c (hold₁ k c hc), h₂⟩

theorem kept_new (options : Scope.Options) {host : Host} (next : Nat)
    (hh : ∀ r ∈ host, r.Honest fun _ => False) :
    Kept (fun _ => none) ([], new options host next) where
  idle := Parser.idle_new options next
  trees := ⟨by simp, by rintro n ⟨t, ht, -⟩; simp at ht, by rintro n ⟨t, ht, -⟩; simp at ht⟩
  known := by simp
  globals d hd := by
    have : (new options host next).parser.scope.globals = [] := by
      unfold new Parser.new Scope.new Scope.globals
      cases options.global <;> rfl
    simp [this] at hd
  endowed := {
    held := Custody.machines_new (C := globalCustody _ _ _) ⟨fun d _ _ => by simp [Cells.stack], by simp⟩ hh _
    bare := topBare_of_frames rfl
    floor := by simp
    marked := by simp [new] }

/-- **Scopes are restored.** The evaluation of a tree, however it is stopped and resumed, leaves the
stack of cells of every declaration as it was, when it ends and when it is abandoned. And a global
variable of a session has at every later time the one cell that it had at first, whatever is read,
run, stopped and reset in between. -/
theorem scopes_restored {host : Host} (hh : ∀ r ∈ host, r.Honest fun _ => False) :
    (∀ (m : Machine) (n : Node), m.isPending = false → Restores m n) ∧
    ∀ (options : Scope.Options) (next : Nat) (x y : List Node × Session),
      Later ([], new options host next) x → Later x y →
      ∀ d ∈ x.2.parser.scope.globals, ∃ c, OnlyCell x.2.machine d c ∧ OnlyCell y.2.machine d c := by
  refine ⟨fun m n hm => restores_of_idle hm n, fun options next x y hx hxy d hd => ?_⟩
  obtain ⟨γ, -, hkx⟩ := (kept_new options next hh).later hx
  obtain ⟨γ', hold, hky⟩ := hkx.later hxy
  obtain ⟨c, hc⟩ := hkx.globals d hd
  exact ⟨c, hkx.endowed.onlyCell hc, hky.endowed.onlyCell (hold _ c hc)⟩

/-- An interactive loop with the standard host: a counter is declared, and a later reset does not
take its cell away. -/
theorem scopes_restored_interactive :
    let x := ((new { global := true }).parse "var n = 1").2
    Restores {} ((new { global := true }).parse "var n = 1").1 ∧
      ∀ d ∈ x.parser.scope.globals,
        ∃ c, OnlyCell x.machine d c ∧ OnlyCell x.reset.machine d c := by
  obtain ⟨hrestores, hglobals⟩ :=
    scopes_restored (Host.forall_always (Host.honest_standard fun _ => False))
  have hreset : ∀ ts x, Later ([], new { global := true }) (ts, x) →
      ∀ d ∈ x.parser.scope.globals, ∃ c, OnlyCell x.machine d c ∧ OnlyCell x.reset.machine d c :=
    fun ts x hx => hglobals _ _ (ts, x) (ts, x.reset) hx (.single (.reset ts x))
  exact ⟨hrestores _ _ rfl, hreset _ _ (.single (.parse [] _ "var n = 1"))⟩

end Session

end Steppable
