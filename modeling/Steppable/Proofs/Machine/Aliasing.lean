import Steppable.Proofs.Cells.Partition
import Steppable.Proofs.Machine.Custody
import Steppable.Proofs.Machine.Life

/-!
# Cells are not shared

Cells are used again, so a variable must never get a cell that something still refers to. Three
things refer to cells: the stacks of the live variables, the functions that have captured them, and
the assignments that are going to write to one. `cells_never_shared` says that at every moment in the
life of a machine each cell has one use only (`Cells.Partitioned`), that every function anywhere in
the machine refers to captured cells, and that what is going to be written to is on a stack.

The functions are kept track of by a custody. Of a cell that is going to be written to one has to
know that it stays on its stack while the value is computed: it is below the variables of all frames
above (`Anchored`), and those frames end no others.
-/

namespace Steppable

/-- The answers bring no function but those of the arguments and those of the program that have
captured nothing. -/
def Host.Rule.Honest (S : Node → Prop) (r : Host.Rule) : Prop :=
  ∀ (ref : Prop) (k : Closure → Prop),
    (∀ f, f.captures = [] → (∃ t, S (.function t f.code)) → k f) → r.Faithful ref k

theorem Host.honest_members (S : Node → Prop) (v : Value) : ∀ r ∈ Host.members v, r.Honest S :=
  fun r hr ref k _ => Host.faithful_members ref k v r hr

theorem Host.honest_standard (S : Node → Prop) : ∀ r ∈ Host.standard, r.Honest S :=
  fun r hr ref k _ => Host.faithful_standard ref k r hr

/-! ## Functions -/

/-- The functions in a value. -/
def Value.functions : Value → List Closure
  | .function f => [f]
  | .signal _ _ v => v.functions
  | _ => []

theorem Value.Kept.of_functions {ref : Prop} {k : Closure → Prop} {v : Value} (h : v.Kept ref k) :
    ∀ f ∈ v.functions, k f := by
  fun_induction Value.functions v with
  | case1 f =>
    intro g hg
    obtain rfl := List.mem_singleton.1 hg
    exact h
  | case2 kind n v ih => exact ih h
  | case3 => simp

/-- The custody of the functions whose code belongs to a program and whose cells are captured. The
cells in `K` are captured for good. -/
def captureCustody (S : Node → Prop) (K : Nat → Prop) : Custody where
  nodes := S
  cells s := s.Partitioned ∧ ∀ c, K c → s.isCaptured c = true
  functions s f := (∃ t, S (.function t f.code)) ∧ ∀ p ∈ f.captures, s.isCaptured p.2 = true
  rules := Host.Rule.Honest S
  references := False

/-- The cells that a new function refers to are captured. -/
theorem isCaptured_captureAll {s s' : Cells} {ds : List Declaration}
    {captures : List (Declaration × Nat)} (hs : s.Partitioned)
    (h : Machine.captureAll s ds = (.ok captures, s')) :
    (∀ c, s.isCaptured c = true → s'.isCaptured c = true) ∧
      ∀ p ∈ captures, s'.isCaptured p.2 = true := by
  induction ds generalizing s captures with
  | nil =>
    obtain ⟨hc, rfl⟩ := Prod.mk.inj h
    obtain rfl := Except.ok.inj hc
    exact ⟨fun _ hc => hc, by simp⟩
  | cons d ds ih =>
    rw [Machine.captureAll] at h
    split at h
    · simp at h
    · rename_i cell hd
      split at h
      · rename_i rest s₁ hrest
        obtain ⟨hc, rfl⟩ := Prod.mk.inj h
        obtain rfl := Except.ok.inj hc
        obtain ⟨hmono, hall⟩ := ih (hs.capture hd) hrest
        have hlt := hs.stacked d cell (Cells.mem_stack_of_find hd)
        refine ⟨fun c hc => hmono c ?_, fun p hp => ?_⟩
        · rw [Cells.isCaptured_capture, hc, Bool.or_true]
        · rcases List.mem_cons.1 hp with rfl | hp
          · refine hmono cell ?_
            rw [Cells.isCaptured_capture]
            simp [hlt]
          · exact hall p hp
      · simp at h

/-- It is enough that cells stay partitioned and captured. -/
theorem captureCustody_leaves {S : Node → Prop} {K : Nat → Prop} {s s' : Cells}
    (h : s.Partitioned → s'.Partitioned ∧ ∀ c, s.isCaptured c = true → s'.isCaptured c = true) :
    (captureCustody S K).Leaves s s' := fun hs =>
  have h' := h hs.1
  ⟨⟨h'.1, fun c hc => h'.2 c (hs.2 c hc)⟩, fun _ hf => ⟨hf.1, fun p hp => h'.2 _ (hf.2 p hp)⟩⟩

theorem captureCustody_register {S : Node → Prop} {K : Nat → Prop} (s : Cells) (d : Declaration) :
    (captureCustody S K).Leaves s (s.register d).2 := by
  refine captureCustody_leaves fun hs => ⟨hs.register d, fun c hcap => ?_⟩
  rw [Cells.isCaptured_register, if_neg, hcap]
  rintro rfl
  simp [(hs.register_unused d).2.1] at hcap

theorem captureCustody_lawful {S : Node → Prop} {K : Nat → Prop} (hP : Program S) :
    (captureCustody S K).Lawful where
  children := hP.children
  literal := hP.literal
  code h := h.1
  renew _ _ h := h
  register s _ _ := captureCustody_register s _
  unregister s d := captureCustody_leaves fun hs =>
    ⟨hs.unregister d, fun c hc => by rwa [Cells.isCaptured_unregister]⟩
  set s c v := captureCustody_leaves fun hs =>
    ⟨hs.set c v, fun c' hc => by rwa [Cells.isCaptured_set]⟩
  capture hd := captureCustody_leaves fun hs =>
    ⟨hs.capture hd, fun c hc => by rw [Cells.isCaptured_capture, hc, Bool.or_true]⟩
  push hf hp := captureCustody_leaves fun hs => ⟨hs.push (hf.2 _ hp) _, fun _ h => h⟩
  make _ hs hn hc := ⟨⟨_, hn⟩, (isCaptured_captureAll hs.1 hc).2⟩
  faithful s _ hr := hr False _ fun f hf hc => ⟨hc, by simp [hf]⟩
  members := Host.honest_members S

/-! ## Cells that will be written to -/

/-- Every cell that a frame is going to write to is on a stack below the variables of the frames
above it; those of the frames above the list are `opened`. -/
def Anchored (s : Cells) : List Declaration → List Frame → Prop
  | _, [] => True
  | opened, f :: outer =>
    (∀ c, f.phase = .assigned c → ∃ d, c ∈ s.below opened d) ∧
      Anchored s (opened ++ f.ownVariables) outer

variable {s s' : Cells} {A B : List Declaration} {fs gs : List Frame}

/-- What is below stays below. -/
theorem Anchored.transfer (h : Anchored s A fs)
    (hb : ∀ ds d c, c ∈ s.below (A ++ ds) d → c ∈ s'.below (B ++ ds) d) : Anchored s' B fs := by
  induction fs generalizing A B with
  | nil => trivial
  | cons f fs ih =>
    refine ⟨fun c hc => ?_, ih h.2 fun ds d c hc => ?_⟩
    · obtain ⟨d, hd⟩ := h.1 c hc
      have := hb [] d c
      rw [List.append_nil, List.append_nil] at this
      exact ⟨d, this hd⟩
    · rw [List.append_assoc] at hc ⊢
      exact hb (f.ownVariables ++ ds) d c hc

theorem Anchored.of_core (h : Anchored s A fs) (hc : gs.map Frame.core = fs.map Frame.core) :
    Anchored s A gs := by
  induction gs generalizing A fs with
  | nil => trivial
  | cons g gs ih =>
    cases fs with
    | nil => simp at hc
    | cons f fs =>
      rw [List.map_cons, List.map_cons, List.cons.injEq] at hc
      have hown : owned [g] = owned [f] := owned_of_core (by simpa using hc.1)
      rw [owned_singleton, owned_singleton] at hown
      refine ⟨fun c hφ => h.1 c ?_, ?_⟩
      · rw [← hφ]
        exact (congrArg Prod.snd hc.1).symm
      · rw [hown]
        exact ih h.2 hc.2

theorem anchored_append : Anchored s A (fs ++ gs) ↔ Anchored s A fs ∧ Anchored s (A ++ owned fs) gs := by
  induction fs generalizing A with
  | nil => simp [Anchored, owned]
  | cons f fs ih =>
    rw [List.cons_append, Anchored, Anchored, ih, and_assoc, List.append_assoc]
    rfl

/-- A frame whose cell is anchored writes to a cell on a stack. -/
theorem Anchored.mem_stack (h : Anchored s A fs) {f : Frame} (hf : f ∈ fs) {c : Nat}
    (hc : f.phase = .assigned c) : ∃ d, c ∈ s.stack d := by
  induction fs generalizing A with
  | nil => cases hf
  | cons g fs ih =>
    rcases List.mem_cons.1 hf with rfl | hf
    · obtain ⟨d, hd⟩ := h.1 c hc
      exact ⟨d, List.mem_of_mem_drop hd⟩
    · exact ih h.2 hf

namespace Machine

variable {m m' : Machine} {φ φ' : Focus} {S : Node → Prop} {K : Nat → Prop} {v : Value}

/-- Frames that write to no cell are anchored anyway. -/
theorem anchored_of_ne (s : Cells) (A : List Declaration) {fs : List Frame}
    (h : ∀ f ∈ fs, ∀ c, f.phase ≠ .assigned c) : Anchored s A fs := by
  induction fs generalizing A with
  | nil => trivial
  | cons f fs ih =>
    exact ⟨fun c hc => (h f (by simp) c hc).elim, ih _ fun g hg => h g (by simp [hg])⟩

/-- A change at the top of the stack keeps what is below. -/
theorem Shift.anchored (h : Shift φ m m') (ha : Anchored m.cells A m.frames)
    (hφ : ∀ c, φ = .give (.reference c) → ∃ d, c ∈ m.cells.below A d) :
    Anchored m'.cells A m'.frames := by
  obtain ⟨top, top', base, base', hm, hm', hbase, hbelow, hassigned⟩ := h
  rw [hm, anchored_append] at ha
  rw [hm', anchored_append]
  refine ⟨?_, (ha.2.transfer fun ds d c hc => ?_).of_core hbase⟩
  · by_cases hex : ∃ f ∈ top', ∃ c, f.phase = .assigned c
    · obtain ⟨f, hf, c, hc⟩ := hex
      obtain ⟨htop, he, hcells⟩ := hassigned f hf c hc
      obtain ⟨d, hd⟩ := hφ c he
      rw [htop]
      refine ⟨fun c' hc' => ?_, trivial⟩
      rw [hc] at hc'
      cases hc'
      exact ⟨d, by rw [hcells]; exact hd⟩
    · exact anchored_of_ne _ _ fun f hf c hc => hex ⟨f, hf, c, hc⟩
  · rw [List.append_assoc, Cells.below_append] at hc ⊢
    rw [hbelow ds d]
    exact hc

/-- The frames that wait on when an evaluation is taken up are still anchored. -/
theorem anchored_takeUpAll (inner : List Frame) (m : Machine)
    (h : Anchored m.cells [] (inner.reverse ++ m.frames)) :
    Anchored (takeUpAll inner m).1.cells [] (takeUpAll inner m).1.frames := by
  induction inner generalizing m with
  | nil => exact h
  | cons f inner ih =>
    rw [List.reverse_cons, List.append_assoc, anchored_append] at h
    have hs := (shift_takeUp (m := { m with frames := f :: m.frames }) rfl).anchored h.2 (by simp)
    rcases takeUpAll_cons f inner m with ⟨v, m₁, ht, hall⟩ | ⟨hne, hall⟩
    · rw [hall]
      rw [ht] at hs
      refine hs.transfer fun ds d c hc => ?_
      dsimp only
      rwa [List.nil_append, Cells.below_unwind]
    · rw [hall]
      refine ih _ (anchored_append.2 ⟨?_, hs⟩)
      rcases Custody.cells_takeUp { m with frames := f :: m.frames } f with ⟨v, hv⟩ | hc
      · exact (hne v hv).elim
      · rw [hc]
        exact h.1

/-! ## Machines -/

/-- Everything that the machine refers to is in use. -/
structure Sorted (S : Node → Prop) (K : Nat → Prop) (m : Machine) (φ : Focus) : Prop where
  held : (captureCustody S K).Holds m φ
  bare : φ = .begin → TopBare m
  anchored : Anchored m.cells [] m.frames
  reference : ∀ c, φ = .give (.reference c) → ∃ d, c ∈ m.cells.stack d

/-- A variable is given only by entering it, or by a frame without variables that passes it on. -/
theorem Sorted.reference_step (hP : Program S) (h : Sorted S K m φ) {c : Nat}
    (hc : (m.step φ).2 = .running (.give (.reference c))) : ∃ d, c ∈ (m.step φ).1.cells.stack d := by
  have hC := captureCustody_lawful (K := K) hP
  cases φ with
  | enter n =>
    have he := enter_entering m n
    have hn := h.held.2
    rw [show m.step (.enter n) = m.enter n from rfl] at hc ⊢
    generalize m.enter n = x at he hc
    cases he with
    | @constant t v hn' =>
      subst hn'
      have hd := hP.literal hn
      obtain rfl : v = .reference c := by simpa [give] using hc
      simp [Value.isData] at hd
    | @reference d cell hd =>
      obtain rfl : cell = c := by simpa [give] using hc
      exact ⟨d, Cells.mem_stack_of_find hd⟩
    | push =>
      split at hc <;> simp at hc
    | nothing | fault | function | named | unbound => simp [give, fault] at hc
  | begin =>
    rw [step] at hc ⊢
    split at hc
    · rename_i f outer hf
      exact ((Custody.hands_begin hC h.held.1 hf).2 _ hc).elim
    · simp [give] at hc
  | give v =>
    rw [step] at hc ⊢
    split at hc
    · rename_i f outer hf
      rcases Custody.hands_receive hC h.held.1 hf h.held.2 with hh | ⟨hb, he⟩
      · exact (hh.2 _ hc).elim
      · rw [he, finish_snd] at hc
        obtain rfl : v = .reference c := by simpa using hc
        obtain ⟨d, hd⟩ := h.reference c rfl
        rcases hb with hb | hb
        · refine ⟨d, ?_⟩
          simp only [hf, he, finish, give, Cells.leave, Frame.ownVariables_of_isBare hb]
          exact hd
        · simp [Value.isAbrupt, Value.isError, Value.isSignal] at hb
    · simp at hc

theorem Sorted.lasting (hP : Program S) : Lasting (Sorted S K) where
  step m φ φ' h hn := {
    held := (Custody.lasting (captureCustody_lawful hP)).step m φ φ' h.held hn
    bare := by
      rintro rfl
      obtain ⟨n, -, -, hf⟩ := frames_of_next_begin hn
      exact topBare_cons hf rfl
    anchored := (shift_step h.bare).anchored h.anchored h.reference
    reference := by
      rintro c rfl
      refine h.reference_step hP ?_
      cases hp : (m.step φ).2 with
      | running ψ =>
        rw [hp] at hn
        exact congrArg _ (Option.some.inj hn)
      | suspended => simp [hp, Progress.next?] at hn
      | finished w => simp [hp, Progress.next?] at hn }
  resumption m h := {
    held := (Custody.lasting (captureCustody_lawful hP)).resumption m h.held
    bare := fun hb => topBare_takeUpAll _ _ (by simpa [TopBare] using h.bare rfl) hb
    anchored := anchored_takeUpAll _ _ (by simpa using h.anchored)
    reference := fun c hc => by
      rcases (Custody.hands_resumption (captureCustody_lawful hP) h.held.1).2 with hb | ⟨v, hv, hk⟩
      · simp [hc] at hb
      · rw [hc] at hv
        cases hv
        exact hk.elim }
  stops m φ b stopNext h := {
    held := (Custody.lasting (captureCustody_lawful hP)).stops m φ b stopNext h.held
    bare := h.bare
    anchored := h.anchored
    reference := h.reference }

/-- Between two calls everything that the machine refers to is in use. -/
structure Tidied (S : Node → Prop) (K : Nat → Prop) (m : Machine) : Prop where
  held : (captureCustody S K).Machines m
  bare : TopBare m
  anchored : Anchored m.cells [] m.frames

theorem Tidied.of_idle (h : (captureCustody S K).Machines m) (hf : m.frames = []) :
    Tidied S K m := by
  refine ⟨h, fun f hm => ?_, ?_⟩
  · simp [hf] at hm
  · rw [hf]
    trivial

theorem tidied_new {host : Host} (hh : ∀ r ∈ host, r.Honest S) (next : Nat) :
    Tidied S (fun _ => False) { host, next } :=
  .of_idle (Custody.machines_new (C := captureCustody _ _) ⟨Cells.partitioned_empty, by simp⟩ hh next)
    rfl

theorem anchored_declareGlobals (h : Anchored m.cells A fs) (ds : List Declaration) :
    Anchored (m.declareGlobals ds).cells A fs := by
  induction ds generalizing m with
  | nil => exact h
  | cons d ds ih =>
    refine ih (m := if m.globals.contains d.id then m
      else { m with globals := d.id :: m.globals, cells := (m.cells.register d).2 }) ?_
    split
    · exact h
    · refine h.transfer fun es e c hc => ?_
      rw [Cells.below, Cells.stack_register]
      split
      · refine List.mem_of_mem_drop (i := 1) ?_
        rw [List.drop_drop]
        exact hc
      · exact hc

/-- **All that a machine refers to is in use, all its life.** -/
theorem sorted_perpetual {ts : List Node} (hP : Program (nodesOf ts)) :
    Perpetual ts (Tidied (nodesOf ts) K) (Sorted (nodesOf ts) K) where
  lasting := Sorted.lasting hP
  globals m ds h := by
    obtain ⟨hfr, -⟩ := declareGlobals_frames m ds
    refine ⟨Custody.machines_declareGlobals h.held captureCustody_register ds, ?_, ?_⟩
    · rw [TopBare, hfr]
      exact h.bare
    · rw [hfr]
      exact anchored_declareGlobals h.anchored ds
  stops m b stopNext h :=
    ⟨⟨h.held.cells, h.held.frames, h.held.result, h.held.host⟩, h.bare, h.anchored⟩
  start m n h hp hn :=
    ⟨⟨⟨h.held.cells, h.held.frames, by simp [fresh], h.held.host⟩, n, hn, .refl n⟩, by simp,
      h.anchored, by simp⟩
  taken m h hp := ⟨⟨h.held, trivial⟩, fun _ => h.bare, h.anchored, by simp⟩
  stopped m h := ⟨h.held.1, h.bare rfl, h.anchored⟩
  ended m w h hf :=
    .of_idle (Custody.machines_settle h.held) ((settle_frames m w).2.1.trans hf)
  reset m h := .of_idle (Custody.machines_reset (captureCustody_lawful hP) h.held) rfl

/-! ## What a machine knows -/

/-- The value is held at this moment: in a cell, in a frame, as the last result or on its way. -/
inductive Holding : Moment → Value → Prop
  | cell (m : Machine) (φ : Option Focus) (c : Nat) : Holding (m, φ) (m.cells.get c)
  | phase {m : Machine} {φ : Option Focus} {f : Frame} {v : Value} : f ∈ m.frames →
      v ∈ f.phase.values → Holding (m, φ) v
  | result {m : Machine} {φ : Option Focus} {f : Frame} {v : Value} : f ∈ m.frames →
      f.result = some v → Holding (m, φ) v
  | gathered {m : Machine} {φ : Option Focus} {f : Frame} {g : Gathered} {v : Value} :
      f ∈ m.frames → f.gathered = some g → v ∈ g.values → Holding (m, φ) v
  | last {m : Machine} {φ : Option Focus} {v : Value} : m.result = some v → Holding (m, φ) v
  | given (m : Machine) (v : Value) : Holding (m, some (.give v)) v

/-- The function is part of a value that is held. -/
def Knows (x : Moment) (f : Closure) : Prop :=
  ∃ v, Holding x v ∧ f ∈ v.functions

/-- The cell will be written to by a frame, or is on its way to be. -/
def Targets (x : Moment) (c : Nat) : Prop :=
  (∃ f ∈ x.1.frames, f.phase = .assigned c) ∨ x.2 = some (.give (.reference c))

/-- Each cell is free, or belongs to one variable, or is captured, and nothing refers to a cell that
is free or that variables are about to get. -/
structure Unshared (x : Moment) : Prop where
  free : ∀ c ∈ x.1.cells.free, x.1.cells.free.count c = 1 ∧ c < x.1.cells.cells.size ∧
    x.1.cells.isCaptured c = false ∧ (∀ d, c ∉ x.1.cells.stack d) ∧
    (∀ f, Knows x f → ∀ p ∈ f.captures, p.2 ≠ c) ∧ ¬ Targets x c
  owned : ∀ c < x.1.cells.cells.size, x.1.cells.isCaptured c = false → c ∉ x.1.cells.free →
    x.1.cells.OccursOnce c
  captured : ∀ c, x.1.cells.isCaptured c = true → c < x.1.cells.cells.size ∧ c ∉ x.1.cells.free
  fresh : ∀ ds, (x.1.cells.given ds).Nodup ∧ ∀ c ∈ x.1.cells.given ds,
    (∀ d, c ∉ x.1.cells.stack d) ∧ (∀ f, Knows x f → ∀ p ∈ f.captures, p.2 ≠ c) ∧ ¬ Targets x c

variable {x y : Moment} {f : Closure} {c : Nat}

/-- The functions that are known refer to captured cells. -/
theorem isCaptured_of_knows (h : Throughout (Tidied S K) (Sorted S K) x) (hf : Knows x f) :
    ∀ p ∈ f.captures, x.1.cells.isCaptured p.2 = true := by
  obtain ⟨v, hv, hfv⟩ := hf
  suffices hk : (captureCustody S K).Keeps x.1.cells v ∨ ∃ c, v = .reference c by
    rcases hk with hk | ⟨c, rfl⟩
    · exact (hk.of_functions f hfv).2
    · simp [Value.functions] at hfv
  obtain ⟨m, φ⟩ := x
  have hm : (captureCustody S K).Machines m := by
    cases φ with
    | none => exact h.held
    | some φ => exact h.held.1
  cases hv with
  | cell => exact .inl (hm.cells.2 _)
  | phase hf hv => exact .inl ((hm.frames _ hf).values v hv)
  | result hf hv => exact .inl ((hm.frames _ hf).result v hv)
  | gathered hf hg hv => exact .inl ((hm.frames _ hf).gathered _ hg v hv)
  | last hv => exact .inl (hm.result v hv)
  | given => exact h.held.2

/-- What will be written to is on a stack. -/
theorem mem_stack_of_targets (h : Throughout (Tidied S K) (Sorted S K) x) (hc : Targets x c) :
    ∃ d, c ∈ x.1.cells.stack d := by
  obtain ⟨m, φ⟩ := x
  rcases hc with ⟨f, hf, hφ⟩ | hφ
  · cases φ with
    | none => exact h.anchored.mem_stack hf hφ
    | some φ => exact h.anchored.mem_stack hf hφ
  · obtain rfl : φ = some (.give (.reference c)) := hφ
    exact h.reference c rfl

theorem partitioned_of_throughout (h : Throughout (Tidied S K) (Sorted S K) x) :
    x.1.cells.Partitioned ∧ ∀ c, K c → x.1.cells.isCaptured c = true := by
  obtain ⟨m, φ⟩ := x
  cases φ with
  | none => exact h.held.cells.1
  | some φ => exact h.held.1.cells.1

/-- Cells that are captured now may be said to be captured for good. -/
theorem recapture {K' : Nat → Prop} (h : Throughout (Tidied S K) (Sorted S K) x)
    (hK : ∀ c, K' c → x.1.cells.isCaptured c = true) : Throughout (Tidied S K') (Sorted S K') x := by
  have hmachines : ∀ m : Machine, (∀ c, K' c → m.cells.isCaptured c = true) →
      (captureCustody S K).Machines m → (captureCustody S K').Machines m := fun m hK h =>
    h.move ⟨h.cells.1.1, hK⟩ (fun _ => .inl rfl) (fun _ hn => hn) (fun _ hf => hf) (fun _ hr => hr)
      rfl
  obtain ⟨m, φ⟩ := x
  cases φ with
  | none => exact ⟨hmachines m hK h.held, h.bare, h.anchored⟩
  | some φ => exact ⟨⟨hmachines m hK h.held.1, by cases φ <;> exact h.held.2⟩, h.bare, h.anchored,
      h.reference⟩

theorem unshared_of_throughout (h : Throughout (Tidied S K) (Sorted S K) x) : Unshared x := by
  have hp := (partitioned_of_throughout h).1
  have hknown : ∀ c, x.1.cells.isCaptured c = false →
      ∀ f, Knows x f → ∀ p ∈ f.captures, p.2 ≠ c := by
    rintro c hc f hf p hpf rfl
    simp [isCaptured_of_knows h hf p hpf] at hc
  have htarget : ∀ c, (∀ d, c ∉ x.1.cells.stack d) → ¬ Targets x c := by
    intro c hc ht
    obtain ⟨d, hd⟩ := mem_stack_of_targets h ht
    exact hc d hd
  refine ⟨fun c hc => ?_, hp.once, fun c hc => ?_, fun ds => ?_⟩
  · obtain ⟨h₁, h₂, h₃⟩ := hp.spare c hc
    exact ⟨by rw [hp.nodup.count, if_pos hc], h₁, h₂, h₃, hknown c h₂, htarget c h₃⟩
  · exact ⟨Cells.lt_size_of_isCaptured hc, hp.not_mem_free hc⟩
  · obtain ⟨h₁, h₂⟩ := hp.given_unused ds
    exact ⟨h₁, fun c hc => ⟨(h₂ c hc).1, hknown c (h₂ c hc).2, htarget c (h₂ c hc).1⟩⟩

/-- **Cells are never shared.** At every moment in the life of a machine with an honest host, each
cell has one use, and no variable gets a cell that a live variable, a function or an assignment
refers to. And the cells that a function refers to at one moment are captured at every later one, so
that no variable which begins later gets any of them. -/
theorem cells_never_shared {host : Host} {ts : List Node} {next : Nat}
    (ht : ReadInTurn ts next) (hh : ∀ r ∈ host, r.Honest (nodesOf ts)) (hx : Reached host ts x) :
    Unshared x ∧ ∀ y, Later ts x y → ∀ f, Knows x f → ∀ p ∈ f.captures,
      y.1.cells.isCaptured p.2 = true ∧ ∀ ds, p.2 ∉ y.1.cells.given ds := by
  have hnew : ∀ next, Tidied (nodesOf ts) (fun _ => False) { host, next } := fun next =>
    .of_idle (Custody.machines_new (C := captureCustody _ _) ⟨Cells.partitioned_empty, by simp⟩
      hh next) rfl
  have h := (sorted_perpetual ht.program).of_reached hnew hx
  refine ⟨unshared_of_throughout h, fun y hxy f hf p hp => ?_⟩
  -- From `x` on the cells that are captured there stay captured.
  have hx' : Throughout (Tidied (nodesOf ts) fun c => x.1.cells.isCaptured c = true)
      (Sorted (nodesOf ts) fun c => x.1.cells.isCaptured c = true) x := recapture h fun _ hc => hc
  have hy := partitioned_of_throughout ((sorted_perpetual ht.program).of_later hxy hx')
  have hcap := hy.2 _ (isCaptured_of_knows h hf p hp)
  refine ⟨hcap, fun ds hm => ?_⟩
  simp [((hy.1.given_unused ds).2 _ hm).2] at hcap

/-- The cells that a function which is about to be given has captured. -/
def boundCells : Machine × Focus → List Nat
  | (_, .give (.function f)) => f.captures.map (·.2)
  | _ => []

theorem knows_of_boundCells {z : Machine × Focus} {cs : List Nat} (h : boundCells z = cs)
    (hne : cs ≠ []) : ∃ f, Knows (z.1, some z.2) f ∧ f.captures.map (·.2) = cs := by
  unfold boundCells at h
  split at h
  · rename_i m f
    exact ⟨f, ⟨_, .given m (.function f), List.mem_singleton_self f⟩, h⟩
  · exact (hne h.symm).elim

/-- Two calls of one function, each of which returns a function of its own variable. -/
def counters : String :=
  "function counter() { var n = null; return function() { n = !n; return n; }; }
  var a = counter(); var b = counter(); a()"

/-- The function that the first call returns, and the later moment at which the second one returns. -/
theorem cells_never_shared_counters :
    ∃ x y f g, Reached Host.standard [((Parser.new {}).parse counters).1] x ∧
      Later [((Parser.new {}).parse counters).1] x y ∧
      Knows x f ∧ f.captures.map (·.2) = [3] ∧ Knows y g ∧ g.captures.map (·.2) = [4] ∧
      Unshared x ∧ ∀ p ∈ f.captures,
        y.1.cells.isCaptured p.2 = true ∧ ∀ ds, p.2 ∉ y.1.cells.given ds := by
  have hrun : (advance 28 {} (.enter ((Parser.new {}).parse counters).1)).bind (fun z =>
      (advance 26 z.1 z.2).map fun w => (boundCells z, boundCells w)) = some ([3], [4]) := by
    decide +kernel
  obtain ⟨z, hz, hrun⟩ := Option.bind_eq_some_iff.1 hrun
  obtain ⟨w, hw, hrun⟩ := Option.map_eq_some_iff.1 hrun
  obtain ⟨hbz, hbw⟩ := Prod.mk.inj hrun
  obtain ⟨f, hf, hfc⟩ := knows_of_boundCells hbz (List.cons_ne_nil _ _)
  obtain ⟨g, hg, hgc⟩ := knows_of_boundCells hbw (List.cons_ne_nil _ _)
  have hx : Reached Host.standard [((Parser.new {}).parse counters).1] (z.1, some z.2) :=
    reached_of_advance hz
  obtain ⟨hun, hlater⟩ := cells_never_shared (.read counters (.none 1) (.new {} 1) (Nat.le_refl 1))
    (Host.forall_always (Host.honest_standard _)) hx
  exact ⟨_, _, f, g, hx, later_of_advance hw, hf, hfc, hg, hgc, hun,
    hlater _ (later_of_advance hw) f hf⟩

end Machine

end Steppable
