import Steppable.Proofs.Lexical.Interpreter
import Steppable.Proofs.Lexical.Renaming
import Steppable.Proofs.Machine.Aliasing

/-!
# Live cells and the cells of the interpreter

A machine uses cells again, the interpreter does not. What the two have in common are the cells that
are *live*: on a stack or captured. A renaming `ρ` leads from these to the cells of the interpreter,
without taking two to the same one, and the values agree (`Reflects`). Each operation on the cells of
the machine that keeps its live cells keeps this, where a variable that begins extends the renaming
and one that ends just leaves it.
-/

namespace Steppable

namespace Lexical

/-- The cells of the machine are sound: partitioned, and all functions in them refer to captured
ones. -/
abbrev Sound (S : Node → Prop) (s : Cells) : Prop :=
  (captureCustody S fun _ => False).Stores s

/-- The value may be in a cell. -/
abbrev Keeps (S : Node → Prop) (s : Cells) (v : Value) : Prop :=
  (captureCustody S fun _ => False).Keeps s v

/-- The renaming leads from the live cells to cells with the same values. Errors and signals are in
no cell. -/
structure Reflects (ρ : Nat → Nat) (s : Cells) (values : Array Value) : Prop where
  inj : ∀ {c c'}, s.Live c → s.Live c' → ρ c = ρ c' → c = c'
  value : ∀ {c}, s.Live c → values[ρ c]? = some ((s.get c).rename ρ)
  plain : ∀ {c}, s.Live c → (s.get c).isAbrupt = false

/-- What is live or captured stays so, under the same names. -/
structure Extends (ρ : Nat → Nat) (s : Cells) (ρ' : Nat → Nat) (s' : Cells) : Prop where
  live : ∀ {c}, s.Live c → s'.Live c
  captured : ∀ {c}, s.isCaptured c = true → s'.isCaptured c = true
  same : ∀ {c}, s.Live c → ρ' c = ρ c

variable {S : Node → Prop} {ρ ρ' ρ'' : Nat → Nat} {s s' s'' : Cells} {values : Array Value}
  {v : Value} {d : Declaration} {c : Nat}

theorem Extends.refl (ρ : Nat → Nat) (s : Cells) : Extends ρ s ρ s :=
  ⟨fun h => h, fun h => h, fun _ => rfl⟩

theorem Extends.trans (h : Extends ρ s ρ' s') (h' : Extends ρ' s' ρ'' s'') :
    Extends ρ s ρ'' s'' where
  live hc := h'.live (h.live hc)
  captured hc := h'.captured (h.captured hc)
  same hc := (h'.same (h.live hc)).trans (h.same hc)

/-- A value that may be in a cell has the same name afterwards. -/
theorem Extends.rename (h : Extends ρ s ρ' s') (hv : Keeps S s v) : v.rename ρ' = v.rename ρ :=
  Value.rename_congr hv fun _ hf p hp => h.same (.inr (hf.2 p hp))

theorem Extends.keeps (h : Extends ρ s ρ' s') (hv : Keeps S s v) : Keeps S s' v :=
  Value.Kept.mono (fun _ hf => ⟨hf.1, fun p hp => h.captured (hf.2 p hp)⟩) hv

/-! ## Operations -/

/-- A variable begins. -/
theorem Reflects.register (hs : Sound S s) (h : Reflects ρ s values) (d : Declaration) :
    ∃ ρ', ρ' (s.register d).1 = values.size ∧
      Reflects ρ' (s.register d).2 (values.push .undefined) ∧ Extends ρ s ρ' (s.register d).2 := by
  have hnew := hs.1.1.not_live_register d
  have hlt : ∀ {c}, s.Live c → ρ c < values.size := fun hc =>
    (Array.getElem?_eq_some_iff.1 (h.value hc)).1
  have hne : ∀ {c}, s.Live c → c ≠ (s.register d).1 := by
    rintro c hc rfl
    exact hnew hc
  let ρ' : Nat → Nat := fun c => if c = (s.register d).1 then values.size else ρ c
  have hold : ∀ {c}, s.Live c → ρ' c = ρ c := fun hc => if_neg (hne hc)
  have hext : Extends ρ s ρ' (s.register d).2 := by
    refine ⟨fun hc => (Cells.live_register s d _).2 (.inr ⟨hne hc, hc⟩), fun hc => ?_, hold⟩
    rw [Cells.isCaptured_register, if_neg (hne (.inr hc)).symm]
    exact hc
  refine ⟨ρ', if_pos rfl, ⟨fun {c c'} hc hc' he => ?_, fun {c} hc => ?_, fun {c} hc => ?_⟩, hext⟩
  · rcases (Cells.live_register s d c).1 hc with rfl | ⟨-, hc⟩ <;>
      rcases (Cells.live_register s d c').1 hc' with rfl | ⟨-, hc'⟩
    · rfl
    · have := hlt hc'
      rw [hold hc', show ρ' (s.register d).1 = values.size from if_pos rfl] at he
      omega
    · have := hlt hc
      rw [hold hc, show ρ' (s.register d).1 = values.size from if_pos rfl] at he
      omega
    · rw [hold hc, hold hc'] at he
      exact h.inj hc hc' he
  · rw [Cells.get_register]
    rcases (Cells.live_register s d c).1 hc with rfl | ⟨hcne, hc⟩
    · rw [if_pos rfl, show ρ' (s.register d).1 = values.size from if_pos rfl]
      exact Array.getElem?_push_size
    · rw [if_neg (Ne.symm hcne), hold hc, hext.rename (hs.2 c), Array.getElem?_push,
        if_neg (Nat.ne_of_lt (hlt hc))]
      exact h.value hc
  · rw [Cells.get_register]
    rcases (Cells.live_register s d c).1 hc with rfl | ⟨hcne, hc⟩
    · rw [if_pos rfl]
      rfl
    · rw [if_neg (Ne.symm hcne)]
      exact h.plain hc

/-- A variable is written to. -/
theorem Reflects.set (hs : Sound S s) (h : Reflects ρ s values) (hc : s.Live c)
    (hv : Keeps S s v) (hplain : v.isAbrupt = false) :
    Reflects ρ (s.set c v) (values.setIfInBounds (ρ c) (v.rename ρ)) ∧ Extends ρ s ρ (s.set c v) := by
  have hlive : ∀ {c'}, (s.set c v).Live c' ↔ s.Live c' := by
    intro c'
    simp [Cells.Live]
  have hlt : ρ c < values.size := (Array.getElem?_eq_some_iff.1 (h.value hc)).1
  have hderef : s.deref v = v := by
    cases v with
    | reference => exact hv.elim
    | _ => rfl
  refine ⟨⟨fun hc hc' => h.inj (hlive.1 hc) (hlive.1 hc'), fun {c'} hc' => ?_, fun {c'} hc' => ?_⟩,
    ⟨hlive.2, fun hc => by simpa using hc, fun _ => rfl⟩⟩
  · have hc' := hlive.1 hc'
    rw [Cells.get_set, hderef, Array.getElem?_setIfInBounds]
    by_cases he : c = c'
    · subst he
      rw [if_pos rfl, if_pos hlt, if_pos ⟨rfl, hs.1.1.lt_of_live hc⟩]
    · rw [if_neg fun hρ => he (h.inj hc hc' hρ), if_neg fun hρ => he hρ.1]
      exact h.value hc'
  · rw [Cells.get_set, hderef]
    split
    · exact hplain
    · exact h.plain (hlive.1 hc')

/-- A live cell is captured. -/
theorem Reflects.capture (h : Reflects ρ s values) (hc : s.Live c) :
    Reflects ρ (s.capture c) values ∧ Extends ρ s ρ (s.capture c) := by
  have hlive : ∀ {c'}, (s.capture c).Live c' ↔ s.Live c' := by
    intro c'
    simp only [Cells.Live, Cells.stack_capture, Cells.isCaptured_capture, Bool.or_eq_true,
      decide_eq_true_eq]
    constructor
    · rintro (hs | ⟨rfl, -⟩ | hs)
      · exact .inl hs
      · exact hc
      · exact .inr hs
    · rintro (hs | hs)
      · exact .inl hs
      · exact .inr (.inr hs)
  refine ⟨⟨fun hc hc' => h.inj (hlive.1 hc) (hlive.1 hc'), fun hc' => ?_, fun hc' => ?_⟩,
    ⟨hlive.2, fun hc => ?_, fun _ => rfl⟩⟩
  · rw [Cells.get_capture]
    exact h.value (hlive.1 hc')
  · rw [Cells.get_capture]
    exact h.plain (hlive.1 hc')
  · rw [Cells.isCaptured_capture, hc, Bool.or_true]

/-- A captured cell gets onto a stack. -/
theorem Reflects.push (h : Reflects ρ s values) (hc : s.isCaptured c = true) (d : Declaration) :
    Reflects ρ (s.push d c) values ∧ Extends ρ s ρ (s.push d c) := by
  have hlive : ∀ {c'}, (s.push d c).Live c' ↔ s.Live c' := by
    intro c'
    constructor
    · rintro (⟨e, he⟩ | hs)
      · rw [Cells.stack_push] at he
        split at he
        · rcases List.mem_cons.1 he with rfl | he
          · exact .inr hc
          · exact .inl ⟨e, he⟩
        · exact .inl ⟨e, he⟩
      · exact .inr hs
    · rintro (⟨e, he⟩ | hs)
      · refine .inl ⟨e, ?_⟩
        rw [Cells.stack_push]
        split
        · exact List.mem_cons_of_mem c he
        · exact he
      · exact .inr hs
  exact ⟨⟨fun hc hc' => h.inj (hlive.1 hc) (hlive.1 hc'), fun hc' => h.value (hlive.1 hc'),
    fun hc' => h.plain (hlive.1 hc')⟩, ⟨hlive.2, fun hc => hc, fun _ => rfl⟩⟩

/-- Variables end. -/
theorem Reflects.unregisterAll (hs : s.Partitioned) (h : Reflects ρ s values)
    (ds : List Declaration) : Reflects ρ (s.unregisterAll ds) values := by
  obtain ⟨-, hlive⟩ := hs.live_unregisterAll ds
  refine ⟨fun hc hc' => h.inj (hlive _ hc).1 (hlive _ hc').1, fun hc => ?_, fun hc => ?_⟩
  · rw [(hlive _ hc).2]
    exact h.value (hlive _ hc).1
  · rw [(hlive _ hc).2]
    exact h.plain (hlive _ hc).1

/-! ## Environments -/

/-- The environment has the current cells of the variables in `Γ`. -/
def Agrees (ρ : Nat → Nat) (env : Env) (s : Cells) (Γ : Nat → Prop) : Prop :=
  ∀ d : Declaration, Γ d.id → ∃ c, s.find? d = some c ∧ env d.id = some (ρ c)

variable {env : Env} {Γ Δ : Nat → Prop}

/-- The same variables are current afterwards. -/
theorem Agrees.extend (h : Agrees ρ env s Γ) (hx : Extends ρ s ρ' s')
    (hs : ∀ d, s'.stack d = s.stack d) : Agrees ρ' env s' Γ := by
  intro d hd
  obtain ⟨c, hc, henv⟩ := h d hd
  refine ⟨c, ?_, ?_⟩
  · rw [Cells.find?, hs]
    exact hc
  · rw [henv, hx.same (Cells.live_of_find hc)]

/-- A cell becomes the current one of `d`. -/
theorem Agrees.bind (h : Agrees ρ env s Γ) (hx : Extends ρ s ρ' s')
    (hs : ∀ e, s'.stack e = if d.id = e.id then c :: s.stack e else s.stack e) :
    Agrees ρ' (env.bind d (ρ' c)) s' fun k => Γ k ∨ k = d.id := by
  intro e he
  by_cases hid : d.id = e.id
  · refine ⟨c, ?_, ?_⟩
    · rw [Cells.find?, hs, if_pos hid]
      rfl
    · rw [Env.bind, if_pos hid.symm]
  · obtain ⟨c', hc', henv⟩ := h e (he.resolve_right (Ne.symm hid))
    refine ⟨c', ?_, ?_⟩
    · rw [Cells.find?, hs, if_neg hid]
      exact hc'
    · rw [Env.bind, if_neg (Ne.symm hid), henv, hx.same (Cells.live_of_find hc')]

theorem Agrees.mono (h : Agrees ρ env s Γ) (hΓ : ∀ k, Δ k → Γ k) : Agrees ρ env s Δ :=
  fun d hd => h d (hΓ _ hd)

/-! ## Several variables -/

theorem registerAll_eq (s : Cells) (ds : List Declaration) :
    s.registerAll ds = Machine.bindParams s ds [] := by
  have hset : ∀ (s : Cells) (d : Declaration),
      (s.register d).2.set (s.register d).1 .undefined = (s.register d).2 := by
    intro s d
    have hcells : (s.register d).2.cells.modify (s.register d).1
        (fun c => { c with value := .undefined }) = (s.register d).2.cells := by
      refine Array.ext (by simp) fun i hi hi' => ?_
      rw [Array.getElem_modify]
      split
      · rename_i he
        have hblank := Cells.getD_register s d i
        rw [if_pos he, Array.getD_eq_getD_getElem?, Array.getElem?_eq_getElem hi'] at hblank
        rw [show (s.register d).2.cells[i] = {} from hblank]
      · rfl
    unfold Cells.set
    rw [show (s.register d).2.deref .undefined = .undefined from rfl, hcells]
  induction ds generalizing s with
  | nil => rfl
  | cons d ds ih =>
    rw [Machine.bindParams]
    dsimp only
    rw [List.headD_nil, hset, List.tail_nil, ← ih]
    rfl

theorem setIfInBounds_push (values : Array Value) (v w : Value) :
    (values.push v).setIfInBounds values.size w = values.push w := by
  refine Array.ext_getElem? fun i => ?_
  rw [Array.getElem?_setIfInBounds, Array.getElem?_push, Array.getElem?_push]
  by_cases hi : values.size = i
  · simp [hi]
  · simp [hi, Ne.symm hi]

/-- Parameters get new cells with the arguments in them. -/
theorem bindAll_bindParams (hP : Program S) {σ : Store} (ds : List Declaration) {vs : List Value}
    (hs : Sound S s) (h : Reflects ρ s σ.values) (ha : Agrees ρ env s Γ)
    (hv : ∀ v ∈ vs, Keeps S s v ∧ v.isAbrupt = false) :
    ∃ env' ρ' values', bindAll env ds (vs.map (Value.rename ρ)) σ =
        some (env', { σ with values := values' }) ∧
      Reflects ρ' (Machine.bindParams s ds vs) values' ∧
      Extends ρ s ρ' (Machine.bindParams s ds vs) ∧
      Agrees ρ' env' (Machine.bindParams s ds vs) fun k => Γ k ∨ idsOf ds k := by
  have hC := captureCustody_lawful (K := fun _ => False) hP
  induction ds generalizing s ρ σ env Γ vs with
  | nil =>
    refine ⟨env, ρ, σ.values, rfl, h, .refl ρ s, ha.mono fun k hk => ?_⟩
    exact hk.resolve_right fun ⟨d, hd, _⟩ => by simp at hd
  | cons d ds ih =>
    obtain ⟨ρ₁, hname, h₁, hx₁⟩ := h.register hs d
    obtain ⟨hs₁, -⟩ := Custody.turns_register (captureCustody_register s d) hs
    obtain ⟨hhead, hplain⟩ : Keeps S s (vs.headD .undefined) ∧
        (vs.headD .undefined).isAbrupt = false := by
      cases vs with
      | nil => exact ⟨trivial, rfl⟩
      | cons v vs => exact hv v (by simp)
    have hlive : (s.register d).2.Live (s.register d).1 :=
      (Cells.live_register s d _).2 (.inl rfl)
    obtain ⟨h₂, hx₂⟩ := h₁.set hs₁ hlive (hx₁.keeps hhead) hplain
    obtain ⟨hs₂, -⟩ := Custody.turns_set hC _ (s.register d).1 (.inl (hx₁.keeps hhead)) hs₁
    have hvalues : (σ.values.push .undefined).setIfInBounds (ρ₁ (s.register d).1)
        ((vs.headD .undefined).rename ρ₁) = σ.values.push ((vs.headD .undefined).rename ρ) := by
      rw [hname, hx₁.rename hhead, setIfInBounds_push]
    rw [hvalues] at h₂
    have ha₂ := ha.bind (hx₁.trans hx₂) fun e => (Cells.stack_register s e d)
    obtain ⟨env', ρ', values', hb, h', hx', ha'⟩ := ih hs₂
      (σ := { σ with values := σ.values.push ((vs.headD .undefined).rename ρ) }) h₂ ha₂
      fun v hm => ⟨(hx₁.trans hx₂).keeps (hv v (List.mem_of_mem_tail hm)).1,
        (hv v (List.mem_of_mem_tail hm)).2⟩
    refine ⟨env', ρ', values', ?_, h', (hx₁.trans hx₂).trans hx', ha'.mono fun k hk => ?_⟩
    · have htail : vs.tail.map (Value.rename ρ₁) = (vs.map (Value.rename ρ)).tail := by
        rw [← List.map_tail]
        exact List.map_congr_left fun v hm => hx₁.rename (hv v (List.mem_of_mem_tail hm)).1
      have hhd : (vs.map (Value.rename ρ)).headD .undefined = (vs.headD .undefined).rename ρ := by
        cases vs <;> rfl
      rw [htail, hname] at hb
      rw [bindAll]
      show bindAll (env.bind d σ.values.size) ds _ _ = _
      rw [hhd, hb]
    · rcases hk with hk | ⟨e, he, rfl⟩
      · exact .inl (.inl hk)
      · rcases List.mem_cons.1 he with rfl | he
        · exact .inl (.inr rfl)
        · exact .inr ⟨e, he, rfl⟩

/-- Free variables are captured. -/
theorem capture_captureAll {ds : List Declaration} (h : Reflects ρ s values)
    (ha : Agrees ρ env s Γ) (hds : ∀ d ∈ ds, Γ d.id) :
    ∃ captures s', Machine.captureAll s ds = (.ok captures, s') ∧
      capture env ds = .ok (captures.map fun p => (p.1, ρ p.2)) ∧
      Reflects ρ s' values ∧ Extends ρ s ρ s' ∧ ∀ d, s'.stack d = s.stack d := by
  induction ds generalizing s with
  | nil => exact ⟨[], s, rfl, rfl, h, .refl ρ s, fun _ => rfl⟩
  | cons d ds ih =>
    obtain ⟨c, hc, henv⟩ := ha d (hds d (by simp))
    obtain ⟨h₁, hx₁⟩ := h.capture (Cells.live_of_find hc)
    have ha₁ : Agrees ρ env (s.capture c) Γ := ha.extend hx₁ fun _ => rfl
    obtain ⟨captures, s', hall, hcap, h', hx', hstack⟩ := ih h₁ ha₁ fun e he => hds e (by simp [he])
    refine ⟨(d, c) :: captures, s', ?_, ?_, h', hx₁.trans hx', hstack⟩
    · rw [Machine.captureAll, hc]
      dsimp only
      rw [hall]
    · rw [capture, henv, hcap]
      rfl

/-- The free variables of a function that is called have the cells that it captured. -/
theorem agrees_pushAll {captures : List (Declaration × Nat)} (h : Reflects ρ s values)
    (ha : Agrees ρ env s Γ) (hc : ∀ p ∈ captures, s.isCaptured p.2 = true) :
    Reflects ρ (captures.foldl (fun s (d, cell) => s.push d cell) s) values ∧
      Extends ρ s ρ (captures.foldl (fun s (d, cell) => s.push d cell) s) ∧
      Agrees ρ ((captures.map fun p => (p.1, ρ p.2)).foldl (fun env p => env.bind p.1 p.2) env)
        (captures.foldl (fun s (d, cell) => s.push d cell) s)
        fun k => Γ k ∨ idsOf (captures.map (·.1)) k := by
  induction captures generalizing s env Γ with
  | nil =>
    refine ⟨h, .refl ρ s, ha.mono fun k hk => hk.resolve_right ?_⟩
    rintro ⟨d, hd, -⟩
    simp at hd
  | cons p captures ih =>
    obtain ⟨h₁, hx₁⟩ := h.push (hc p (by simp)) p.1
    have ha₁ := ha.bind hx₁ fun e => Cells.stack_push s e p.1 p.2
    obtain ⟨h', hx', ha'⟩ := ih h₁ ha₁ fun q hq => hc q (by simp [hq])
    refine ⟨h', hx₁.trans hx', ha'.mono fun k hk => ?_⟩
    rcases hk with hk | ⟨d, hd, rfl⟩
    · exact .inl (.inl hk)
    · rcases List.mem_cons.1 hd with rfl | hd
      · exact .inl (.inr rfl)
      · exact .inr ⟨d, hd, rfl⟩

/-- **The environment of a call** has the captured cells and new ones for the parameters. -/
theorem bindAll_activate (hP : Program S) {σ : Store} {f : Closure} {vs : List Value}
    (hs : Sound S s) (h : Reflects ρ s σ.values) (hf : Keeps S s (.function f))
    (hv : ∀ v ∈ vs, Keeps S s v ∧ v.isAbrupt = false) :
    ∃ env ρ' values', bindAll (.ofCaptures (f.rename ρ).captures) f.code.params
        (vs.map (Value.rename ρ)) σ = some (env, { σ with values := values' }) ∧
      Reflects ρ' (Machine.activate s f vs) values' ∧ Extends ρ s ρ' (Machine.activate s f vs) ∧
      Agrees ρ' env (Machine.activate s f vs)
        fun k => idsOf (f.captures.map (·.1)) k ∨ idsOf f.code.params k := by
  have hC := captureCustody_lawful (K := fun _ => False) hP
  have hnone : Agrees ρ .empty s fun _ => False := fun _ hd => hd.elim
  obtain ⟨h₁, hx₁, ha₁⟩ := agrees_pushAll h hnone hf.2
  obtain ⟨hs₁, -⟩ := Custody.turns_pushAll hC s f.captures (fun _ hp => hp) hf hs
  obtain ⟨env, ρ', values', hb, h', hx', ha'⟩ := bindAll_bindParams hP f.code.params hs₁ h₁
    ha₁ fun v hm => ⟨hx₁.keeps (hv v hm).1, (hv v hm).2⟩
  refine ⟨env, ρ', values', hb, h', hx₁.trans hx', ha'.mono fun k hk => ?_⟩
  exact hk.imp_left .inr

end Lexical

end Steppable
