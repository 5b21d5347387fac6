import Steppable.Machine.Step
import Steppable.Proofs.Machine.Custody

/-!
# Renaming cells in values

Which cells a function has captured cannot be seen by an operator, a conversion or a member: a
renaming of cells commutes with all of them. Only a variable as such shows its cell, and it is read
before any of these gets to see it.
-/

namespace Steppable

/-- The function with its captured cells renamed. -/
def Closure.rename (ρ : Nat → Nat) (f : Closure) : Closure :=
  { f with captures := f.captures.map fun p => (p.1, ρ p.2) }

/-- The value with the cells renamed in the functions and variables in it. -/
def Value.rename (ρ : Nat → Nat) : Value → Value
  | .function f => .function (f.rename ρ)
  | .reference cell => .reference (ρ cell)
  | .signal k culprit v => .signal k culprit (v.rename ρ)
  | v => v

/-- Whether the value is a variable as such. -/
def Value.isReference : Value → Bool
  | .reference _ => true
  | _ => false

namespace Value

variable {ρ ρ' : Nat → Nat} {v l r : Value}

theorem rename_of_isData (h : v.isData = true) : v.rename ρ = v := by
  cases v with
  | function | reference | signal => simp [isData] at h
  | _ => rfl

/-- Only the cells of the functions in a value matter. -/
theorem rename_congr {k : Closure → Prop} (h : v.Kept False k)
    (hk : ∀ f, k f → ∀ p ∈ f.captures, ρ' p.2 = ρ p.2) : v.rename ρ' = v.rename ρ := by
  fun_induction Value.rename ρ v with
  | case1 f =>
    have : (f.captures.map fun p => (p.1, ρ' p.2)) = f.captures.map fun p => (p.1, ρ p.2) :=
      List.map_congr_left fun p hp => by rw [hk f h p hp]
    rw [rename, Closure.rename, Closure.rename, this]
  | case2 => exact h.elim
  | case3 kind n v ih => rw [rename, ih h]
  | case4 v => cases v <;> simp_all [rename]

theorem isReference_of_kept {k : Closure → Prop} (h : v.Kept False k) : v.isReference = false := by
  cases v with
  | reference => exact h.elim
  | _ => rfl

@[simp]
theorem isReference_rename (ρ : Nat → Nat) (v : Value) : (v.rename ρ).isReference = v.isReference := by
  cases v <;> rfl

@[simp]
theorem isAbrupt_rename (ρ : Nat → Nat) (v : Value) : (v.rename ρ).isAbrupt = v.isAbrupt := by
  cases v <;> rfl

@[simp]
theorem toBoolean_rename (ρ : Nat → Nat) (v : Value) : (v.rename ρ).toBoolean = v.toBoolean := by
  cases v <;> rfl

@[simp]
theorem toNumber_rename (ρ : Nat → Nat) (v : Value) : (v.rename ρ).toNumber = v.toNumber := by
  cases v <;> rfl

@[simp]
theorem toInt64_rename (ρ : Nat → Nat) (v : Value) : (v.rename ρ).toInt64 = v.toInt64 := by
  rw [toInt64, toInt64, toNumber_rename]

@[simp]
theorem typeName_rename (ρ : Nat → Nat) (v : Value) : (v.rename ρ).typeName = v.typeName := by
  cases v <;> rfl

theorem text_rename (ρ : Nat → Nat) (h : v.isReference = false) : (v.rename ρ).text = v.text := by
  cases v with
  | reference => simp [isReference] at h
  | function f =>
    obtain ⟨i, code, captures⟩ := f
    simp [rename, Closure.rename, text]
  | signal k n v => simp [rename, text]
  | _ => rfl

theorem toPrimitive_rename (ρ : Nat → Nat) (h : v.isReference = false) :
    (v.rename ρ).toPrimitive = v.toPrimitive := by
  cases v with
  | reference => simp [isReference] at h
  | function f => exact congrArg Value.string (text_rename ρ h)
  | _ => rfl

theorem members_rename (ρ : Nat → Nat) (v : Value) : Host.members (v.rename ρ) = Host.members v := by
  cases v <;> rfl

/-! ## Comparing -/

theorem strictEqual_rename (ρ : Nat → Nat) (hl : l.isReference = false) :
    strictEqual (l.rename ρ) (r.rename ρ) = strictEqual l r := by
  cases l with
  | reference => simp [isReference] at hl
  | _ => cases r <;> rfl

/-- The pair with the cells renamed in both values. -/
def Pair.rename (ρ : Nat → Nat) (p : Pair) : Pair :=
  ⟨p.x.rename ρ, p.y.rename ρ, p.swapped⟩

theorem withoutNull_rename (ρ : Nat → Nat) (v : Value) :
    (v.rename ρ).withoutNull = v.withoutNull.rename ρ := by
  cases v <;> rfl

theorem isReference_withoutNull (v : Value) : v.withoutNull.isReference = v.isReference := by
  cases v <;> rfl

theorem pair_rename (ρ : Nat → Nat) (l r : Value) :
    Pair.of (l.rename ρ) (r.rename ρ) = (Pair.of l r).rename ρ := by
  simp only [Pair.of, withoutNull_rename, typeName_rename]
  split <;> rfl

theorem isReference_pair (hl : l.isReference = false) (hr : r.isReference = false) :
    (Pair.of l r).x.isReference = false ∧ (Pair.of l r).y.isReference = false := by
  simp only [Pair.of]
  split <;> simp [isReference_withoutNull, hl, hr]

theorem isReference_toPrimitive (h : v.isReference = false) : v.toPrimitive.isReference = false := by
  cases v with
  | reference => simp [isReference] at h
  | _ => rfl

theorem equalVia_rename {again again' : Value → Value → Bool} {p : Pair}
    (hx : p.x.isReference = false) (hy : p.y.isReference = false)
    (h : ∀ x y, x.isReference = false → y.isReference = false →
      again' (x.rename ρ) y.toPrimitive = again x y.toPrimitive ∧
        again' x.toPrimitive (y.rename ρ) = again x.toPrimitive y) :
    (p.rename ρ).equalVia again' = p.equalVia again := by
  simp only [Pair.equalVia, Pair.rename, typeName_rename, toNumber_rename, toBoolean_rename,
    strictEqual_rename ρ hx, toPrimitive_rename ρ hx, toPrimitive_rename ρ hy, (h _ _ hx hy).1,
    (h _ _ hx hy).2]

theorem toPrimitive_data (v : Value) (h : v.isReference = false) : v.toPrimitive.isData = true := by
  cases v with
  | reference => simp [isReference] at h
  | _ => rfl

theorem looseEqual_rename (ρ : Nat → Nat) (hl : l.isReference = false) (hr : r.isReference = false) :
    looseEqual (l.rename ρ) (r.rename ρ) = looseEqual l r := by
  -- The second comparison never converts again.
  have once : ∀ x y, x.isReference = false → y.isReference = false →
      (Pair.of (x.rename ρ) (y.rename ρ)).equalVia (fun _ _ => false) =
        (Pair.of x y).equalVia fun _ _ => false := by
    intro x y hx hy
    obtain ⟨hx', hy'⟩ := isReference_pair hx hy
    rw [pair_rename, equalVia_rename hx' hy' fun _ _ _ _ => ⟨rfl, rfl⟩]
  obtain ⟨hx, hy⟩ := isReference_pair hl hr
  rw [looseEqual, looseEqual, pair_rename]
  refine equalVia_rename hx hy fun x y hx hy => ⟨?_, ?_⟩
  · have := once x y.toPrimitive hx (isReference_toPrimitive hy)
    rwa [rename_of_isData (toPrimitive_data y hy)] at this
  · have := once x.toPrimitive y (isReference_toPrimitive hx) hy
    rwa [rename_of_isData (toPrimitive_data x hx)] at this

theorem compare_rename (ρ : Nat → Nat) (l r : Value) :
    compare? (l.rename ρ) (r.rename ρ) = compare? l r := by
  rw [compare?, compare?, pair_rename]
  rcases Pair.of l r with ⟨x, y, swapped⟩
  cases x <;> cases y <;> rfl

/-! ## Operators -/

theorem apply_arith_rename (ρ : Nat → Nat) (op : Arith) (hl : l.isReference = false)
    (hr : r.isReference = false) : op.apply (l.rename ρ) (r.rename ρ) = op.apply l r := by
  cases op <;> simp only [Arith.apply, plus, bitwise, shift, toNumber_rename, toInt64_rename,
    toPrimitive_rename ρ hl, toPrimitive_rename ρ hr]

/-- An operator does not see the cells of its operands. -/
theorem apply_binary_rename (ρ : Nat → Nat) (op : BinaryOp) (hl : l.isReference = false)
    (hr : r.isReference = false) : op.apply (l.rename ρ) (r.rename ρ) = op.apply l r := by
  cases op with
  | arith op => exact congrArg Except.ok (apply_arith_rename ρ op hl hr)
  | comparison op =>
    cases op <;> simp only [BinaryOp.apply, Comparison.apply, ordered, looseEqual_rename ρ hl hr,
      strictEqual_rename ρ hl, compare_rename]
  | connective op => rfl

theorem apply_unary_rename (ρ : Nat → Nat) (op : UnaryOp) (h : v.isReference = false) :
    op.apply (v.rename ρ) = op.apply v := by
  cases op <;> simp only [UnaryOp.apply, toPrimitive_rename ρ h, toBoolean_rename, toInt64_rename,
    typeName_rename]

end Value

/-! ## Rules -/

/-- The handler answers with data, and looks at nothing but the arguments, of which the cells do not
matter. -/
def Host.Rule.Blind (r : Host.Rule) : Prop :=
  ∀ (ρ : Nat → Nat) (vs : List Value) (chain : List Host.Link) (record : Host.Record),
    (∀ v ∈ vs, v.isReference = false) →
    (r.handler ⟨vs.map (Value.rename ρ), []⟩ {}).1 = (r.handler ⟨vs, chain⟩ record).1 ∧
      ((∃ v, (r.handler ⟨vs, chain⟩ record).1 = .value v ∧ v.isData = true) ∨
        ∃ message, (r.handler ⟨vs, chain⟩ record).1 = .fail message)

namespace Host

/-- It is enough to look at the answer to the arguments. -/
theorem blind_answering {path : List String} {ending : Ending} {f : List Value → Answer}
    (hf : ∀ (ρ : Nat → Nat) (vs : List Value), (∀ v ∈ vs, v.isReference = false) →
      f (vs.map (Value.rename ρ)) = f vs)
    (hd : ∀ vs, (∃ v, f vs = .value v ∧ v.isData = true) ∨ ∃ message, f vs = .fail message) :
    Rule.Blind ⟨path, ending, answering f⟩ :=
  fun ρ vs _ _ hvs => ⟨hf ρ vs hvs, hd vs⟩

theorem dateOf_rename (ρ : Nat → Nat) (vs : List Value) :
    dateOf (vs.map (Value.rename ρ)) = dateOf vs := by
  have hparts : ((vs.map (Value.rename ρ)).map fun a => max a.toInt64 0) =
      vs.map fun a => max a.toInt64 0 := by
    simp [Function.comp_def]
  have hmoment : dateMoment (vs.map (Value.rename ρ)) = dateMoment vs := by
    unfold dateMoment
    rw [hparts]
  unfold dateOf
  rw [hmoment]

theorem dateOf_cases (vs : List Value) :
    (∃ v, dateOf vs = .value v ∧ v.isData = true) ∨ ∃ message, dateOf vs = .fail message := by
  unfold dateOf
  cases (dateMoment vs).toMillis? with
  | some ms => exact .inl ⟨.date ms, rfl, rfl⟩
  | none => exact .inr ⟨_, rfl⟩

theorem blind_standard : ∀ r ∈ standard, r.Blind := by
  intro r hr
  simp only [standard, List.mem_cons, List.not_mem_nil, or_false] at hr
  rcases hr with rfl | rfl | rfl | rfl
  · refine blind_answering (fun ρ vs hvs => ?_) fun vs => .inl ⟨_, rfl, rfl⟩
    cases vs with
    | nil => rfl
    | cons v vs => simp only [List.map_cons, Value.toPrimitive_rename ρ (hvs v (by simp))]
  · refine blind_answering (fun ρ vs hvs => ?_) fun vs => .inl ⟨_, rfl, rfl⟩
    cases vs with
    | nil => rfl
    | cons v vs => simp only [List.map_cons, Value.text_rename ρ (hvs v (by simp))]
  · refine blind_answering (fun ρ vs hvs => ?_) fun vs => .inl ⟨_, rfl, rfl⟩
    cases vs with
    | nil => rfl
    | cons v vs => simp only [List.map_cons, Value.toBoolean_rename]
  · exact blind_answering (fun ρ vs _ => dateOf_rename ρ vs) dateOf_cases

theorem blind_members (v : Value) : ∀ r ∈ members v, r.Blind := by
  have hconst : ∀ (path : List String) (ending : Ending) (w : Value), w.isData = true →
      Rule.Blind ⟨path, ending, answering fun _ => .value w⟩ :=
    fun _ _ w hw => blind_answering (fun _ _ _ => rfl) fun _ => .inl ⟨w, rfl, hw⟩
  intro r hr
  cases v with
  | number x =>
    obtain rfl := List.mem_singleton.1 hr
    refine blind_answering (fun ρ vs _ => ?_) fun vs => ?_
    · cases vs with
      | nil => rfl
      | cons v vs => simp only [numberText, List.map_cons, Value.toInt64_rename]
    · cases vs with
      | nil => exact .inl ⟨_, rfl, rfl⟩
      | cons a vs =>
        simp only [numberText]
        split
        · exact .inl ⟨_, rfl, rfl⟩
        · exact .inr ⟨_, rfl⟩
  | string s =>
    simp only [members, List.mem_cons, List.not_mem_nil, or_false] at hr
    rcases hr with rfl | rfl | rfl
    · exact hconst _ _ _ rfl
    · refine blind_answering (fun ρ vs _ => ?_) fun vs => .inl ⟨_, rfl, rfl⟩
      cases vs with
      | nil => rfl
      | cons v vs => simp only [charAt, List.map_cons, Value.toInt64_rename]
    · exact hconst _ _ _ rfl
  | boolean b =>
    obtain rfl := List.mem_singleton.1 hr
    exact hconst _ _ _ rfl
  | date ms =>
    obtain rfl := List.mem_singleton.1 hr
    exact hconst _ _ _ rfl
  | error e =>
    obtain rfl := List.mem_singleton.1 hr
    exact hconst _ _ _ rfl
  | undefined | null | function | signal | reference => simp [members] at hr

end Host

end Steppable
