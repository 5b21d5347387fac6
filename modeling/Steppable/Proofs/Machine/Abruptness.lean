import Steppable.Proofs.Machine.Transparency

/-!
# Errors and signals are not stored

An error or a signal is only ever on its way out. No cell has one, no frame keeps one among its
values, and what a `return` carries is neither. This is what makes errors final: a step that gives an
error has either got it or made it (`soberly_step`), because there is nowhere else to take one from.
-/

namespace Steppable

/-! ## Cells -/

namespace Cells

variable {s : Cells} {v : Value}

/-- No cell has an error or a signal. -/
def Sober (s : Cells) : Prop :=
  ∀ c, (s.get c).isAbrupt = false

theorem sober_empty : Sober {} := by
  intro c
  simp [get, Value.isAbrupt, Value.isError, Value.isSignal]

/-- What is read is neither an error nor a signal. -/
theorem Sober.deref (h : s.Sober) (hv : v.isAbrupt = false) : (s.deref v).isAbrupt = false := by
  cases v with
  | reference c => exact h c
  | _ => exact hv

theorem Sober.register (h : s.Sober) (d : Declaration) : (s.register d).2.Sober :=
  Each.register (P := fun v => v.isAbrupt = false) h rfl d

theorem Sober.set (h : s.Sober) (cell : Nat) (hv : v.isAbrupt = false) : (s.set cell v).Sober :=
  Each.set (P := fun v => v.isAbrupt = false) h cell (h.deref hv)

theorem Sober.registerAll (h : s.Sober) (ds : List Declaration) : (s.registerAll ds).Sober :=
  Each.registerAll (P := fun v => v.isAbrupt = false) h rfl ds

theorem Sober.unregisterAll (h : s.Sober) (ds : List Declaration) : (s.unregisterAll ds).Sober :=
  Each.unregisterAll (P := fun v => v.isAbrupt = false) h rfl ds

theorem Sober.unwind (h : s.Sober) (fs : List Frame) : (s.unwind fs).Sober :=
  Each.unwind (P := fun v => v.isAbrupt = false) h rfl fs

theorem Sober.captureAll (h : s.Sober) (ds : List Declaration) :
    (Machine.captureAll s ds).2.Sober :=
  Each.captureAll (P := fun v => v.isAbrupt = false) h ds

theorem Sober.activate (h : s.Sober) (callee : Closure) {vs : List Value}
    (hv : ∀ v ∈ vs, v.isAbrupt = false) : (Machine.activate s callee vs).Sober :=
  Each.activate (P := fun v => v.isAbrupt = false) h rfl callee fun v hm _ hs =>
    Sober.deref hs (hv v hm)

end Cells

/-! ## Rules and phases -/

/-- Whether the answer is neither an error nor a signal as a value; it may well be a failure. -/
def Host.Answer.isSober : Host.Answer → Bool
  | .value v | .anew v => !v.isAbrupt
  | _ => true

/-- The handler answers neither with an error nor with a signal. -/
def Host.Rule.Sober (r : Host.Rule) : Prop :=
  ∀ q record, (r.handler q record).1.isSober = true

theorem Value.isAbrupt_of_isData {v : Value} (h : v.isData = true) : v.isAbrupt = false := by
  cases v with
  | error | signal => simp [isData] at h
  | _ => rfl

theorem Value.isAbrupt_renewed (i : Nat) (v : Value) : (v.renewed i).isAbrupt = v.isAbrupt := by
  cases v <;> rfl

theorem Host.sober_members (v : Value) : ∀ r ∈ Host.members v, r.Sober := by
  have htext : ∀ x as, (Host.numberText x as).isSober = true := by
    intro x as
    unfold Host.numberText
    cases as with
    | nil => rfl
    | cons a as =>
      dsimp only
      split <;> rfl
  intro r hr q record
  cases v with
  | number x =>
    simp only [Host.members, List.mem_singleton] at hr
    subst hr
    exact htext x q.arguments
  | string s =>
    simp only [Host.members, List.mem_cons, List.not_mem_nil, or_false] at hr
    rcases hr with rfl | rfl | rfl <;> rfl
  | boolean | date | error =>
    simp only [Host.members, List.mem_singleton] at hr
    subst hr
    rfl
  | undefined | null | function | signal | reference => simp [Host.members] at hr

theorem Host.sober_standard : ∀ r ∈ Host.standard, r.Sober := by
  intro r hr q record
  simp only [Host.standard, List.mem_cons, List.not_mem_nil, or_false] at hr
  rcases hr with rfl | rfl | rfl | rfl
  · rfl
  · rfl
  · rfl
  · show (Host.dateOf q.arguments).isSober = true
    unfold Host.dateOf
    split <;> rfl

/-- The values that a frame keeps in this phase are neither errors nor signals, and the rules that it
asks answer with neither. -/
structure Phase.Sober (ψ : Phase) : Prop where
  values : ∀ v ∈ ψ.values, v.isAbrupt = false
  rules : ∀ r ∈ ψ.rules, r.Sober

namespace Machine

/-- What a signal on its way carries is neither an error nor a signal. -/
def Sane (φ : Focus) : Prop :=
  ∀ kind culprit w, φ = .give (.signal kind culprit w) → w.isAbrupt = false

/-- What the machine stores is neither an error nor a signal, and its host answers with neither. -/
structure Sober (m : Machine) : Prop where
  cells : m.cells.Sober
  phases : ∀ c ∈ m.cores, c.2.Sober
  host : ∀ r ∈ m.host, r.Sober

variable {m m₁ : Machine} {φ : Focus} {f : Frame} {fs : List Frame} {v w : Value} {ψ : Phase}
  {n : Node} {rules : List Host.Rule} {S : Node → Prop} {k : Nat}

theorem sane_of_isAbrupt (h : v.isAbrupt = false) : Sane (.give v) := by
  intro kind culprit w hw; cases hw
  cases h

theorem Alike.sober (ha : Alike m m₁) (h : Sober m) : Sober m₁ :=
  ⟨ha.cells ▸ h.cells, ha.cores_eq ▸ h.phases, ha.host ▸ h.host⟩

theorem Sober.withCells (h : Sober m) {s : Cells} (hs : s.Sober) : Sober { m with cells := s } :=
  ⟨hs, h.phases, h.host⟩

theorem Sober.finish (h : Sober m) (v : Value) : Sober (m.finish v).1 := by
  unfold Machine.finish
  split
  · exact h
  · rename_i f outer hf
    refine ⟨h.cells.unregisterAll f.ownVariables, fun c hc => h.phases c ?_, h.host⟩
    rw [cores_of_frames hf]
    exact List.mem_cons_of_mem _ hc

theorem Sober.await (h : Sober m) (hψ : ψ.Sober) (n : Node) : Sober (m.await ψ n).1 := by
  unfold Machine.await
  split
  · exact h
  · rename_i f outer hf
    refine ⟨h.cells, fun c hc => ?_, h.host⟩
    rcases List.mem_cons.1 hc with rfl | hc
    · exact hψ
    · refine h.phases c ?_
      rw [cores_of_frames hf]
      exact List.mem_cons_of_mem _ hc

theorem Sober.phase (h : Sober m) (hf : m.frames = f :: fs) : f.phase.Sober :=
  h.phases f.core (by rw [cores_of_frames hf]; exact List.mem_cons_self)

/-! ## Outcomes -/

/-- The step has made an error, which is on its way out. -/
def Raises (m : Machine) (x : Machine × Progress) : Prop :=
  ∃ f : Fault, f.previous = m.lastFault ∧ x.1.lastFault = some f ∧
    x.2 = .running (.give (.error f))

/-- The step has made no error, and one that is on its way was so before. -/
def Spares (m : Machine) (φ : Focus) (x : Machine × Progress) : Prop :=
  x.1.lastFault = m.lastFault ∧ ∀ f, x.2 = .running (.give (.error f)) → φ = .give (.error f)

/-- The step stores no error and no signal, and gives no error but one that it has got or made. -/
structure Soberly (m : Machine) (φ : Focus) (x : Machine × Progress) : Prop where
  sober : Sober x.1
  sane : ∀ φ', x.2.next? = some φ' → Sane φ'
  outcome : Raises m x ∨ Spares m φ x

theorem soberly_finish (h : Sober m₁) (hl : m₁.lastFault = m.lastFault) (hs : Sane (.give w))
    (he : ∀ f, w = .error f → φ = .give (.error f)) : Soberly m φ (m₁.finish w) := by
  refine ⟨h.finish w, fun φ' hn => ?_, .inr ⟨?_, fun f hw => he f ?_⟩⟩
  · rw [finish_snd] at hn
    exact Option.some.inj hn ▸ hs
  · unfold Machine.finish
    split <;> exact hl
  · rw [finish_snd] at hw
    simpa using hw

/-- The top frame ends with a plain value. -/
theorem soberly_plain (h : Sober m₁) (hl : m₁.lastFault = m.lastFault) (hw : w.isAbrupt = false) :
    Soberly m φ (m₁.finish w) := by
  refine soberly_finish h hl (sane_of_isAbrupt hw) ?_
  rintro f rfl
  cases hw

theorem soberly_finishFault (h : Sober m₁) (hl : m₁.lastFault = m.lastFault) (culprit : Node)
    (message : String) : Soberly m φ (m₁.finishFault culprit message) := by
  have ha := (alike_fault m₁ culprit message).sober h
  refine ⟨ha.finish _, fun φ' hn => ?_, .inl ⟨_, hl, ?_, finish_snd _ _⟩⟩
  · rw [finishFault, finish_snd] at hn
    obtain rfl := Option.some.inj hn
    intro kind culprit w hw; cases hw
  · unfold finishFault Machine.finish
    dsimp only
    split <;> rfl

theorem soberly_await (h : Sober m₁) (hl : m₁.lastFault = m.lastFault) (hψ : ψ.Sober) (n : Node) :
    Soberly m φ (m₁.await ψ n) := by
  refine ⟨h.await hψ n, fun φ' hn => ?_, .inr ⟨?_, fun f hw => ?_⟩⟩
  · rw [await_snd] at hn
    obtain rfl := Option.some.inj hn
    intro kind culprit w hw; cases hw
  · unfold Machine.await
    split <;> exact hl
  · simp at hw

theorem Waits.rules_eq {c : Node} (h : Waits n ψ c) : ψ.rules = [] := by
  cases h <;> rfl

theorem soberly_nextStatement (h : Sober m₁) (hl : m₁.lastFault = m.lastFault)
    (hw : w.isAbrupt = false) (ss : List Node) : Soberly m φ (m₁.nextStatement w ss) := by
  cases ss with
  | nil => exact soberly_plain h hl hw
  | cons s rest =>
    exact soberly_await h hl ⟨by simp [Phase.values], by simp [Phase.rules]⟩ s

theorem soberly_nextArgument (h : Sober m₁) (hl : m₁.lastFault = m.lastFault) (callee : Closure)
    {done : List Value} (hd : ∀ v ∈ done, v.isAbrupt = false) (as : List Node) :
    Soberly m φ (m₁.nextArgument callee done as) := by
  have hvalues : ∀ v ∈ Value.function callee :: done, v.isAbrupt = false := by
    intro v hv
    rcases List.mem_cons.1 hv with rfl | hv
    · rfl
    · exact hd v hv
  cases as with
  | nil =>
    refine soberly_await (h.withCells (h.cells.activate callee hd)) hl ⟨?_, by simp [Phase.rules]⟩ _
    exact fun v hv => List.mem_singleton.1 hv ▸ rfl
  | cons a rest =>
    exact soberly_await (ψ := .argument callee done rest) h hl ⟨hvalues, by simp [Phase.rules]⟩ a

theorem soberly_call (h : Sober m) (hf : m.frames = f :: fs) (n : Node) (callee : Closure) :
    Soberly m φ (m.call n callee) := by
  unfold call
  rw [hf]
  have hframes : ∀ c ∈ (n, Phase.ready) :: (f.node, Phase.activation) :: fs.map Frame.core,
      c.2.Sober := by
    intro c hc
    rcases List.mem_cons.1 hc with rfl | hc
    · exact ⟨by simp [Phase.values], by simp [Phase.rules]⟩
    · rcases List.mem_cons.1 hc with rfl | hc
      · exact ⟨by simp [Phase.values], by simp [Phase.rules]⟩
      · refine h.phases c ?_
        rw [cores_of_frames hf]
        exact List.mem_cons_of_mem _ hc
  have hs : Sober { m with
      frames := { node := n } :: { f with phase := .activation } :: fs } :=
    ⟨h.cells, hframes, h.host⟩
  exact soberly_nextArgument (m := m) hs rfl callee (List.forall_mem_nil _) n.arguments

/-! ## Asking a host -/

/-- Where no frame has had a result, the top frame ends with the one that is given now. -/
theorem finishResolved_setResult (hr : ∀ g ∈ m.frames, g.result = none)
    (h₁ : m₁.frames = Steppable.setResult w k m.frames) : m₁.finishResolved w = m₁.finish w := by
  unfold finishResolved
  split
  · rename_i g outer hg
    have hm : g ∈ Steppable.setResult w k m.frames := by
      rw [← h₁, hg]
      exact List.mem_cons_self
    obtain ⟨e, he, rfl | rfl⟩ := Custody.mem_setResult hm
    · rw [hr g he, Option.getD_none]
    · rw [Option.getD_some]
  · rfl

theorem result_prepare (r : Host.Rule) (k : Nat) (hr : ∀ g ∈ m.frames, g.result = none) :
    (∀ g ∈ (m.prepare r k).2.2.frames, g.result = none) ∧
      (m.prepare r k).2.2.lastFault = m.lastFault := by
  obtain ⟨fs, hfs, -, -, hnone⟩ := frames_prepare m r k
  rw [hfs]
  exact ⟨hnone hr, rfl⟩

/-- What a handler answers for an accessor on the stack. -/
theorem soberly_answer {r : Host.Rule} (h : Sober m₁) (hl : m₁.lastFault = m.lastFault)
    (hk : k < m₁.frames.length) (hr : ∀ g ∈ m₁.frames, g.result = none) (hs : r.Sober)
    {as : List Value} {m₂ : Machine} (ha : m₁.answer r k as = (some w, m₂)) :
    Soberly m φ (m₂.finishResolved w) := by
  have hsober : Sober m₂ := by
    have := (alike_answer m₁ r k as).sober h
    rwa [ha] at this
  rw [finishResolved_setResult hr (frames_answer hk ha).1]
  unfold answer at ha
  dsimp only at ha
  split at ha
  · rename_i u hu
    obtain ⟨hw, rfl⟩ := Prod.mk.inj ha
    obtain rfl := Option.some.inj hw
    have hsu := hs ⟨as, m₁.links.take (k + 1)⟩ m₁.record
    rw [hu] at hsu
    exact soberly_plain hsober hl (by simpa [Host.Answer.isSober] using hsu)
  · rename_i u hu
    obtain ⟨hw, rfl⟩ := Prod.mk.inj ha
    obtain rfl := Option.some.inj hw
    have hsu := hs ⟨as, m₁.links.take (k + 1)⟩ m₁.record
    rw [hu] at hsu
    exact soberly_plain hsober hl (by simpa [Host.Answer.isSober, Value.isAbrupt_renewed] using hsu)
  · -- The error belongs to the accessor reached, which is on the stack.
    obtain ⟨hw, rfl⟩ := Prod.mk.inj ha
    obtain rfl := Option.some.inj hw
    simp only [setFault, List.getElem?_eq_getElem hk] at hsober ⊢
    refine ⟨hsober.finish _, fun φ' hn => ?_, .inl ⟨_, hl, ?_, finish_snd _ _⟩⟩
    · rw [finish_snd] at hn
      obtain rfl := Option.some.inj hn
      intro kind culprit w hw; cases hw
    · unfold Machine.finish
      split <;> rfl
  · simp at ha
  · simp at ha

theorem soberly_consult (h : Sober m₁) (hl : m₁.lastFault = m.lastFault)
    (hr : ∀ g ∈ m₁.frames, g.result = none) (hres : ∀ r ∈ rules, r.Resolves)
    (hs : ∀ r ∈ rules, r.Sober) (n : Node) : Soberly m φ (consult n rules m₁) := by
  rcases consult_of_resolves n m₁ hres with hc | ⟨passed, r, rest, k, rfl, -, hk, hc⟩
  · rw [hc]
    exact soberly_finishFault h hl n _
  · have hp := (alike_prepare m₁ r k)
    have hr' := result_prepare r k hr
    rcases hc with ⟨as, a, m₂, hprep, hc⟩ | ⟨as, m₂, w, m₃, hprep, ha, hc⟩
    · rw [hprep] at hp hr'
      rw [hc]
      exact soberly_await (ψ := .asking k (r :: rest)) (hp.sober h) (hr'.2.trans hl)
        ⟨by simp [Phase.values], fun q hq => hs q (List.mem_append_right _ hq)⟩ a
    · rw [hprep] at hp hr'
      rw [hc]
      have hlt : k < m₂.frames.length :=
        Nat.lt_of_lt_of_eq (lt_length_of_reach hk) hp.length_frames.symm
      exact soberly_answer (hp.sober h) (hr'.2.trans hl) hlt hr'.1 (hs r (by simp)) ha

/-! ## Steps -/

theorem soberly_enter (h : Sober m) (hn : ∀ t v, n = .constant t v → v.isData = true) :
    Soberly m (.enter n) (m.enter n) := by
  have hgive : ∀ {m₁ : Machine} {w : Value}, Sober m₁ → m₁.lastFault = m.lastFault →
      w.isAbrupt = false → Soberly m (.enter n) (m₁.give w) := by
    intro m₁ w h₁ hl hw
    refine ⟨h₁, fun φ' hφ' => Option.some.inj hφ' ▸ sane_of_isAbrupt hw, .inr ⟨hl, ?_⟩⟩
    intro f hf
    cases hf
    cases hw
  have hfault : ∀ {m₁ : Machine} (message : String), Sober m₁ → m₁.lastFault = m.lastFault →
      Soberly m (.enter n) ((m₁.fault n message).2.give (m₁.fault n message).1) := by
    intro m₁ message h₁ hl
    refine ⟨(alike_fault m₁ n message).sober h₁, fun φ' hφ' => ?_, .inl ⟨_, hl, rfl, rfl⟩⟩
    obtain rfl := Option.some.inj hφ'
    intro kind culprit w hw; cases hw
  have he := enter_entering m n
  generalize m.enter n = x at he
  cases he with
  | constant hc => exact hgive h rfl (Value.isAbrupt_of_isData (hn _ _ hc))
  | nothing => exact hgive h rfl rfl
  | fault message => exact hfault message h rfl
  | reference => exact hgive h rfl rfl
  | @function t code captures cells _ hc =>
    have hs := h.cells.captureAll code.free
    rw [hc] at hs
    exact hgive ⟨hs, h.phases, h.host⟩ rfl rfl
  | @named t code captures cells d cell _ hc =>
    have hs := h.cells.captureAll code.free
    rw [hc] at hs
    exact hgive ⟨hs.set cell rfl, h.phases, h.host⟩ rfl rfl
  | unbound code next message =>
    exact hfault message ⟨h.cells.captureAll code.free, h.phases, h.host⟩ rfl
  | push =>
    have hcores : ∀ c ∈ (n, Phase.ready) :: m.cores, c.2.Sober := by
      intro c hc
      rcases List.mem_cons.1 hc with rfl | hc
      · exact ⟨by simp [Phase.values], by simp [Phase.rules]⟩
      · exact h.phases c hc
    split
    · refine ⟨⟨h.cells, hcores, h.host⟩, fun φ' hφ' => ?_, .inr ⟨rfl, by simp⟩⟩
      obtain rfl := Option.some.inj hφ'
      intro kind culprit w hw; cases hw
    · refine ⟨⟨h.cells, hcores, h.host⟩, fun φ' hφ' => ?_, .inr ⟨rfl, by simp⟩⟩
      obtain rfl := Option.some.inj hφ'
      intro kind culprit w hw; cases hw

theorem soberly_begin (h : Sober m) (hr : ∀ g ∈ m.frames, g.result = none)
    (hres : ∀ r ∈ m.host, r.Resolves) (n : Node) : Soberly m .begin (m.begin n) := by
  have hb := begin_beginning m n
  generalize m.begin n = x at hb
  cases hb with
  | await hw hv => exact soberly_await h rfl ⟨by simp [hv], by simp [Waits.rules_eq hw]⟩ _
  | ask => exact soberly_consult h rfl hr (forall_rules hres) (forall_rules h.host) _
  | @block t ss locals g outer _ hg =>
    have hs : Sober { m with
        frames := { g with phase := .statement ss } :: outer
        cells := m.cells.registerAll locals } := by
      refine ⟨h.cells.registerAll locals, fun c hc => ?_, h.host⟩
      rcases List.mem_cons.1 hc with rfl | hc
      · exact ⟨by simp [Frame.core, Phase.values], by simp [Frame.core, Phase.rules]⟩
      · refine h.phases c ?_
        rw [cores_of_frames hg]
        exact List.mem_cons_of_mem _ hc
    exact soberly_nextStatement (m := m) hs rfl rfl ss
  | jump =>
    refine soberly_finish h rfl ?_ (by simp)
    intro kind culprit w hw; cases hw
    rfl
  | finish hw => exact soberly_plain h rfl (Value.isAbrupt_of_isData hw)

/-- An argument for the host that is an error or a signal goes outwards. -/
theorem soberly_receiveArgument (h : Sober m) (hs : Sane (.give v))
    (hr : ∀ g ∈ m.frames, g.result = none) (hres : ∀ r ∈ rules, r.Resolves)
    (hrules : ∀ r ∈ rules, r.Sober) (n : Node) :
    Soberly m (.give v) (m.receiveArgument n k rules v) := by
  unfold receiveArgument
  dsimp only
  split
  · rename_i hab
    have hv : m.cells.deref v = v := by
      cases v with
      | reference c =>
        have := h.cells c
        simp_all [Cells.deref]
      | _ => rfl
    rw [hv, finishResolved_setResult (k := k) (w := v) hr rfl]
    refine soberly_finish ((alike_setResult m k v).sober h) rfl hs ?_
    rintro f rfl
    rfl
  · have ha := alike_addArgument m k (m.cells.deref v)
    have hl : (m.addArgument k (m.cells.deref v)).lastFault = m.lastFault := rfl
    refine soberly_consult (ha.sober h) hl (fun g hg => ?_) hres hrules n
    obtain ⟨i, hi⟩ := List.mem_iff_getElem?.1 hg
    unfold addArgument at hi
    rw [List.getElem?_modify] at hi
    obtain ⟨e, he, rfl⟩ := Option.map_eq_some_iff.1 hi
    have := hr e (List.mem_of_getElem? he)
    split <;> exact this

/-- Where the top frame has no result, none has. -/
theorem results_none_of_top (h : Results m.frames (.give v)) (hf : m.frames = f :: fs)
    (hr : f.result = none ∨ f.phase ≠ .accessed) : ∀ g ∈ m.frames, g.result = none := by
  obtain ⟨as, bs, hfs, has, hbs⟩ := h
  cases as with
  | nil =>
    obtain rfl : m.frames = bs := hfs
    exact hbs
  | cons g as =>
    rw [hf, List.cons_append, List.cons.injEq] at hfs
    obtain ⟨rfl, -⟩ := hfs
    obtain ⟨hφ, hres⟩ := has f (by simp)
    rcases hr with hr | hr
    · simp [hr] at hres
    · exact (hr hφ).elim

theorem soberly_receive (h : Sober m) (hs : Sane (.give v)) (hf : m.frames = f :: fs)
    (hr : Results m.frames (.give v))
    (hres : ∀ k rules, f.phase = .asking k rules → ∀ r ∈ rules, r.Resolves) :
    Soberly m (.give v) (m.receive f v) := by
  have hplain : v.isAbrupt = false → (m.cells.deref v).isAbrupt = false := h.cells.deref
  -- A value that is read is the value itself, or comes from a cell.
  have hderef : ∀ e, m.cells.deref v = .error e → v = .error e := by
    intro e he
    cases v with
    | reference c =>
      have hc : m.cells.get c = .error e := he
      have := h.cells c
      rw [hc] at this
      cases this
    | _ => exact he
  have hsane : Sane (.give (m.cells.deref v)) := by
    cases v with
    | reference c => exact sane_of_isAbrupt (h.cells c)
    | _ => exact hs
  have hre := receive_reaction m f v
  generalize m.receive f v = x at hre
  cases hre with
  | pass | abrupt => exact soberly_finish h rfl hs fun e he => he ▸ rfl
  | @yield w hw =>
    rcases hw with rfl | ⟨rfl, hv⟩ | hw
    · exact soberly_finish h rfl hsane fun e he => congrArg _ (hderef e he)
    · refine soberly_finish h rfl ?_ (by simp)
      intro kind culprit w hw; cases hw
      exact hplain hv
    · exact soberly_plain h rfl (Value.isAbrupt_of_isData hw)
  | @result w hφ hw =>
    obtain ⟨as, bs, hfs, has, hbs⟩ := hr
    have hw' : w = v := by
      have hm : f ∈ as ++ bs := by
        rw [← hfs, hf]
        exact List.mem_cons_self
      rcases List.mem_append.1 hm with hm | hm
      · exact Option.some.inj (hw.symm.trans (has f hm).2)
      · simp [hbs f hm] at hw
    subst hw'
    exact soberly_finish h rfl hs fun e he => he ▸ rfl
  | @unwrap callee culprit w _ hv =>
    subst hv
    exact soberly_plain h rfl (hs _ _ w rfl)
  | fault culprit message => exact soberly_finishFault h rfl culprit message
  | @write cell x w _ _ hx hw hv =>
    have hwritten : ∀ y, y = m.cells.deref v ∨ y.isData = true → y.isAbrupt = false := by
      rintro y (rfl | hy)
      · exact hplain hv
      · exact Value.isAbrupt_of_isData hy
    exact soberly_plain (h.withCells (h.cells.set cell (hwritten x hx))) rfl (hwritten w hw)
  | @await ψ c _ hw hvalues _ hv =>
    refine soberly_await h rfl ⟨fun w hm => ?_, by simp [Waits.rules_eq hw]⟩ c
    rcases hv with hv | hv
    · simp [hv] at hm
    · rw [hvalues w hm]
      exact hplain hv
  | statement _ hv => exact soberly_nextStatement h rfl (hplain hv) _
  | call => exact soberly_call h hf _ _
  | members hφ hnone _ =>
    exact soberly_consult h rfl (results_none_of_top hr hf (.inl hnone)) (Host.resolves_members _)
      (Host.sober_members _) _
  | @argument callee done rest hφ hv =>
    refine soberly_nextArgument h rfl callee (fun w hw => ?_) rest
    rcases List.mem_append.1 hw with hw | hw
    · exact (h.phase hf).values w (by rw [hφ]; simp [Phase.values, hw])
    · exact List.mem_singleton.1 hw ▸ hplain hv
  | @ask distance rules hφ =>
    refine soberly_receiveArgument h hs (results_none_of_top hr hf (.inr (by simp [hφ])))
      (hres distance rules hφ) (fun r hr => (h.phase hf).rules r ?_) _
    rw [hφ]
    exact hr

/-- **A step stores neither errors nor signals, and gives no error but one that it has got or
made.** -/
theorem soberly_step (hP : Program S) (ho : Orderly S m φ) (h : Sober m) (hs : Sane φ) :
    Soberly m φ (m.step φ) := by
  cases φ with
  | enter n => exact soberly_enter h fun t v hn => hP.literal (hn ▸ ho.held.2)
  | begin =>
    obtain ⟨x, outer, hc, -⟩ := ho.poised
    obtain ⟨f, fs, hf, -⟩ := frames_of_cores hc
    rw [step, hf]
    exact soberly_begin h ho.calm.results (fun r hr => (ho.host r hr).resolves) f.node
  | give v =>
    rw [step]
    split
    · rename_i f fs hf
      refine soberly_receive h hs hf ho.calm.results fun k rules hφ => ?_
      have hq := ho.calm.questions
      rw [hf] at hq
      exact fun r hr => ((hq.1 k rules hφ).1 r hr).1
    · refine ⟨h, by simp [Progress.next?], .inr ⟨rfl, by simp⟩⟩

end Machine

end Steppable
