import Steppable.Proofs.Machine.Abruptness
import Steppable.Proofs.Machine.Plain

/-!
# Only plain values are stored or returned

A variable flows out of every place that reads one and through conditionals, and `return`, `break`
and `continue` are expressions, so that a signal can come from any operand, argument or initializer.
A single place that writes a cell or hands a value up without looking at it would let a variable or
a signal out.

**Theorem (`only_plain_seen`).** All the life of a machine with trees that have been read and a host
that sets plain values or errors, no cell has a variable, an error or a signal, so that to read a
variable is to come to a plain value; and what an evaluation returns is neither a variable nor a
signal.

For the cells it does not matter what the host answers (`plain_perpetual`). For the result it does:
what is unpacked in the end is what a `return` carries. That this is plain is the invariant here
(`Clean`), and it has to hold of every place a signal can lie in: on its way out, and as the result
that an accessor has been given.
-/

namespace Steppable

/-! ## Values, answers and rules -/

/-- Neither a variable nor an error nor a signal. -/
def Value.Plain (v : Value) : Prop :=
  v.isReference = false ∧ v.isAbrupt = false

/-- A signal carries a plain value. -/
def Value.CarriesPlain : Value → Prop
  | .signal _ _ w => w.Plain
  | _ => True

/-- A plain value or an error. -/
def Value.IsOutcome (v : Value) : Prop :=
  v.isReference = false ∧ v.isSignal = false

/-- The answer is a failure, or a plain value or an error. -/
def Host.Answer.IsOutcome : Host.Answer → Prop
  | .value v | .anew v => v.IsOutcome
  | _ => True

/-- The literals of the tree are data. -/
def Node.Readable (n : Node) : Prop :=
  ∀ t v, n.Within (.constant t v) → v.isData = true

/-- The handler sets plain values or errors, given plain arguments. -/
structure Host.Rule.SetsPlain (r : Host.Rule) : Prop where
  /-- The code of a function that it answers with is such as can be read, or was given to it. -/
  readable : r.Faithful True fun f => ∃ t, Node.Readable (.function t f.code)
  outcome : ∀ q record, (∀ a ∈ q.arguments, a.Plain) → (r.handler q record).1.IsOutcome

namespace Value

variable {v : Value}

theorem isSignal_of_isAbrupt (h : v.isAbrupt = false) : v.isSignal = false :=
  (Bool.or_eq_false_iff.1 h).2

theorem Plain.isOutcome (h : v.Plain) : v.IsOutcome :=
  ⟨h.1, isSignal_of_isAbrupt h.2⟩

theorem carriesPlain_of_isSignal (h : v.isSignal = false) : v.CarriesPlain := by
  cases v with
  | signal => cases h
  | _ => trivial

theorem carriesPlain_of_isAbrupt (h : v.isAbrupt = false) : v.CarriesPlain :=
  carriesPlain_of_isSignal (isSignal_of_isAbrupt h)

theorem carriesPlain_of_isData (h : v.isData = true) : v.CarriesPlain :=
  carriesPlain_of_isAbrupt (isAbrupt_of_isData h)

theorem isOutcome_renewed (i : Nat) (h : v.IsOutcome) : (v.renewed i).IsOutcome := by
  cases v with
  | signal => cases h.2
  | _ => exact h

/-- A plain value is kept wherever variables are not. -/
theorem Plain.kept (h : v.Plain) : v.Kept False fun _ => True := by
  cases v with
  | reference => cases h.1
  | signal => cases h.2
  | _ => trivial

end Value

theorem Host.setsPlain_of_faithful {r : Host.Rule} (hs : r.Sober)
    (hf : ∀ ref k, r.Faithful ref k) : r.SetsPlain where
  readable := hf _ _
  outcome q record hq := by
    have hsober := hs q record
    have hkept := hf False (fun _ => True) q record fun a ha => (hq a ha).kept
    generalize (r.handler q record).1 = a at hsober hkept
    cases a with
    | value v | anew v =>
      exact ⟨Value.isReference_of_kept hkept,
        Value.isSignal_of_isAbrupt (by simpa [Host.Answer.isSober] using hsober)⟩
    | _ => trivial

theorem Host.setsPlain_members (v : Value) : ∀ r ∈ Host.members v, r.SetsPlain := fun r hr =>
  setsPlain_of_faithful (sober_members v r hr) fun ref k => faithful_members ref k v r hr

theorem Host.setsPlain_standard : ∀ r ∈ Host.standard, r.SetsPlain := fun r hr =>
  setsPlain_of_faithful (sober_standard r hr) fun ref k => faithful_standard ref k r hr

theorem Node.Readable.child {n c : Node} (h : n.Readable) (hc : c ∈ n.children) : c.Readable :=
  fun t v hw => h t v (.step hc hw)

theorem readableCustody_lawful : (programCustody Node.Readable).Lawful :=
  programCustody_lawful_of Node.Readable.child fun h => h _ _ (.refl _)

theorem ReadInTurn.readable {ts : List Node} {next : Nat} (h : ReadInTurn ts next) :
    ∀ t ∈ ts, t.Readable := fun t ht _ _ hw =>
  (h.wellTagged t ht _ hw).literal _ _ rfl

theorem Cells.Plain.carriesPlain_deref {s : Cells} {v : Value} (h : s.Plain)
    (hv : v.CarriesPlain) : (s.deref v).CarriesPlain := by
  cases v with
  | reference c => exact Value.carriesPlain_of_isAbrupt (h c).2
  | _ => exact hv

/-! ## Frames and machines -/

/-- What the frame has been given is plain, or a signal that carries a plain value, and so is what
its rules answer. -/
structure Frame.Clean (f : Frame) : Prop where
  result : ∀ v ∈ f.result, v.CarriesPlain
  gathered : ∀ g ∈ f.gathered, ∀ v ∈ g.values, v.Plain
  rules : ∀ r ∈ f.phase.rules, r.SetsPlain

theorem Frame.clean_ready (n : Node) : ({ node := n } : Frame).Clean :=
  ⟨by simp, by simp, by simp [Phase.rules]⟩

theorem Frame.Clean.withPhase {f : Frame} (h : f.Clean) {ψ : Phase}
    (hψ : ∀ r ∈ ψ.rules, r.SetsPlain) : Frame.Clean { f with phase := ψ } :=
  ⟨h.result, h.gathered, hψ⟩

theorem Frame.Clean.gatheredFor {f : Frame} (h : f.Clean) (arity : Nat) :
    ∀ v ∈ (f.gatheredFor arity).values, v.Plain := by
  unfold Frame.gatheredFor
  cases hg : f.gathered with
  | none => simp
  | some g => exact h.gathered g hg

namespace Machine

variable {m m₁ : Machine} {φ : Focus} {f : Frame} {outer : List Frame} {n : Node} {v w : Value}
  {ψ : Phase} {rules : List Host.Rule} {x : Machine × Progress} {ts : List Node}

/-- No frame, no rule and no result lets a variable or a signal out. -/
structure Clean (m : Machine) : Prop where
  frames : ∀ f ∈ m.frames, f.Clean
  host : ∀ r ∈ m.host, r.SetsPlain
  result : ∀ v ∈ m.result, v.IsOutcome

/-- The value on its way is no signal, or carries a plain value. -/
def Bears : Focus → Prop
  | .give v => v.CarriesPlain
  | _ => True

/-- A step leaves a clean machine and a signal that carries a plain value, if any. -/
def Cleanly (x : Machine × Progress) : Prop :=
  x.1.Clean ∧ ∀ φ, x.2.next? = some φ → Bears φ

theorem Clean.reframe (h : m.Clean) {fs : List Frame} (hfs : ∀ f ∈ fs, f.Clean) :
    Clean { m with frames := fs } :=
  ⟨hfs, h.host, h.result⟩

theorem Clean.retop (h : m.Clean) (hf : m.frames = f :: outer) (fs : List Frame)
    (hfs : ∀ g ∈ fs, g.Clean) : Clean { m with frames := fs ++ outer } :=
  h.reframe fun g hg => (List.mem_append.1 hg).elim (hfs g) fun hg =>
    h.frames g (hf ▸ List.mem_cons_of_mem f hg)

theorem Clean.top (h : m.Clean) (hf : m.frames = f :: outer) : f.Clean :=
  h.frames f (hf ▸ List.mem_cons_self)

theorem cleanly_give (h : m.Clean) (hv : v.CarriesPlain) : Cleanly (m.give v) :=
  ⟨h, fun _ hn => Option.some.inj hn ▸ hv⟩

theorem cleanly_finish (h : m.Clean) (hv : v.CarriesPlain) : Cleanly (m.finish v) := by
  unfold finish
  split
  · exact cleanly_give h hv
  · rename_i f outer hf
    have := h.retop hf [] (by simp)
    exact cleanly_give ⟨this.frames, this.host, this.result⟩ hv

theorem cleanly_finishFault (h : m.Clean) (culprit : Node) (message : String) :
    Cleanly (m.finishFault culprit message) :=
  cleanly_finish ⟨h.frames, h.host, h.result⟩ trivial

theorem cleanly_await (h : m.Clean) (hψ : ∀ r ∈ ψ.rules, r.SetsPlain) (n : Node) :
    Cleanly (m.await ψ n) := by
  unfold await
  split
  · exact ⟨h, fun _ hn => Option.some.inj hn ▸ trivial⟩
  · rename_i f outer hf
    exact ⟨h.retop hf [_] (by simpa using (h.top hf).withPhase hψ), fun _ hn =>
      Option.some.inj hn ▸ trivial⟩

/-! ## Asking a host -/

theorem clean_setResult (h : m.Clean) (k : Nat) (hv : v.CarriesPlain) :
    (m.setResult k v).Clean := by
  refine h.reframe fun g hg => ?_
  obtain ⟨f, hf, rfl | rfl⟩ := Custody.mem_setResult hg
  · exact h.frames g hf
  · have := h.frames f hf
    exact ⟨fun w hw => Option.mem_some_iff.1 hw ▸ hv, this.gathered, this.rules⟩

theorem clean_setFault (h : m.Clean) (k : Nat) (message : String) :
    (m.setFault k message).2.Clean ∧ (m.setFault k message).1.CarriesPlain := by
  unfold setFault
  split
  · rename_i f _
    have hm : (m.fault f.node message).2.Clean := ⟨h.frames, h.host, h.result⟩
    have hv : (m.fault f.node message).1.CarriesPlain := trivial
    exact ⟨clean_setResult hm k hv, hv⟩
  · exact ⟨h, trivial⟩

theorem clean_addArgument (h : m.Clean) (k : Nat) (hv : v.Plain) : (m.addArgument k v).Clean := by
  refine h.reframe fun g hg => ?_
  obtain ⟨i, hi⟩ := List.mem_iff_getElem?.1 hg
  rw [List.getElem?_modify] at hi
  obtain ⟨f, hf, rfl⟩ := Option.map_eq_some_iff.1 hi
  have hclean := h.frames f (List.mem_of_getElem? hf)
  split
  · refine ⟨hclean.result, fun g hg w hw => ?_, hclean.rules⟩
    obtain ⟨g, hg', rfl⟩ := Option.map_eq_some_iff.1 hg
    rcases List.mem_append.1 hw with hw | hw
    · exact hclean.gathered g hg' w hw
    · exact List.mem_singleton.1 hw ▸ hv
  · exact hclean

theorem clean_prepare (h : m.Clean) (r : Host.Rule) (k : Nat) :
    (m.prepare r k).2.2.Clean ∧ ∀ v ∈ (m.prepare r k).1, v.Plain := by
  unfold prepare gather
  split
  · rename_i arity _
    split
    · exact ⟨h, by simp⟩
    · rename_i f hf
      have hclean := h.frames f (List.mem_of_getElem? hf)
      refine ⟨h.reframe fun g hg => ?_, hclean.gatheredFor arity⟩
      rcases List.mem_or_eq_of_mem_set hg with hg | rfl
      · exact h.frames g hg
      · exact ⟨hclean.result, fun g' hg' => Option.mem_some_iff.1 hg' ▸ hclean.gatheredFor arity,
          hclean.rules⟩
  · exact ⟨h, by simp⟩

theorem clean_answer (h : m.Clean) {r : Host.Rule} (hr : r.SetsPlain) (k : Nat) {as : List Value}
    (has : ∀ a ∈ as, a.Plain) :
    (m.answer r k as).2.Clean ∧ ∀ w ∈ (m.answer r k as).1, w.CarriesPlain := by
  have hm (record : Host.Record) (calls : List Host.Call) (next : Nat) :
      Clean { m with record, calls, next } := ⟨h.frames, h.host, h.result⟩
  have ha := hr.outcome ⟨as, m.links.take (k + 1)⟩ m.record has
  unfold answer
  dsimp only
  split
  · rename_i v hv
    rw [hv] at ha
    have hv' := Value.carriesPlain_of_isSignal ha.2
    exact ⟨clean_setResult (hm _ _ m.next) k hv', fun w hw => Option.mem_some_iff.1 hw ▸ hv'⟩
  · rename_i v hv
    rw [hv] at ha
    have hv' := Value.carriesPlain_of_isSignal (Value.isOutcome_renewed m.next ha).2
    exact ⟨clean_setResult (hm _ _ (m.next + 1)) k hv', fun w hw => Option.mem_some_iff.1 hw ▸ hv'⟩
  · rename_i message _
    obtain ⟨hc, hv⟩ := clean_setFault (hm (r.handler ⟨as, m.links.take (k + 1)⟩ m.record).2
      (⟨r, ⟨as, m.links.take (k + 1)⟩⟩ :: m.calls) m.next) k message
    exact ⟨hc, fun w hw => Option.mem_some_iff.1 hw ▸ hv⟩
  · exact ⟨(clean_setFault (hm _ _ m.next) k _).1, by simp⟩
  · exact ⟨hm _ _ m.next, by simp⟩

theorem cleanly_finishResolved (h : m.Clean) (hv : v.CarriesPlain) :
    Cleanly (m.finishResolved v) := by
  unfold finishResolved
  split
  · rename_i f outer hf
    refine cleanly_finish h ?_
    cases hr : f.result with
    | none => exact hv
    | some w => exact (h.top hf).result w hr
  · exact cleanly_finish h hv

theorem cleanly_consult (n : Node) (hr : ∀ r ∈ rules, r.SetsPlain) (h : m.Clean) :
    Cleanly (consult n rules m) := by
  induction rules generalizing m with
  | nil => exact cleanly_finishFault h n _
  | cons r rules ih =>
    have hrules : ∀ r ∈ rules, r.SetsPlain := fun q hq => hr q (List.mem_cons_of_mem r hq)
    cases hk : r.reach? (m.links.map (·.node)) with
    | none =>
      rw [consult_skip hk]
      exact ih hrules h
    | some k =>
      obtain ⟨h₁, has⟩ := clean_prepare h r k
      rcases hp : m.prepare r k with ⟨as, missing, m₁⟩
      rw [hp] at h₁ has
      cases missing with
      | some a =>
        rw [consult_ask hk hp]
        exact cleanly_await (ψ := .asking k (r :: rules)) h₁ hr a
      | none =>
        obtain ⟨h₂, hw⟩ := clean_answer h₁ (hr r List.mem_cons_self) k has
        rcases ha : m₁.answer r k as with ⟨w, m₂⟩
        rw [ha] at h₂ hw
        cases w with
        | some w =>
          rw [consult_answer hk hp ha]
          exact cleanly_finishResolved h₂ (hw w rfl)
        | none =>
          rw [consult_pass hk hp ha]
          exact ih hrules h₂

/-! ## Steps -/

theorem cleanly_nextStatement (h : m.Clean) (hv : v.CarriesPlain) (ss : List Node) :
    Cleanly (m.nextStatement v ss) := by
  cases ss with
  | nil => exact cleanly_finish h hv
  | cons n rest => exact cleanly_await h (by simp [Phase.rules]) n

theorem cleanly_nextArgument (h : m.Clean) (callee : Closure) (done : List Value)
    (as : List Node) : Cleanly (m.nextArgument callee done as) := by
  cases as with
  | nil =>
    have hm : Clean { m with cells := activate m.cells callee done } :=
      ⟨h.frames, h.host, h.result⟩
    exact cleanly_await (ψ := .running callee) hm (by simp [Phase.rules]) _
  | cons a rest => exact cleanly_await h (by simp [Phase.rules]) a

theorem cleanly_call (h : m.Clean) (n : Node) (callee : Closure) : Cleanly (m.call n callee) := by
  unfold call
  refine cleanly_nextArgument ?_ callee [] n.arguments
  split
  · rename_i f outer hf
    refine h.retop hf [_, _] (List.forall_mem_cons.2 ⟨Frame.clean_ready n, ?_⟩)
    simpa using (h.top hf).withPhase (by simp [Phase.rules])
  · exact h.reframe (by simpa using Frame.clean_ready n)

theorem cleanly_enter (h : m.Clean) (hn : n.Readable) : Cleanly (m.enter n) := by
  have he := enter_entering m n
  generalize m.enter n = x at he
  cases he with
  | constant hc =>
    subst hc
    exact cleanly_give h (Value.carriesPlain_of_isData (hn _ _ (.refl _)))
  | nothing | reference => exact cleanly_give h trivial
  | fault | function | named | unbound => exact cleanly_give ⟨h.frames, h.host, h.result⟩ trivial
  | push =>
    have hframes : ∀ g ∈ { node := n } :: m.frames, g.Clean :=
      List.forall_mem_cons.2 ⟨Frame.clean_ready n, h.frames⟩
    split <;> exact ⟨⟨hframes, h.host, h.result⟩, fun _ hφ => Option.some.inj hφ ▸ trivial⟩

theorem cleanly_begin (h : m.Clean) (n : Node) : Cleanly (m.begin n) := by
  have hb := begin_beginning m n
  generalize m.begin n = x at hb
  cases hb with
  | await hw => exact cleanly_await h (by simp [Waits.rules_eq hw]) _
  | ask => exact cleanly_consult n (forall_rules h.host) h
  | @block t ss locals g outer _ hg =>
    have hs := h.retop hg [{ g with phase := .statement ss }]
      (by simpa using (h.top hg).withPhase (by simp [Phase.rules]))
    have hm : Clean { m with
        frames := { g with phase := .statement ss } :: outer
        cells := m.cells.registerAll locals } := ⟨hs.frames, hs.host, hs.result⟩
    exact cleanly_nextStatement (v := .undefined) hm trivial ss
  | jump => exact cleanly_finish h ⟨rfl, rfl⟩
  | finish hw => exact cleanly_finish h (Value.carriesPlain_of_isData hw)

/-- The cells are plain, so what is read from one may be carried, stored and given to a handler. -/
theorem cleanly_receive (hp : m.Plain) (h : m.Clean) (hf : m.frames = f :: outer)
    (hv : v.CarriesPlain) : Cleanly (m.receive f v) := by
  have hread := hp.cells.carriesPlain_deref hv
  have hre := receive_reaction m f v
  generalize m.receive f v = x at hre
  cases hre with
  | pass | abrupt => exact cleanly_finish h hv
  | @yield w hw =>
    rcases hw with rfl | ⟨rfl, ha⟩ | hw
    · exact cleanly_finish h hread
    · exact cleanly_finish h (hp.cells.deref ha)
    · exact cleanly_finish h (Value.carriesPlain_of_isData hw)
  | result _ hw => exact cleanly_finish h ((h.top hf).result _ hw)
  | @unwrap callee culprit w _ hw =>
    subst hw
    exact cleanly_finish h (Value.carriesPlain_of_isAbrupt hv.2)
  | fault culprit message => exact cleanly_finishFault h culprit message
  | @write cell x w _ _ _ hw =>
    refine cleanly_finish ⟨h.frames, h.host, h.result⟩ ?_
    rcases hw with rfl | hw
    · exact hread
    · exact Value.carriesPlain_of_isData hw
  | await _ hw => exact cleanly_await h (by simp [Waits.rules_eq hw]) _
  | statement => exact cleanly_nextStatement h hread _
  | call => exact cleanly_call h f.node _
  | members => exact cleanly_consult f.node (Host.setsPlain_members _) h
  | argument => exact cleanly_nextArgument h _ _ _
  | @ask k rules hφ =>
    have hrules := (h.top hf).rules
    rw [hφ] at hrules
    unfold receiveArgument
    dsimp only
    split
    · exact cleanly_finishResolved (clean_setResult h k hread) hread
    · rename_i ha
      have ha : (m.cells.deref v).isAbrupt = false := by simpa using ha
      have hplain : (m.cells.deref v).Plain := by
        cases v with
        | reference c => exact hp.cells c
        | _ => exact hp.cells.deref ha
      exact cleanly_consult f.node hrules (clean_addArgument h k hplain)

/-- **A step lets no variable and no signal out.** -/
theorem cleanly_step (hp : m.Plain) (h : m.Clean)
    (hheld : (programCustody Node.Readable).Holds m φ) (hφ : Bears φ) : Cleanly (m.step φ) := by
  cases φ with
  | enter n => exact cleanly_enter h hheld.2
  | begin =>
    rw [step]
    split
    · exact cleanly_begin h _
    · exact cleanly_give h trivial
  | give v =>
    rw [step]
    split
    · rename_i f outer hf
      exact cleanly_receive hp h hf hφ
    · exact ⟨h, by simp [Progress.next?]⟩

/-! ## The life of a machine -/

theorem clean_takeUpAll {inner : List Frame} (hi : ∀ f ∈ inner, f.Clean) (h : m.Clean) :
    (takeUpAll inner m).1.Clean ∧ Bears (takeUpAll inner m).2 := by
  induction inner generalizing m with
  | nil => exact ⟨h, trivial⟩
  | cons f inner ih =>
    obtain ⟨hhead, hrest⟩ := List.forall_mem_cons.1 hi
    have hpush : Clean { m with frames := f :: m.frames } :=
      h.reframe (List.forall_mem_cons.2 ⟨hhead, h.frames⟩)
    have hf : Cleanly (({ m with frames := f :: m.frames } : Machine).takeUp f) := by
      unfold takeUp
      split
      · rename_i w hw
        exact cleanly_finish hpush (hhead.result w hw)
      · exact cleanly_consult f.node (forall_rules hpush.host) hpush
      · exact ⟨hpush, fun _ hn => Option.some.inj hn ▸ trivial⟩
    rcases takeUpAll_cons f inner m with ⟨v, m₁, ht, hall⟩ | ⟨-, hall⟩
    · rw [ht] at hf
      rw [hall]
      exact ⟨⟨hf.1.frames, hf.1.host, hf.1.result⟩, hf.2 _ rfl⟩
    · rw [hall]
      exact ih hrest hf.1

theorem clean_declareGlobals (h : m.Clean) (ds : List Declaration) :
    (m.declareGlobals ds).Clean := by
  unfold declareGlobals
  induction ds generalizing m with
  | nil => exact h
  | cons d ds ih =>
    rw [List.foldl_cons]
    split
    · exact ih h
    · exact ih (m := { m with globals := d.id :: m.globals, cells := (m.cells.register d).2 })
        ⟨h.frames, h.host, h.result⟩

/-- What an evaluation settles on is a plain value or an error. -/
theorem isOutcome_settle (hp : m.Plain) (hw : w.CarriesPlain) : (m.settle w).1.IsOutcome := by
  cases w with
  | signal kind culprit v =>
    cases kind with
    | «return» => exact Value.Plain.isOutcome hw
    | «break» | «continue» => exact ⟨rfl, rfl⟩
  | reference c => exact Value.Plain.isOutcome (hp.cells c)
  | _ => exact ⟨rfl, rfl⟩

/-- What a machine holds is readable, plain and clean. -/
structure Tidy (m : Machine) : Prop where
  plain : m.Plain
  held : (programCustody Node.Readable).Machines m
  clean : m.Clean

/-- And so is what it is about to do. -/
structure Tidily (m : Machine) (φ : Focus) : Prop where
  plain : m.Plain
  held : (programCustody Node.Readable).Holds m φ
  clean : m.Clean
  bears : Bears φ

/-- **No variable and no signal is let out**, however the machine is stopped and resumed. -/
theorem tidy_perpetual (ht : ∀ t ∈ ts, t.Readable) : Perpetual ts Tidy Tidily where
  lasting := {
    step := fun m φ φ' h hn =>
      have hc := cleanly_step h.plain h.clean h.held h.bears
      ⟨plain_step h.plain φ, (Custody.lasting readableCustody_lawful).step m φ φ' h.held hn, hc.1,
        hc.2 φ' hn⟩
    resumption := fun m h =>
      have hinner : ∀ f ∈ m.frames.reverse, f.Clean := fun f hf =>
        h.clean.frames f (List.mem_reverse.1 hf)
      have hc := clean_takeUpAll (m := { m with frames := [] }) hinner (h.clean.reframe (by simp))
      ⟨(plain_perpetual ts).lasting.resumption m h.plain,
        (Custody.lasting readableCustody_lawful).resumption m h.held, hc.1, hc.2⟩
    stops := fun m φ b stopNext h =>
      ⟨(plain_perpetual ts).stops m b stopNext h.plain,
        (Custody.lasting readableCustody_lawful).stops m φ b stopNext h.held,
        ⟨h.clean.frames, h.clean.host, h.clean.result⟩, h.bears⟩ }
  globals m ds h :=
    ⟨plain_declareGlobals h.plain ds,
      Custody.machines_declareGlobals h.held (fun _ _ _ => ⟨trivial, fun _ hf => hf⟩) ds,
      clean_declareGlobals h.clean ds⟩
  stops m b stopNext h :=
    ⟨(plain_perpetual ts).stops m b stopNext h.plain,
      ⟨h.held.cells, h.held.frames, h.held.result, h.held.host⟩,
      ⟨h.clean.frames, h.clean.host, h.clean.result⟩⟩
  start m n h hp hn :=
    ⟨(plain_perpetual ts).start m n h.plain hp hn,
      ⟨⟨h.held.cells, h.held.frames, by simp [fresh], h.held.host⟩, ht n hn⟩,
      ⟨h.clean.frames, h.clean.host, by simp [fresh]⟩, trivial⟩
  taken m h _ := ⟨h.plain, ⟨h.held, trivial⟩, h.clean, trivial⟩
  stopped m h := ⟨h.plain, h.held.1, h.clean⟩
  ended m w h hf := by
    obtain ⟨-, hfr, hset⟩ := settle_frames m w
    have hho : (m.settle w).2.host = m.host := congrArg Prod.fst hset
    refine ⟨(plain_perpetual ts).ended m w h.plain hf, Custody.machines_settle h.held, ?_⟩
    refine ⟨hfr ▸ h.clean.frames, hho ▸ h.clean.host, fun v hv => ?_⟩
    obtain rfl : (m.settle w).1 = v := Option.mem_some_iff.1 hv
    exact isOutcome_settle h.plain h.bears
  reset m h :=
    ⟨(plain_perpetual ts).reset m h.plain, Custody.machines_reset readableCustody_lawful h.held,
      ⟨by simp [Machine.reset], h.clean.host, h.clean.result⟩⟩

theorem tidy_of_reached {host : Host} (ht : ∀ t ∈ ts, t.Readable)
    (hh : ∀ r ∈ host, r.SetsPlain) (h : Reached host ts (m, none)) : m.Tidy :=
  (tidy_perpetual ht).of_reached (fun next => {
    plain := ⟨Cells.plain_empty, List.forall_mem_nil _⟩
    held := Custody.machines_new trivial (fun r hr => (hh r hr).readable) next
    clean := ⟨by simp, hh, by simp⟩ }) h

/-- What a run returns is also what the machine has as its result. -/
theorem result_of_run {steps : Nat} {m' : Machine} (h : run steps m φ = (m', .finished v)) :
    m'.result = some v := by
  obtain ⟨j, m₁, φ₁, m₂, w, -, -, -, hs⟩ := run_eq_finished h
  have hresult : (m₂.settle w).2.result = some (m₂.settle w).1 := rfl
  rwa [hs] at hresult

theorem result_of_resume {steps : Nat} {m' : Machine} (h : m.resume steps = .ok (m', .finished v)) :
    m'.result = some v := by
  unfold resume at h
  split at h
  · exact result_of_run (Except.ok.inj h)
  · cases h

theorem result_of_start {steps : Nat} {m' : Machine}
    (h : m.start n steps = .ok (m', .finished v)) : m'.result = some v := by
  unfold start at h
  split at h
  · cases h
  · exact result_of_run (Except.ok.inj h)

theorem result_of_stepIn {steps : Nat} {m' : Machine}
    (h : m.stepIn steps = .ok (m', .finished v)) : m'.result = some v := by
  unfold stepIn at h
  split at h
  · exact result_of_resume h
  · cases h

/-- A call that starts, resumes or steps into an evaluation of one of the trees. -/
inductive Returned (ts : List Node) (m : Machine) : Machine × Status → Prop
  | start {n : Node} {steps : Nat} {r : Machine × Status} : n ∈ ts →
      m.start n steps = .ok r → Returned ts m r
  | resume {steps : Nat} {r : Machine × Status} : m.resume steps = .ok r → Returned ts m r
  | stepIn {steps : Nat} {r : Machine × Status} : m.stepIn steps = .ok r → Returned ts m r

/-- What can be seen of a machine that neither stores nor returns anything but plain values. -/
structure PlainlySeen (ts : List Node) (m : Machine) : Prop where
  /-- No cell has a variable, an error or a signal. -/
  cells : ∀ c, (m.cells.get c).Plain
  /-- To read a variable once is to come to a plain value. -/
  read : ∀ v, v.isAbrupt = false → (m.cells.deref v).Plain
  /-- The result of the last evaluation that came to an end. -/
  result : ∀ v ∈ m.result, v.IsOutcome
  /-- What the next call returns if the evaluation comes to an end. -/
  returned : ∀ m' v, Returned ts m (m', .finished v) → v.IsOutcome

/-- **Only plain values are stored or returned**, on all trees that have been read, under every host
that sets plain values or errors, wherever the evaluations are stopped and however they are
continued. -/
theorem only_plain_seen {host : Host} {next : Nat} (ht : ReadInTurn ts next)
    (hh : ∀ r ∈ host, r.SetsPlain) (hm : Reached host ts (m, none)) : PlainlySeen ts m := by
  have htidy : ∀ {m : Machine}, Reached host ts (m, none) → m.Tidy :=
    tidy_of_reached ht.readable hh
  exact {
    cells := (htidy hm).plain.cells
    read := fun _ => (htidy hm).plain.cells.deref
    result := (htidy hm).clean.result
    returned := fun m' v hr => by
      have hlater : Later ts (m, none) (m', none) ∧ m'.result = some v := by
        cases hr with
        | start hn hs => exact ⟨later_start hn hs (by simp), result_of_start hs⟩
        | resume hs => exact ⟨later_resume hs (by simp), result_of_resume hs⟩
        | stepIn hs => exact ⟨later_stepIn hs (by simp), result_of_stepIn hs⟩
      exact (htidy (hm.later hlater.1)).clean.result v hlater.2 }

/-- A function that returns what it is given, as an operand and out of a branch. -/
theorem only_plain_seen_returned :
    PlainlySeen [((Parser.new {}).parse
      "function f(x) { if (x) return x; return 1 + (return x); } var y = f; f(y)").1] {} :=
  only_plain_seen (.read _ (.none 1) (.new {} 1) (Nat.le_refl 1))
    (Host.forall_always Host.setsPlain_standard) (reached_new _ _ 1)

end Machine

end Steppable
