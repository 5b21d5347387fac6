import Steppable.Proofs.Machine.Transparency

/-!
# An evaluation leaves the frames below alone

What a node evaluates to is the value that arrives when the frames above those that stood when it
was entered have ended again (`Evaluates`). That these are then the same frames as before is not
clear from the steps: a host gives results and arguments to frames further down, and it finds them
by comparing identities of nodes.

**Theorem (`Evaluates.course`).** A machine whose frames wait for one another, and that evaluates a
node below which no accessor waits, comes back to the frames that it left. On the way it enters no
other node with so few frames.

A step that begins with a frame above the others ends with them in place (`stays_step`), because the
accessors that it can be about all wait to be applied to one another, and so stand above the first
frame that waits for anything else.
-/

namespace Steppable

/-! ## Stacks with the same frames below -/

section

variable {α : Type} {below fs gs : List α} {j : Nat}

theorem suffix_of_drop (h : below <:+ fs) (hl : gs.length = fs.length) (hd : gs.drop j = fs.drop j)
    (hj : j + below.length ≤ fs.length) : below <:+ gs := by
  rw [List.suffix_iff_eq_drop] at h ⊢
  have hle : j ≤ fs.length - below.length := by omega
  obtain ⟨i, hi⟩ := Nat.exists_eq_add_of_le hle
  rw [hl, hi, ← List.drop_drop, hd, List.drop_drop, ← hi]
  exact h

/-- Where the frame at the top of those below has not the property, only frames above have it. -/
theorem length_takeWhile_of_suffix (p : α → Bool) (h : below <:+ fs)
    (hp : ∀ b ∈ below.head?, p b = false) (hne : below ≠ []) :
    (fs.takeWhile p).length + below.length ≤ fs.length := by
  obtain ⟨as, rfl⟩ := h
  obtain ⟨b, bs, rfl⟩ := List.exists_cons_of_ne_nil hne
  have hb : p b = false := hp b rfl
  induction as with
  | nil => simp [hb]
  | cons a as ih =>
    rw [List.cons_append, List.takeWhile_cons]
    split
    · simp only [List.length_cons] at ih ⊢
      omega
    · simp only [List.length_cons, List.length_nil, List.length_append]
      omega

end

namespace Machine

variable {m m₁ m' : Machine} {φ : Focus} {S : Node → Prop} {f : Frame} {outer below : List Frame}
  {v : Value} {n : Node} {k h : Nat}

/-! ## Courses and evaluations -/

/-- The node that the machine is about to enter, if it has at most `h` frames. -/
def entered (h : Nat) (m : Machine) : Focus → List Node
  | .enter n => if m.frames.length ≤ h then [n] else []
  | _ => []

/-- An evaluation goes on from one moment to another; on the way it enters the given nodes with at
most `h` frames. A stop counts as the moment before the node begins. -/
inductive Course (h : Nat) : List Node → Machine → Focus → Machine → Focus → Prop
  | refl (m : Machine) (φ : Focus) : Course h [] m φ m φ
  | step {m m' : Machine} {φ φ₁ φ' : Focus} {ns : List Node} :
      (m.step φ).2.next? = some φ₁ → Course h ns (m.step φ).1 φ₁ m' φ' →
      Course h (entered h m φ ++ ns) m φ m' φ'

/-- The value `v` comes back to the frames that `h` counts, and the machine is then `m'`. -/
inductive ComesBack (h : Nat) : Machine → Focus → Value → Machine → Prop
  | back {m : Machine} {v : Value} : m.frames.length ≤ h → ComesBack h m (.give v) v m
  | step {m m' : Machine} {φ φ₁ : Focus} {v : Value} :
      (∀ w, φ = .give w → h < m.frames.length) → (m.step φ).2.next? = some φ₁ →
      ComesBack h (m.step φ).1 φ₁ v m' → ComesBack h m φ v m'

/-- The node `n` evaluates to `v`, and the machine is then `m'`. -/
def Evaluates (m : Machine) (n : Node) (v : Value) (m' : Machine) : Prop :=
  ComesBack m.frames.length m (.enter n) v m'

theorem Course.trans {φ₁ φ' : Focus} {ns ns' : List Node} (hc : Course h ns m φ m₁ φ₁)
    (hc' : Course h ns' m₁ φ₁ m' φ') : Course h (ns ++ ns') m φ m' φ' := by
  induction hc with
  | refl => exact hc'
  | step hn _ ih =>
    rw [List.append_assoc]
    exact .step hn (ih hc')

theorem Course.single {φ₁ : Focus} (hs : m.step φ = (m₁, .running φ₁)) :
    Course h (entered h m φ) m φ m₁ φ₁ := by
  have hc : Course h [] (m.step φ).1 φ₁ m₁ φ₁ := by
    rw [hs]
    exact .refl m₁ φ₁
  have := Course.step (by rw [hs]; rfl) hc
  rwa [List.append_nil] at this

/-- **What a step preserves, a course preserves.** -/
theorem Course.preserves {I : Machine → Focus → Prop} {φ' : Focus} {ns : List Node}
    (hI : ∀ m φ φ', I m φ → (m.step φ).2.next? = some φ' → I (m.step φ).1 φ')
    (hc : Course h ns m φ m' φ') (hm : I m φ) : I m' φ' := by
  induction hc with
  | refl => exact hm
  | step hn _ ih => exact ih (hI _ _ _ hm hn)

/-! ## Steps with frames below -/

/-- The step leaves the frames `below` in place, and if there are no others then a value is on its
way to them. -/
def Stays (below : List Frame) (x : Machine × Progress) : Prop :=
  below <:+ x.1.frames ∧
    ∀ φ, x.2.next? = some φ → below.length < x.1.frames.length ∨ ∃ v, φ = .give v

theorem stays_give (hb : below <:+ m.frames) (v : Value) : Stays below (m.give v) :=
  ⟨hb, fun _ hn => .inr ⟨v, (Option.some.inj hn).symm⟩⟩

theorem stays_enter (hb : below <:+ m.frames) (n : Node) : Stays below (m.enter n) := by
  have hpush : ∀ (stopNext : Bool) (p : Progress),
      Stays below ({ m with frames := { node := n } :: m.frames, stopNext }, p) := fun _ _ =>
    ⟨hb.trans (List.suffix_cons _ _), fun _ _ => .inl (Nat.lt_succ_of_le hb.length_le)⟩
  have he := enter_entering m n
  generalize m.enter n = x at he
  cases he with
  | push =>
    split
    · exact hpush _ _
    · exact hpush _ _
  | constant | nothing | fault | reference | function | named | unbound => exact stays_give hb _

theorem stays_finish (hf : m.frames = f :: outer) (hb : below <:+ outer) (v : Value) :
    Stays below (m.finish v) := by
  simp only [finish, hf]
  exact stays_give (m := { m with frames := outer, cells := m.cells.leave f }) hb v

theorem stays_finishFault (hf : m.frames = f :: outer) (hb : below <:+ outer) (culprit : Node)
    (message : String) : Stays below (m.finishFault culprit message) :=
  stays_finish (m := (m.fault culprit message).2) hf hb _

theorem stays_finishResolved (hf : m.frames = f :: outer) (hb : below <:+ outer) (v : Value) :
    Stays below (m.finishResolved v) := by
  simp only [finishResolved, hf]
  exact stays_finish hf hb _

theorem stays_await (hf : m.frames = f :: outer) (hb : below <:+ outer) (ψ : Phase) (n : Node) :
    Stays below (m.await ψ n) := by
  simp only [await, hf]
  exact ⟨hb.trans (List.suffix_cons _ _), fun _ _ => .inl (Nat.lt_succ_of_le hb.length_le)⟩

theorem stays_nextStatement (hf : m.frames = f :: outer) (hb : below <:+ outer) (last : Value)
    (ss : List Node) : Stays below (m.nextStatement last ss) := by
  cases ss with
  | nil => exact stays_finish hf hb last
  | cons s rest => exact stays_await hf hb _ s

theorem stays_nextArgument (hf : m.frames = f :: outer) (hb : below <:+ outer) (callee : Closure)
    (done : List Value) (as : List Node) : Stays below (m.nextArgument callee done as) := by
  cases as with
  | nil => exact stays_await (m := { m with cells := activate m.cells callee done }) hf hb _ _
  | cons a rest => exact stays_await hf hb _ a

theorem stays_call (hf : m.frames = f :: outer) (hb : below <:+ outer) (n : Node)
    (callee : Closure) : Stays below (m.call n callee) := by
  unfold call
  rw [hf]
  exact stays_nextArgument rfl (hb.trans (List.suffix_cons _ _)) callee [] n.arguments

/-- What a host does to a frame above leaves those below alone. -/
theorem suffix_of_core {fs gs : List Frame} (hb : below <:+ outer) (hf : fs = f :: outer)
    (hc : gs.map Frame.core = fs.map Frame.core) (hd : gs.drop (k + 1) = fs.drop (k + 1))
    (hk : k + below.length < fs.length) : ∃ f₁ outer₁, gs = f₁ :: outer₁ ∧ below <:+ outer₁ := by
  subst hf
  obtain ⟨f₁, outer₁, rfl, -, hcore, hdrop⟩ := frames_of_chain hc hd
  refine ⟨f₁, outer₁, rfl, suffix_of_drop hb (by simpa using congrArg List.length hcore) hdrop ?_⟩
  rw [List.length_cons] at hk
  omega

theorem drop_answer (r : Host.Rule) (as : List Value) :
    (m.answer r k as).2.frames.drop (k + 1) = m.frames.drop (k + 1) := by
  have hfault : ∀ (m : Machine) (message : String),
      (m.setFault k message).2.frames.drop (k + 1) = m.frames.drop (k + 1) := by
    intro m message
    unfold setFault
    split
    · exact drop_setResult _ k _
    · rfl
  unfold answer
  dsimp only
  split
  · exact drop_setResult _ k _
  · exact drop_setResult _ k _
  · exact hfault _ _
  · exact hfault _ _
  · rfl

theorem stays_consult (hf : m.frames = f :: outer) (hb : below <:+ outer)
    (hl : (m.links.map (·.node)).length + below.length ≤ m.frames.length) (n : Node)
    (rules : List Host.Rule) : Stays below (consult n rules m) := by
  induction rules generalizing m f outer with
  | nil => exact stays_finishFault hf hb n _
  | cons r rules ih =>
    cases hk : r.reach? (m.links.map (·.node)) with
    | none =>
      rw [consult_skip hk]
      exact ih hf hb hl
    | some k =>
      have hlt : k + below.length < m.frames.length := by
        have := Host.reach?_lt hk
        omega
      have ha₁ := alike_prepare m r k
      obtain ⟨fs, hfs, -, hd₁, -⟩ := frames_prepare m r k
      rcases hp : m.prepare r k with ⟨as, missing, m₁⟩
      rw [hp] at ha₁ hfs
      have hd₁ : m₁.frames.drop (k + 1) = m.frames.drop (k + 1) := by
        dsimp only at hfs
        rw [hfs]
        exact hd₁
      obtain ⟨f₁, outer₁, hf₁, hb₁⟩ := suffix_of_core hb hf ha₁.frames hd₁ hlt
      cases missing with
      | some a =>
        rw [consult_ask hk hp]
        exact stays_await hf₁ hb₁ _ a
      | none =>
        have ha₂ := alike_answer m₁ r k as
        have hd₂ := drop_answer (m := m₁) (k := k) r as
        rcases ha : m₁.answer r k as with ⟨w, m₂⟩
        rw [ha] at ha₂ hd₂
        rw [← ha₁.length_frames] at hlt
        obtain ⟨f₂, outer₂, hf₂, hb₂⟩ := suffix_of_core hb₁ hf₁ ha₂.frames hd₂ hlt
        cases w with
        | some w =>
          rw [consult_answer hk hp ha]
          exact stays_finishResolved hf₂ hb₂ w
        | none =>
          rw [consult_pass hk hp ha]
          refine ih hf₂ hb₂ ?_
          rw [(ha₁.trans ha₂).links_node, (ha₁.trans ha₂).length_frames]
          exact hl

/-! ## Aligned machines -/

/-- All that the machine holds belongs to a program, and its frames wait for one another. -/
structure Aligned (S : Node → Prop) (m : Machine) (φ : Focus) : Prop where
  held : (programCustody S).Holds m φ
  poised : Poised m φ

theorem Orderly.aligned (h : Orderly S m φ) : Aligned S m φ :=
  ⟨h.held, h.poised⟩

theorem Aligned.ofProgram (h : Aligned S m φ) : OfProgram S m.cores :=
  ofProgram_of_machines h.held.1

/-- The frames go on to wait for one another. -/
theorem Aligned.step {φ' : Focus} (hP : Program S) (h : Aligned S m φ)
    (hn : (m.step φ).2.next? = some φ') : Aligned S (m.step φ).1 φ' :=
  ⟨(Custody.lasting (programCustody_lawful hP)).step m φ φ' h.held hn,
    h.poised.step hP h.ofProgram hn⟩

/-- The top frame of those below, if there is one, does not wait for what an accessor is applied to.
-/
def Barred (below : List Frame) : Prop :=
  ∀ b ∈ below.head?, b.phase.isAccessed = false

theorem accessing_of_barred (hb : below <:+ outer) (hbar : Barred below) :
    (accessing (outer.map Frame.core)).length + below.length ≤ outer.length := by
  by_cases hne : below = []
  · subst hne
    simpa using length_accessing_le (outer.map Frame.core)
  · rw [accessing, List.takeWhile_map, List.length_map]
    exact length_takeWhile_of_suffix (fun f : Frame => f.phase.isAccessed) hb hbar hne

/-- What is below the top frame waits for the node of it. -/
theorem Poised.expects (hp : Poised m φ) (hf : m.frames = f :: outer) :
    Expects (outer.map Frame.core) f.node := by
  have htail : ∀ {n}, Expects m.cores n → Expects (outer.map Frame.core) f.node := fun h => by
    rw [cores_of_frames hf] at h
    exact h.tail
  cases φ with
  | enter n => exact htail hp
  | begin =>
    obtain ⟨x, cs, hc, he⟩ := hp
    obtain ⟨hx, rfl⟩ := List.cons.inj ((cores_of_frames hf).symm.trans hc)
    obtain ⟨rfl, -⟩ := Prod.mk.inj hx
    exact he
  | give v =>
    obtain ⟨n, he⟩ := hp
    exact htail he

/-- What is below any frame waits for the node of it. -/
theorem Poised.expects_inner {inner : List Frame} (hp : Poised m φ)
    (hf : m.frames = inner ++ f :: outer) : Expects (outer.map Frame.core) f.node := by
  cases inner with
  | nil => exact hp.expects hf
  | cons a inner => exact Expects.of_inner (hp.expects hf)

theorem Aligned.links_le (hP : Program S) (ha : Aligned S m φ) (hf : m.frames = f :: outer)
    (hb : below <:+ outer) (hbar : Barred below) :
    (m.links.map (·.node)).length + below.length ≤ m.frames.length := by
  rw [links_node_eq hP ha.ofProgram (cores_of_frames hf) (ha.poised.expects hf), hf]
  have := accessing_of_barred hb hbar
  simp only [List.length_cons, List.length_map]
  omega

theorem stays_receiveArgument (hP : Program S) (ha : Aligned S m φ) (hf : m.frames = f :: outer)
    (hb : below <:+ outer) (hbar : Barred below)
    (hk : k ≤ (accessing (outer.map Frame.core)).length) (n : Node) (rules : List Host.Rule) (v : Value) :
    Stays below (m.receiveArgument n k rules v) := by
  have hlt : k + below.length < m.frames.length := by
    have := accessing_of_barred hb hbar
    rw [hf, List.length_cons]
    omega
  have hlinks := ha.links_le hP hf hb hbar
  unfold receiveArgument
  dsimp only
  split
  · have hlike := alike_setResult m k (m.cells.deref v)
    obtain ⟨f₁, outer₁, hf₁, hb₁⟩ :=
      suffix_of_core hb hf hlike.frames (drop_setResult _ k _) hlt
    exact stays_finishResolved hf₁ hb₁ _
  · have hlike := alike_addArgument m k (m.cells.deref v)
    have hdrop : (m.addArgument k (m.cells.deref v)).frames.drop (k + 1) = m.frames.drop (k + 1) :=
      List.drop_modify_of_lt _ k (k + 1) _ (Nat.lt_succ_self k)
    obtain ⟨f₁, outer₁, hf₁, hb₁⟩ := suffix_of_core hb hf hlike.frames hdrop hlt
    refine stays_consult hf₁ hb₁ ?_ n rules
    rw [hlike.links_node, hlike.length_frames]
    exact hlinks

theorem stays_receive (hP : Program S) (ha : Aligned S m (.give v)) (hf : m.frames = f :: outer)
    (hb : below <:+ outer) (hbar : Barred below) : Stays below (m.receive f v) := by
  have hlinks := ha.links_le hP hf hb hbar
  have hr := receive_reaction m f v
  generalize m.receive f v = x at hr
  cases hr with
  | pass | abrupt | yield | result | unwrap => exact stays_finish hf hb _
  | fault culprit message => exact stays_finishFault hf hb culprit message
  | @write cell x w =>
    exact stays_finish (m := { m with cells := m.cells.set cell x }) hf hb w
  | await => exact stays_await hf hb _ _
  | statement => exact stays_nextStatement hf hb _ _
  | call => exact stays_call hf hb _ _
  | members => exact stays_consult hf hb hlinks _ _
  | argument => exact stays_nextArgument hf hb _ _ _
  | @ask k rules hφ =>
    obtain ⟨n, he⟩ := ha.poised
    rw [cores_of_frames hf, hφ] at he
    exact stays_receiveArgument hP ha hf hb hbar he.le_accessing f.node rules v

/-- **A step with frames above leaves those below alone.** -/
theorem stays_step (hP : Program S) (ha : Aligned S m φ) (hf : m.frames = f :: outer)
    (hb : below <:+ outer) (hbar : Barred below) : Stays below (m.step φ) := by
  cases φ with
  | enter n =>
    exact stays_enter (hf ▸ hb.trans (List.suffix_cons f outer)) n
  | begin =>
    rw [step, hf]
    dsimp only
    have hbe := begin_beginning m f.node
    generalize m.begin f.node = x at hbe
    cases hbe with
    | await => exact stays_await hf hb _ _
    | ask => exact stays_consult hf hb (ha.links_le hP hf hb hbar) _ _
    | @block t ss locals g outer' _ hg =>
      rw [hf] at hg
      cases hg
      exact stays_nextStatement (m := { m with
        frames := { f with phase := .statement ss } :: outer
        cells := m.cells.registerAll locals }) rfl hb _ _
    | jump | finish => exact stays_finish hf hb _
  | give v =>
    rw [step, hf]
    exact stays_receive hP ha hf hb hbar

/-! ## Coming back -/

/-- What comes back to the frames below finds them as they were. -/
theorem ComesBack.course (hP : Program S) (hbar : Barred below)
    (hc : ComesBack below.length m φ v m') (ha : Aligned S m φ) (hb : below <:+ m.frames)
    (habove : below.length < m.frames.length ∨ ∃ w, φ = .give w) :
    Course below.length [] m φ m' (.give v) ∧ m'.frames = below ∧ Aligned S m' (.give v) := by
  induction hc with
  | back hle => exact ⟨.refl _ _, (hb.eq_of_length_le hle).symm, ha⟩
  | @step m m' φ φ₁ v hgive hn _ ih =>
    have hlt : below.length < m.frames.length := by
      rcases habove with h | ⟨w, hw⟩
      · exact h
      · exact hgive w hw
    obtain ⟨f, outer, hf⟩ := List.exists_cons_of_length_pos (Nat.zero_lt_of_lt hlt)
    have hb' : below <:+ outer := by
      rw [hf] at hb hlt
      rcases List.suffix_cons_iff.1 hb with rfl | h
      · exact (Nat.lt_irrefl _ hlt).elim
      · exact h
    obtain ⟨hb₁, habove₁⟩ := stays_step hP ha hf hb' hbar
    obtain ⟨hcourse, hframes, ha₁⟩ := ih (ha.step hP hn) hb₁ (habove₁ φ₁ hn)
    have hentered : entered below.length m φ = [] := by
      cases φ with
      | enter n => exact if_neg (Nat.not_le_of_lt hlt)
      | begin | give => rfl
    have := Course.step hn hcourse
    rw [hentered] at this
    exact ⟨this, hframes, ha₁⟩

/-- **An evaluation comes back to the frames that it left**, and enters no other node with so few
frames. -/
theorem Evaluates.course (hP : Program S) (hbar : Barred m.frames) (ha : Aligned S m (.enter n))
    (hv : Evaluates m n v m') :
    Course m.frames.length [n] m (.enter n) m' (.give v) ∧ m'.frames = m.frames ∧
      Aligned S m' (.give v) := by
  cases hv with
  | @step _ _ _ φ₁ _ _ hn hc =>
    obtain ⟨hb, habove⟩ := stays_enter (List.suffix_refl m.frames) n
    obtain ⟨hcourse, hframes, ha₁⟩ := hc.course hP hbar (ha.step hP hn) hb (habove φ₁ hn)
    have := Course.step hn hcourse
    rw [show entered m.frames.length m (.enter n) = [n] from if_pos (Nat.le_refl _)] at this
    exact ⟨this, hframes, ha₁⟩

end Machine

end Steppable
