import Steppable.Proofs.Machine.Evaluation

/-!
# Questions to a host that may decline

A host may decline: then the next rule is asked, which can reach another accessor and want other
arguments. While an argument is evaluated, the frame that asks remembers the accessor and the rules
from the one that wants the argument on.

Each frame that asks waits for the next argument of the accessor that it asks about, and the
accessors before that one have no arguments, for a rule passes accessors by their names (`Awaits`).
So whatever rules a host goes by, at any frame there is one accessor at most for which they can want
an argument. Every step preserves this (`Attends.step`): what a host does concerns accessors that
wait for what they are applied to, and these do not ask. -/

namespace Steppable

/-! ## What has been gathered -/

/-- Arguments are being gathered in the frame, and `n` is the next one. -/
def Frame.Lacks (f : Frame) (n : Node) : Prop :=
  ∃ g, f.gathered = some g ∧ (f.node.arguments.take g.wanted)[g.values.length]? = some n

/-- The node of a frame and what has been gathered in it. -/
def Frame.claim (f : Frame) : Node × Option Gathered :=
  (f.node, f.gathered)

/-- The phase without the rules that are asked, and whether there are none. -/
def Phase.sketch : Phase → Phase × Bool
  | .asking k rules => (.asking k [], rules.isEmpty)
  | φ => (φ, false)

/-- What matters of a frame to the questions on its stack. That is not a result, nor a note for
rules that ask a frame without arguments for some; and which rules a frame asks does not matter as
long as there are any. -/
def Frame.sketch (f : Frame) : Node × (Phase × Bool) × Option Gathered :=
  (f.node, f.phase.sketch, if f.node.arguments.isEmpty then none else f.gathered)

variable {f g e : Frame} {fs gs hs outer : List Frame} {n : Node} {k : Nat} {r : Host.Rule}
  {rules rules' : List Host.Rule}

theorem Phase.asking_of_sketch {φ : Phase} (h : φ.sketch = (Phase.asking k rules).sketch) :
    ∃ rules', φ = .asking k rules' ∧ (rules = [] → rules' = []) := by
  cases φ with
  | asking j rules' =>
    obtain ⟨hj, he⟩ := Prod.mk.inj h
    obtain ⟨rfl, -⟩ := Phase.asking.inj hj
    exact ⟨rules', rfl, fun hnil => List.isEmpty_iff.1 (he.trans (List.isEmpty_iff.2 hnil))⟩
  | _ => simp [Phase.sketch] at h

theorem Frame.Lacks.ne_nil (h : f.Lacks n) : f.node.arguments ≠ [] := by
  obtain ⟨g, -, hn⟩ := h
  intro hnil
  simp [hnil] at hn

theorem Frame.Lacks.of_claim (h : f.Lacks n) (hc : g.claim = f.claim) : g.Lacks n := by
  obtain ⟨hn, hg⟩ := Prod.mk.inj hc
  rwa [Lacks, hn, hg]

theorem Frame.claim_of_sketch (h : g.sketch = f.sketch) (hf : f.node.arguments ≠ []) :
    g.claim = f.claim := by
  obtain ⟨hn, h⟩ := Prod.mk.inj h
  obtain ⟨-, hg⟩ := Prod.mk.inj h
  rw [hn, if_neg (by simpa using hf), if_neg (by simpa using hf)] at hg
  rw [claim, claim, hn, hg]

theorem getElem?_of_map {α : Type} {p : Frame → α} (h : gs.map p = fs.map p)
    (hf : fs[k]? = some f) : ∃ g, gs[k]? = some g ∧ p g = p f := by
  have hk := congrArg (·[k]?) h
  simp only [List.getElem?_map, hf, Option.map_some] at hk
  exact Option.map_eq_some_iff.1 hk

theorem map_of_map {α β : Type} {p : Frame → α} (c : α → β) {q : Frame → β}
    (hq : q = c ∘ p) (h : gs.map p = fs.map p) : gs.map q = fs.map q := by
  rw [hq, ← List.map_map, ← List.map_map, h]

theorem map_node_of_sketch (h : gs.map Frame.sketch = fs.map Frame.sketch) :
    gs.map Frame.node = fs.map Frame.node :=
  map_of_map (p := Frame.sketch) Prod.fst rfl h

/-! ## What rules can ask for -/

theorem Node.arguments_of_isNamed {s : String} (h : n.isNamed s = true) : n.arguments = [] := by
  cases n <;> first | rfl | simp [isNamed] at h

/-- A rule that takes arguments has passed accessors without arguments only. -/
theorem Host.arguments_of_reach {e : Host.Ending} {arity : Nat} (ha : e.arity? = some arity)
    {path : List String} {chain : List Node} (hk : Host.reach? e path chain = some k) :
    ∀ n ∈ chain.take k, n.arguments = [] := by
  induction path generalizing chain k with
  | nil =>
    have hzero : k = 0 := by
      cases chain with
      | nil => cases hk
      | cons n outer => cases e <;> cases n <;> simp_all [reach?, Ending.reach?, Ending.arity?]
    simp [hzero]
  | cons s path ih =>
    cases chain with
    | nil => cases hk
    | cons n outer =>
      rw [reach?] at hk
      split at hk
      · rename_i hn
        obtain ⟨j, hj, rfl⟩ := Option.map_eq_some_iff.1 hk
        rw [List.take_succ_cons]
        exact List.forall_mem_cons.2 ⟨Node.arguments_of_isNamed hn, ih hj⟩
      · cases hk

theorem arguments_of_reach {arity : Nat} (ha : r.ending.arity? = some arity)
    (hk : r.reach? ((accessorChain fs).map Frame.node) = some k) :
    ∀ f ∈ fs.take k, f.node.arguments = [] := by
  intro f hf
  have hlt : k < (accessorChain fs).length := by simpa using Host.reach?_lt hk
  refine Host.arguments_of_reach ha hk _ ?_
  rw [← List.map_take, (List.prefix_iff_eq_take.1 (prefix_accessorChain fs)), List.take_take,
    Nat.min_eq_left (Nat.le_of_lt hlt)]
  exact List.mem_map_of_mem hf

/-! ## Questions -/

/-- The top frame asks some rules about the accessor at `k`, and waits for the next argument `n` of
it. The accessors before that one have no arguments. -/
structure Asked (fs : List Frame) (n : Node) (k : Nat) (rules : List Host.Rule) : Prop where
  nonempty : rules ≠ []
  passed : ∀ f ∈ fs.take k, f.node.arguments = []
  lacks : ∃ f, fs[k]? = some f ∧ f.Lacks n

theorem Asked.of_sketch (h : Asked fs n k rules)
    (hs : gs.map Frame.sketch = fs.map Frame.sketch) (hr : rules' ≠ []) : Asked gs n k rules' := by
  obtain ⟨f, hf, hl⟩ := h.lacks
  obtain ⟨g, hg, hgf⟩ := getElem?_of_map hs hf
  refine ⟨hr, fun e he => ?_, g, hg, hl.of_claim (Frame.claim_of_sketch hgf hl.ne_nil)⟩
  have htake : (gs.take k).map Frame.node = (fs.take k).map Frame.node := by
    rw [List.map_take, List.map_take, map_node_of_sketch hs]
  obtain ⟨e', he', hnode⟩ := List.mem_map.1 (htake ▸ List.mem_map_of_mem he)
  exact hnode ▸ h.passed e' he'

/-- Each frame that asks waits for the next argument of the accessor that it asks about. The node
above the frames, or at hand, is `n`. -/
def Awaits : List Frame → Node → Prop
  | [], _ => True
  | f :: outer, n =>
    (∀ k rules, f.phase = .asking k rules → Asked (f :: outer) n k rules) ∧ Awaits outer f.node

theorem awaits_cons (h : Awaits outer f.node) (hf : ∀ k rules, f.phase ≠ .asking k rules) :
    Awaits (f :: outer) n :=
  ⟨fun k rules hφ => (hf k rules hφ).elim, h⟩

theorem Awaits.of_append (h : Awaits (fs ++ gs) n) : ∃ n', Awaits gs n' := by
  induction fs generalizing n with
  | nil => exact ⟨n, h⟩
  | cons f fs ih => exact ih h.2

theorem Awaits.of_sketch (h : Awaits fs n) (hs : gs.map Frame.sketch = fs.map Frame.sketch) :
    Awaits gs n := by
  induction fs generalizing gs n with
  | nil =>
    rw [List.map_nil, List.map_eq_nil_iff] at hs
    exact hs ▸ trivial
  | cons f fs ih =>
    cases gs with
    | nil => cases hs
    | cons g gs =>
      obtain ⟨hgf, hgs⟩ := List.cons.inj hs
      obtain ⟨hnode, hrest⟩ := Prod.mk.inj hgf
      refine ⟨fun k rules hφ => ?_, hnode ▸ ih h.2 hgs⟩
      obtain ⟨rules', hf, hnil⟩ :=
        Phase.asking_of_sketch ((Prod.mk.inj hrest).1.symm.trans (congrArg Phase.sketch hφ))
      have hasked := h.1 k rules' hf
      exact hasked.of_sketch hs (mt hnil hasked.nonempty)

/-- Changes in the accessors at the top that wait for what they are applied to concern no question.
-/
theorem Awaits.of_drop (h : Awaits fs n) (hc : gs.map Frame.core = fs.map Frame.core)
    (hk : k ≤ (accessing (fs.map Frame.core)).length) (hd : gs.drop k = fs.drop k) :
    Awaits gs n := by
  refine accessed_induction (P := fun gs fs => ∀ n, Awaits fs n → Awaits gs n)
    (fun _ _ h => h) (fun {f g _ _} hf hfg ih n h => ?_) hc hk hd n h
  have hnode : g.node = f.node := congrArg Prod.fst hfg
  have hphase : g.phase = .accessed := (congrArg Prod.snd hfg).trans hf
  exact awaits_cons (hnode ▸ ih f.node h.2) (by simp [hphase])

namespace Machine

variable {m m₁ m₂ : Machine} {v w : Value} {S : Node → Prop} {φ φ' : Focus} {as : List Value}

/-! ## What a host leaves in the frames -/

theorem map_answer {α : Type} {p : Frame → α} (hp : ∀ f v, p { f with result := some v } = p f)
    (m : Machine) (r : Host.Rule) (k : Nat) (as : List Value) :
    (m.answer r k as).2.frames.map p = m.frames.map p := by
  have hfault : ∀ (m : Machine) (message : String),
      (m.setFault k message).2.frames.map p = m.frames.map p := by
    intro m message
    unfold setFault
    split
    · exact map_setResult hp _ k _
    · rfl
  unfold answer
  dsimp only
  split
  · exact map_setResult hp _ k _
  · exact map_setResult hp _ k _
  · exact hfault _ _
  · exact hfault _ _
  · rfl

/-- The note for a rule that takes arguments, in the frame that it has reached. -/
theorem prepare_noted {arity : Nat} (harity : r.ending.arity? = some arity)
    (he : m.frames[k]? = some e) :
    m.prepare r k = ((e.gatheredFor arity).values,
      (e.node.arguments.take (e.gatheredFor arity).wanted)[(e.gatheredFor arity).values.length]?,
      { m with frames := m.frames.set k { e with gathered := some (e.gatheredFor arity) } }) :=
  prepare_eq harity he rfl

/-- A rule that wants an argument has noted which is the next one. -/
theorem lacks_of_prepare {n : Node} (hk : k < m.frames.length)
    (hp : m.prepare r k = (as, some n, m₁)) :
    (∃ arity, r.ending.arity? = some arity) ∧ ∃ f, m₁.frames[k]? = some f ∧ f.Lacks n := by
  cases harity : r.ending.arity? with
  | none => simp [prepare, harity] at hp
  | some arity =>
    rw [prepare_noted harity (List.getElem?_eq_getElem hk)] at hp
    obtain ⟨-, hp⟩ := Prod.mk.inj hp
    obtain ⟨hsome, rfl⟩ := Prod.mk.inj hp
    exact ⟨⟨arity, rfl⟩, _, List.getElem?_set_self hk, _, rfl, hsome⟩

/-! ## Frames that wait -/

/-- Each frame of the machine that asks waits for the next argument. -/
def Attends (m : Machine) : Focus → Prop
  | .enter n => Awaits m.frames n
  | _ => ∃ n, Awaits m.frames n

/-- A step that ends so is followed by what the frames that ask wait for. -/
def AttendsAfter (s : Machine × Progress) : Prop :=
  ∀ φ', s.2.next? = some φ' → Attends s.1 φ'

theorem attends_finish (hf : m.frames = f :: outer) (hq : Awaits outer n) (v : Value) :
    AttendsAfter (m.finish v) := by
  intro φ' hn
  rw [finish_snd] at hn
  obtain rfl := Option.some.inj hn
  simp only [finish, hf]
  exact ⟨n, hq⟩

theorem attends_finishResolved (hf : m.frames = f :: outer) (hq : Awaits outer n)
    (v : Value) : AttendsAfter (m.finishResolved v) := by
  simp only [finishResolved, hf]
  exact attends_finish hf hq _

theorem attends_await {ψ : Phase} (hf : m.frames = f :: outer)
    (hq : Awaits ({ f with phase := ψ } :: outer) n) : AttendsAfter (m.await ψ n) := by
  intro φ' hn
  rw [await_snd] at hn
  obtain rfl := Option.some.inj hn
  simp only [await, hf]
  exact hq

/-- What a host does to the accessors of its chain concerns no question below the top frame. -/
theorem awaits_of_chain (hq : Awaits outer f.node)
    (hk : k ≤ (accessing (outer.map Frame.core)).length)
    (hc : gs.map Frame.core = (f :: outer).map Frame.core)
    (hd : gs.drop (k + 1) = (f :: outer).drop (k + 1)) :
    ∃ f₁ outer₁, gs = f₁ :: outer₁ ∧ f₁.node = f.node ∧
      outer₁.map Frame.core = outer.map Frame.core ∧ Awaits outer₁ f₁.node := by
  obtain ⟨f₁, outer₁, rfl, hf, hcore, hdrop⟩ := frames_of_chain hc hd
  have hnode : f₁.node = f.node := congrArg Prod.fst hf
  exact ⟨f₁, outer₁, rfl, hnode, hcore, hnode ▸ hq.of_drop hcore hk hdrop⟩

/-- A frame that waits for an argument waits for the next one of the accessor reached. -/
theorem attends_ask (hk : r.reach? (m.links.map (·.node)) = some k)
    (hp : m.prepare r k = (as, some n, m₁)) (hf : m₁.frames = f :: outer)
    (hq : Awaits outer f.node) : AttendsAfter (m₁.await (.asking k (r :: rules)) n) := by
  obtain ⟨⟨arity, harity⟩, e, he, hl⟩ := lacks_of_prepare (lt_length_of_reach hk) hp
  have hk₁ : r.reach? (m₁.links.map (·.node)) = some k := by
    have hlinks := (alike_prepare m r k).links_node
    rw [hp] at hlinks
    rw [hlinks, hk]
  rw [map_node_links, hf] at hk₁
  -- Only the phase of the top frame is another one.
  have hclaim : (({ f with phase := .asking k (r :: rules) } : Frame) :: outer).map Frame.claim =
      m₁.frames.map Frame.claim := by
    rw [hf]
    rfl
  refine attends_await hf ⟨fun j rules' hj => ?_, hq⟩
  obtain ⟨rfl, rfl⟩ := Phase.asking.inj hj
  obtain ⟨e', he', hc⟩ := getElem?_of_map hclaim he
  refine ⟨List.cons_ne_nil r rules, arguments_of_reach harity ?_, e', he', hl.of_claim hc⟩
  exact hk₁ ▸ congrArg _ (map_node_accessorChain rfl)

/-- **A host is asked.** -/
theorem attends_consult (hP : Program S) (hS : OfProgram S m.cores) (hf : m.frames = f :: outer)
    (he : Expects (outer.map Frame.core) f.node) (hq : Awaits outer f.node) (x : Node) :
    AttendsAfter (consult x rules m) := by
  induction rules generalizing m f outer with
  | nil => exact attends_finish (m := (m.fault x _).2) hf hq _
  | cons r rules ih =>
    cases hk : r.reach? (m.links.map (·.node)) with
    | none =>
      rw [consult_skip hk]
      exact ih hS hf he hq
    | some k =>
      have hle := le_accessing_of_reach hP hS hf he hk
      have ha₁ := alike_prepare m r k
      obtain ⟨fs, hfs, -, hd₁, -⟩ := frames_prepare m r k
      rcases hp : m.prepare r k with ⟨as, missing, m₁⟩
      rw [hp] at ha₁ hfs
      obtain rfl : m₁.frames = fs := congrArg Machine.frames hfs
      have hc₁ := ha₁.frames
      rw [hf] at hc₁ hd₁
      obtain ⟨f₁, outer₁, hf₁, hn₁, hcore₁, hq₁⟩ := awaits_of_chain hq hle hc₁ hd₁
      cases missing with
      | some n =>
        rw [consult_ask hk hp]
        exact attends_ask hk hp hf₁ hq₁
      | none =>
        have ha₂ := alike_answer m₁ r k as
        have hd₂ := drop_answer (m := m₁) (k := k) r as
        rcases ha : m₁.answer r k as with ⟨w, m₂⟩
        rw [ha] at ha₂ hd₂
        have hc₂ := ha₂.frames
        rw [hf₁] at hc₂ hd₂
        obtain ⟨f₂, outer₂, hf₂, hn₂, hcore₂, hq₂⟩ :=
          awaits_of_chain hq₁ (hcore₁.symm ▸ hle) hc₂ hd₂
        cases w with
        | some w =>
          rw [consult_answer hk hp ha]
          exact attends_finishResolved hf₂ hq₂ w
        | none =>
          rw [consult_pass hk hp ha]
          refine ih ((ha₁.trans ha₂).cores_eq ▸ hS) hf₂ ?_ hq₂
          rw [hcore₂, hcore₁, hn₂, hn₁]
          exact he

/-! ## Steps -/

theorem attends_nextStatement {rest : List Node} (hf : m.frames = f :: outer)
    (hq : Awaits outer f.node) (last : Value) :
    AttendsAfter (m.nextStatement last rest) := by
  cases rest with
  | nil => exact attends_finish hf hq last
  | cons s rest => exact attends_await hf (awaits_cons hq (by simp))

theorem attends_nextArgument {callee : Closure} {done : List Value} {as : List Node}
    (hf : m.frames = f :: outer) (hq : Awaits outer f.node) :
    AttendsAfter (m.nextArgument callee done as) := by
  cases as with
  | nil =>
    exact attends_await (m := { m with cells := activate m.cells callee done }) hf
      (awaits_cons hq (by simp))
  | cons a as => exact attends_await hf (awaits_cons hq (by simp))

theorem attends_call {callee : Closure} (hf : m.frames = f :: outer)
    (hq : Awaits outer f.node) : AttendsAfter (m.call f.node callee) := by
  unfold call
  rw [hf]
  exact attends_nextArgument rfl (awaits_cons hq (by simp))

theorem attends_enter {x : Node} (h : Awaits m.frames x) : AttendsAfter (m.enter x) := by
  have he := enter_entering m x
  generalize m.enter x = s at he
  cases he with
  | push =>
    split <;>
      exact fun φ' hn => Option.some.inj hn ▸ ⟨x, awaits_cons h (by simp)⟩
  | _ => exact fun φ' hn => Option.some.inj hn ▸ ⟨x, h⟩

theorem attends_begin (hP : Program S) (hS : OfProgram S m.cores) (hf : m.frames = f :: outer)
    (he : Expects (outer.map Frame.core) f.node) (hq : Awaits outer f.node) :
    AttendsAfter (m.begin f.node) := by
  have hb := begin_beginning m f.node
  generalize m.begin f.node = s at hb
  cases hb with
  | await hw => exact attends_await hf (awaits_cons hq (Waits.ne_asking hw))
  | ask => exact attends_consult hP hS hf he hq _
  | @block t ss locals g outer' hn hf' =>
    rw [hf] at hf'
    cases hf'
    exact attends_nextStatement (m := { m with
      frames := { f with phase := .statement ss } :: outer
      cells := m.cells.registerAll locals }) rfl hq _
  | jump | finish => exact attends_finish hf hq _

/-- One argument more is gathered for the accessor at `k`. -/
def gathering (k : Nat) (v : Value) (fs : List Frame) : List Frame :=
  fs.modify k fun f =>
    { f with gathered := f.gathered.map fun g => { g with values := g.values ++ [v] } }

theorem map_core_gathering (k : Nat) (v : Value) (fs : List Frame) :
    (gathering k v fs).map Frame.core = fs.map Frame.core :=
  map_core_modify (fun f =>
    { f with gathered := f.gathered.map fun g => { g with values := g.values ++ [v] } })
    (fun _ => rfl) k fs

theorem attends_receiveArgument (hP : Program S) (hS : OfProgram S m.cores)
    (hf : m.frames = f :: outer) (hφ : f.phase = .asking k rules) {n' : Node}
    (he : Expects m.cores n') (hq : Awaits m.frames n) (v : Value) :
    AttendsAfter (m.receiveArgument f.node k rules v) := by
  have hcores := cores_of_frames hf
  rw [hcores, hφ] at he
  have hle := he.le_accessing
  rw [hf] at hq
  unfold receiveArgument
  dsimp only
  split
  · have hc : (m.setResult k (m.cells.deref v)).frames.map Frame.core =
        (f :: outer).map Frame.core :=
      (map_core_setResult _ k m.frames).trans (congrArg _ hf)
    have hd := (drop_setResult (m.cells.deref v) k m.frames).trans (congrArg (List.drop (k + 1)) hf)
    obtain ⟨f₁, outer₁, hf₁, -, -, hq₁⟩ := awaits_of_chain hq.2 hle hc hd
    exact attends_finishResolved hf₁ hq₁ _
  · have hc := (map_core_gathering k (m.cells.deref v) m.frames).trans (congrArg _ hf)
    have hd : (gathering k (m.cells.deref v) m.frames).drop (k + 1) = (f :: outer).drop (k + 1) :=
      (List.drop_modify_of_lt _ k (k + 1) m.frames (Nat.lt_succ_self k)).trans (congrArg _ hf)
    obtain ⟨f₁, outer₁, hf₁, hn₁, hcore, hq₁⟩ := awaits_of_chain hq.2 hle hc hd
    refine attends_consult (m := m.addArgument k (m.cells.deref v)) hP
      ((alike_addArgument m k _).cores_eq ▸ hS) hf₁ ?_ hq₁ _
    rw [hcore, hn₁]
    exact he.tail

theorem attends_receive (hP : Program S) (hS : OfProgram S m.cores) (hf : m.frames = f :: outer)
    {n' : Node} (he : Expects m.cores n') (hq : Awaits m.frames n) (v : Value) :
    AttendsAfter (m.receive f v) := by
  have hqo : Awaits outer f.node := by
    rw [hf] at hq
    exact hq.2
  have heo : Expects (outer.map Frame.core) f.node := by
    rw [cores_of_frames hf] at he
    exact he.tail
  have hre := receive_reaction m f v
  generalize m.receive f v = s at hre
  cases hre with
  | pass | abrupt | yield | result | unwrap => exact attends_finish hf hqo _
  | fault culprit message => exact attends_finish (m := (m.fault culprit message).2) hf hqo _
  | @write cell x w => exact attends_finish (m := { m with cells := m.cells.set cell x }) hf hqo _
  | await _ hw => exact attends_await hf (awaits_cons hqo (Waits.ne_asking hw))
  | statement => exact attends_nextStatement hf hqo _
  | call => exact attends_call hf hqo
  | members => exact attends_consult hP hS hf heo hqo _
  | argument => exact attends_nextArgument hf hqo
  | ask hφ => exact attends_receiveArgument hP hS hf hφ he hq v

/-- **A step leaves each frame that asks waiting for the next argument.** -/
theorem Attends.step (hP : Program S) (hS : OfProgram S m.cores) (hp : Poised m φ)
    (h : Attends m φ) (hn : (m.step φ).2.next? = some φ') : Attends (m.step φ).1 φ' := by
  cases φ with
  | enter x => exact attends_enter h φ' hn
  | begin =>
    obtain ⟨n, hq⟩ := h
    rw [Machine.step] at hn ⊢
    split at hn
    · rename_i f outer hf
      rw [hf] at hq
      exact attends_begin hP hS hf (hp.expects hf) hq.2 φ' hn
    · exact Option.some.inj hn ▸ ⟨n, hq⟩
  | give v =>
    obtain ⟨n, hq⟩ := h
    obtain ⟨n', he⟩ := hp
    rw [Machine.step] at hn ⊢
    split at hn
    · rename_i f outer hf
      exact attends_receive hP hS hf he hq v φ' hn
    · simp [Progress.next?] at hn

end Machine

end Steppable
