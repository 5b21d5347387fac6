import Steppable.Proofs.Cells.Content
import Steppable.Proofs.Machine.Restoration
import Steppable.Proofs.Machine.Schedule
import Steppable.Proofs.Tree.Scoped

/-!
# What a machine holds

A machine holds nodes and functions in many places: in cells, in frames and in the value on its way.
A `Custody` says which nodes, which functions and which cells are allowed, and its laws say that the
operations on cells respect this. Then everything that the machine ever holds is allowed
(`Custody.lasting`), as long as the host answers with nothing else.

Two custodies are of use: the functions whose code belongs to a program, and those that besides
refer to captured cells only.
-/

namespace Steppable

/-! ## Values -/

/-- Every function in the value satisfies `k`; that it is a variable is allowed if `ref`. -/
def Value.Kept (ref : Prop) (k : Closure → Prop) : Value → Prop
  | .function f => k f
  | .reference _ => ref
  | .signal _ _ v => v.Kept ref k
  | _ => True

namespace Value

variable {ref : Prop} {k k' : Closure → Prop} {v : Value}

theorem Kept.mono (h : ∀ f, k f → k' f) (hv : v.Kept ref k) : v.Kept ref k' := by
  fun_induction Value.Kept ref k v with
  | case1 f => exact h f hv
  | case2 => exact hv
  | case3 kind n v ih => exact ih hv
  | case4 v => cases v <;> simp_all [Kept]

theorem kept_of_isData (h : v.isData = true) : v.Kept ref k := by
  cases v with
  | function | reference | signal => simp [isData] at h
  | _ => trivial

theorem kept_renewed (hk : ∀ f i, k f → k { f with id := i }) (i : Nat) (h : v.Kept ref k) :
    (v.renewed i).Kept ref k := by
  fun_induction Value.renewed i v with
  | case1 f => exact hk f i h
  | case2 => trivial
  | case3 kind n v ih => exact ih h
  | case4 => exact h

end Value

/-! ## Phases and rules -/

/-- The nodes that a frame in this phase has still to evaluate. -/
def Phase.pending : Phase → List Node
  | .statement rest | .argument _ _ rest => rest
  | _ => []

/-- The rules that a frame in this phase asks. -/
def Phase.rules : Phase → List Host.Rule
  | .asking _ rules => rules
  | _ => []

/-- The value that an answer brings is kept. -/
def Host.Answer.Kept (ref : Prop) (k : Closure → Prop) : Host.Answer → Prop
  | .value v | .anew v => v.Kept ref k
  | _ => True

/-- Where the arguments are kept, so is the answer. -/
def Host.Rule.Faithful (ref : Prop) (k : Closure → Prop) (r : Host.Rule) : Prop :=
  ∀ q record, (∀ a ∈ q.arguments, a.Kept ref k) → (r.handler q record).1.Kept ref k

/-- The members of values bring no function and no variable. -/
theorem Host.faithful_members (ref : Prop) (k : Closure → Prop) (v : Value) :
    ∀ r ∈ Host.members v, r.Faithful ref k := by
  intro r hr q record hq
  have htext : ∀ x as, (Host.numberText x as).Kept ref k := by
    intro x as
    unfold Host.numberText
    cases as with
    | nil => trivial
    | cons a as =>
      dsimp only
      split <;> trivial
  cases v with
  | number x =>
    simp only [Host.members, List.mem_singleton] at hr
    subst hr
    exact htext x q.arguments
  | string s =>
    simp only [Host.members, List.mem_cons, List.not_mem_nil, or_false] at hr
    rcases hr with rfl | rfl | rfl <;> trivial
  | boolean b =>
    simp only [Host.members, List.mem_singleton] at hr
    subst hr
    trivial
  | date ms =>
    simp only [Host.members, List.mem_singleton] at hr
    subst hr
    trivial
  | error e =>
    simp only [Host.members, List.mem_singleton] at hr
    subst hr
    trivial
  | undefined | null | function | signal | reference => simp [Host.members] at hr

/-- The standard names bring no function and no variable. -/
theorem Host.faithful_standard (ref : Prop) (k : Closure → Prop) :
    ∀ r ∈ Host.standard, r.Faithful ref k := by
  intro r hr q record hq
  simp only [Host.standard, List.mem_cons, List.not_mem_nil, or_false] at hr
  rcases hr with rfl | rfl | rfl | rfl
  · trivial
  · trivial
  · trivial
  · show (Host.dateOf q.arguments).Kept ref k
    unfold Host.dateOf
    split <;> trivial

/-! ## Custodies -/

/-- Which nodes, cells, functions and rules a machine may hold, and whether a variable may be stored
as a value. -/
structure Custody where
  nodes : Node → Prop
  cells : Cells → Prop
  functions : Cells → Closure → Prop
  rules : Host.Rule → Prop
  references : Prop

namespace Custody

/-- What may be held with the cells `s` may be held with the cells `s'`. -/
def Leaves (C : Custody) (s s' : Cells) : Prop :=
  C.cells s → C.cells s' ∧ ∀ f, C.functions s f → C.functions s' f

/-- The declaration gets a cell where a node that is allowed is evaluated or called. -/
def Opens (C : Custody) (d : Declaration) : Prop :=
  ∃ n, C.nodes n ∧ d ∈ n.opens

/-- The laws of a custody: it is closed under what an evaluation does. -/
structure Lawful (C : Custody) : Prop where
  children : ∀ {n c : Node}, C.nodes n → c ∈ n.children → C.nodes c
  literal : ∀ {t : Tag} {v : Value}, C.nodes (.constant t v) → v.isData = true
  code : ∀ {s : Cells} {f : Closure}, C.functions s f → ∃ t, C.nodes (.function t f.code)
  renew : ∀ {s : Cells} (f : Closure) (i : Nat), C.functions s f → C.functions s { f with id := i }
  register : ∀ (s : Cells) {d : Declaration}, C.Opens d → C.Leaves s (s.register d).2
  unregister : ∀ (s : Cells) (d : Declaration), C.Leaves s (s.unregister d).2
  set : ∀ (s : Cells) (c : Nat) (v : Value), C.Leaves s (s.set c v)
  capture : ∀ {s : Cells} {d : Declaration} {c : Nat}, s.find? d = some c →
    C.Leaves s (s.capture c)
  push : ∀ {s : Cells} {f : Closure} {p : Declaration × Nat}, C.functions s f → p ∈ f.captures →
    C.Leaves s (s.push p.1 p.2)
  make : ∀ {s s' : Cells} {t : Tag} {code : Lambda} {captures : List (Declaration × Nat)} (i : Nat),
    C.cells s → C.nodes (.function t code) →
    Machine.captureAll s code.free = (.ok captures, s') → C.functions s' ⟨i, code, captures⟩
  faithful : ∀ (s : Cells) {r : Host.Rule}, C.rules r → r.Faithful C.references (C.functions s)
  members : ∀ (v : Value), ∀ r ∈ Host.members v, C.rules r

/-- The value may be stored. -/
def Keeps (C : Custody) (s : Cells) (v : Value) : Prop :=
  v.Kept C.references (C.functions s)

/-- The cells are allowed and what they hold may be stored. -/
def Stores (C : Custody) (s : Cells) : Prop :=
  C.cells s ∧ ∀ c, C.Keeps s (s.get c)

/-- What the frame holds is allowed. -/
structure Frames (C : Custody) (s : Cells) (f : Frame) : Prop where
  node : C.nodes f.node
  values : ∀ v ∈ f.phase.values, C.Keeps s v
  pending : ∀ n ∈ f.phase.pending, C.nodes n
  rules : ∀ r ∈ f.phase.rules, C.rules r
  result : ∀ v ∈ f.result, C.Keeps s v
  gathered : ∀ g ∈ f.gathered, ∀ v ∈ g.values, C.Keeps s v

/-- What the machine holds is allowed. -/
structure Machines (C : Custody) (m : Machine) : Prop where
  cells : C.Stores m.cells
  frames : ∀ f ∈ m.frames, C.Frames m.cells f
  result : ∀ v ∈ m.result, C.Keeps m.cells v
  host : ∀ r ∈ m.host, C.rules r

/-- The value on its way may be stored, or is a variable. -/
def Gives (C : Custody) (s : Cells) (v : Value) : Prop :=
  C.Keeps s v ∨ ∃ c, v = .reference c

/-- What the machine does next concerns only what is allowed. -/
def Foci (C : Custody) (s : Cells) : Focus → Prop
  | .enter n => C.nodes n
  | .begin => True
  | .give v => C.Gives s v

/-- **Everything at hand is allowed.** -/
def Holds (C : Custody) (m : Machine) (φ : Focus) : Prop :=
  C.Machines m ∧ C.Foci m.cells φ

/-- A step that ends so leaves only what is allowed. -/
def Leads (C : Custody) (x : Machine × Progress) : Prop :=
  C.Machines x.1 ∧ ∀ φ, x.2.next? = some φ → C.Foci x.1.cells φ

/-- A step that ends so leaves only what is allowed, and the value on its way may be stored. -/
def Hands (C : Custody) (x : Machine × Progress) : Prop :=
  C.Leads x ∧ ∀ v, x.2 = .running (.give v) → C.Keeps x.1.cells v

variable {C : Custody} {s s' s'' : Cells} {m : Machine} {f : Frame} {outer : List Frame} {v w : Value}

/-! ## Cells -/

/-- The cells `s'` hold what is allowed if `s` do, and no function is lost on the way. -/
def Turns (C : Custody) (s s' : Cells) : Prop :=
  C.Stores s → C.Stores s' ∧ ∀ f, C.functions s f → C.functions s' f

theorem Turns.refl (s : Cells) : C.Turns s s := fun h => ⟨h, fun _ hf => hf⟩

theorem Turns.trans (h : C.Turns s s') (h' : C.Turns s' s'') : C.Turns s s'' := fun hs =>
  ⟨(h' (h hs).1).1, fun f hf => (h' (h hs).1).2 f ((h hs).2 f hf)⟩

/-- It is enough that every value in a cell was in some cell before or is allowed. -/
theorem Leaves.turns (h : C.Leaves s s')
    (hv : C.Stores s → ∀ c, C.Keeps s (s'.get c)) : C.Turns s s' := fun hs =>
  have h' := h hs.1
  ⟨⟨h'.1, fun c => (hv hs c).mono h'.2⟩, h'.2⟩

theorem turns_register {d : Declaration} (h : C.Leaves s (s.register d).2) :
    C.Turns s (s.register d).2 := by
  refine h.turns fun hs c => ?_
  rw [Cells.get_register]
  split
  · trivial
  · exact hs.2 c

theorem turns_unregister (hC : C.Lawful) (s : Cells) (d : Declaration) :
    C.Turns s (s.unregister d).2 := by
  refine (hC.unregister s d).turns fun hs c => ?_
  rcases Cells.get_unregister s d c with h | h
  · exact h ▸ hs.2 c
  · exact h ▸ trivial

theorem turns_set (hC : C.Lawful) (s : Cells) (c : Nat) (hv : C.Gives s v) :
    C.Turns s (s.set c v) := by
  refine (hC.set s c v).turns fun hs c' => ?_
  rw [Cells.get_set]
  split
  · rcases hv with hv | ⟨i, rfl⟩
    · cases v with
      | reference i => exact hs.2 i
      | _ => exact hv
    · exact hs.2 i
  · exact hs.2 c'

theorem turns_capture (hC : C.Lawful) {d : Declaration} {c : Nat} (h : s.find? d = some c) :
    C.Turns s (s.capture c) :=
  (hC.capture h).turns fun hs c' => (Cells.get_capture s c c').symm ▸ hs.2 c'

theorem turns_captureAll (hC : C.Lawful) (s : Cells) (ds : List Declaration) :
    C.Turns s (Machine.captureAll s ds).2 := by
  induction ds generalizing s with
  | nil => exact .refl s
  | cons d ds ih =>
    rw [Machine.captureAll]
    split
    · exact .refl s
    · rename_i c hc
      have h := (turns_capture hC hc).trans (ih (s.capture c))
      split
      · rename_i captures s₁ hs
        rwa [hs] at h
      · rename_i e s₁ hs
        rwa [hs] at h

theorem turns_registerAll (hC : C.Lawful) (s : Cells) {ds : List Declaration}
    (hd : ∀ d ∈ ds, C.Opens d) : C.Turns s (s.registerAll ds) := by
  induction ds generalizing s with
  | nil => exact .refl s
  | cons d ds ih =>
    exact (turns_register (hC.register s (hd d (by simp)))).trans
      (ih _ fun e he => hd e (by simp [he]))

theorem turns_unregisterAll (hC : C.Lawful) (s : Cells) (ds : List Declaration) :
    C.Turns s (s.unregisterAll ds) := by
  unfold Cells.unregisterAll
  induction ds.reverse generalizing s with
  | nil => exact .refl s
  | cons d ds ih => exact (turns_unregister hC s d).trans (ih _)

theorem turns_leave (hC : C.Lawful) (s : Cells) (f : Frame) : C.Turns s (s.leave f) :=
  turns_unregisterAll hC s f.ownVariables

theorem turns_unwind (hC : C.Lawful) (s : Cells) (fs : List Frame) : C.Turns s (s.unwind fs) := by
  induction fs generalizing s with
  | nil => exact .refl s
  | cons f fs ih => exact (turns_leave hC s f).trans (ih _)

theorem turns_bindParams (hC : C.Lawful) (s : Cells) {ds : List Declaration} (vs : List Value)
    (hd : ∀ d ∈ ds, C.Opens d) (hv : ∀ v ∈ vs, C.Keeps s v) :
    C.Turns s (Machine.bindParams s ds vs) := by
  induction ds generalizing s vs with
  | nil => exact .refl s
  | cons d ds ih =>
    rw [Machine.bindParams]
    intro hs
    -- The arguments are still allowed after each parameter has got its cell.
    obtain ⟨hs₁, hf₁⟩ := turns_register (hC.register s (hd d (by simp))) hs
    have hv₁ : ∀ v ∈ vs, C.Keeps (s.register d).2 v := fun v hm => (hv v hm).mono hf₁
    have hhead : C.Gives (s.register d).2 (vs.headD .undefined) := by
      cases vs with
      | nil => exact .inl trivial
      | cons v vs => exact .inl (hv₁ v (by simp))
    obtain ⟨hs₂, hf₂⟩ := turns_set hC _ (s.register d).1 hhead hs₁
    obtain ⟨hs₃, hf₃⟩ := ih _ vs.tail (fun e he => hd e (by simp [he]))
      (fun v hm => (hv₁ v (List.mem_of_mem_tail hm)).mono hf₂) hs₂
    exact ⟨hs₃, fun f hf => hf₃ f (hf₂ f (hf₁ f hf))⟩

theorem turns_pushAll (hC : C.Lawful) {callee : Closure} (s : Cells)
    (cs : List (Declaration × Nat)) (hcs : ∀ p ∈ cs, p ∈ callee.captures)
    (hf : C.functions s callee) :
    C.Turns s (cs.foldl (fun s (d, cell) => s.push d cell) s) := by
  induction cs generalizing s with
  | nil => exact .refl s
  | cons p cs ih =>
    intro hs
    have hpush : C.Turns s (s.push p.1 p.2) :=
      (hC.push hf (hcs p (by simp))).turns fun hs c => hs.2 c
    obtain ⟨hs₁, hf₁⟩ := hpush hs
    obtain ⟨hs₂, hf₂⟩ := ih _ (fun q hq => hcs q (by simp [hq])) (hf₁ _ hf) hs₁
    exact ⟨hs₂, fun g hg => hf₂ g (hf₁ g hg)⟩

theorem turns_activate (hC : C.Lawful) {callee : Closure} (vs : List Value)
    (hf : C.functions s callee) (hv : ∀ v ∈ vs, C.Keeps s v) :
    C.Turns s (Machine.activate s callee vs) := by
  intro hs
  obtain ⟨hs₁, hf₁⟩ := turns_pushAll hC s callee.captures (fun _ h => h) hf hs
  obtain ⟨t, ht⟩ := hC.code hf
  obtain ⟨hs₂, hf₂⟩ := turns_bindParams hC _ vs (fun d hd => ⟨_, ht, hd⟩)
    (fun v hm => (hv v hm).mono hf₁) hs₁
  exact ⟨hs₂, fun g hg => hf₂ g (hf₁ g hg)⟩

/-! ## Frames -/

theorem Gives.mono (hf : ∀ f, C.functions s f → C.functions s' f) (h : C.Gives s v) :
    C.Gives s' v :=
  h.imp (fun hk => Value.Kept.mono hf hk) id

theorem Frames.mono (hf : ∀ f, C.functions s f → C.functions s' f) (h : C.Frames s f) :
    C.Frames s' f :=
  ⟨h.node, fun v hv => (h.values v hv).mono hf, h.pending, h.rules,
    fun v hv => (h.result v hv).mono hf, fun g hg v hv => (h.gathered g hg v hv).mono hf⟩

/-- A frame with a node only holds nothing else. -/
theorem frames_ready {n : Node} (h : C.nodes n) : C.Frames s { node := n } :=
  ⟨h, by simp [Phase.values], by simp [Phase.pending], by simp [Phase.rules], by simp, by simp⟩

/-- The machine with other cells. -/
theorem Machines.turn (h : C.Machines m) (ht : C.Turns m.cells s') :
    C.Machines { m with cells := s' } ∧ ∀ f, C.functions m.cells f → C.functions s' f :=
  have h' := ht h.cells
  ⟨⟨h'.1, fun f hf => (h.frames f hf).mono h'.2, fun v hv => (h.result v hv).mono h'.2, h.host⟩,
    h'.2⟩

/-- The machine with other frames. -/
theorem Machines.reframe (h : C.Machines m) {fs : List Frame}
    (hf : ∀ f ∈ fs, C.Frames m.cells f) : C.Machines { m with frames := fs } :=
  ⟨h.cells, hf, h.result, h.host⟩

theorem Machines.top (h : C.Machines m) (hf : m.frames = f :: outer) : C.Frames m.cells f :=
  h.frames f (by simp [hf])

theorem Machines.deref (h : C.Machines m) (hv : C.Gives m.cells v) :
    C.Keeps m.cells (m.cells.deref v) := by
  cases v with
  | reference c => exact h.cells.2 c
  | _ =>
    rcases hv with hv | ⟨c, hc⟩
    · exact hv
    · cases hc

/-! ## Moving on -/

theorem leads_running {φ : Focus} (h : C.Machines m) (hφ : C.Foci m.cells φ) :
    C.Leads (m, .running φ) :=
  ⟨h, fun _ hn => Option.some.inj hn ▸ hφ⟩

theorem machines_fault (h : C.Machines m) (culprit : Node) (message : String) :
    C.Machines (m.fault culprit message).2 :=
  ⟨h.cells, h.frames, h.result, h.host⟩

theorem leads_finish (hC : C.Lawful) (h : C.Machines m) (hv : C.Gives m.cells v) :
    C.Leads (m.finish v) := by
  unfold Machine.finish
  split
  · exact leads_running h hv
  · rename_i f outer hf
    obtain ⟨hm, hk⟩ := h.turn (turns_leave hC m.cells f)
    refine leads_running (hm.reframe fun g hg => hm.frames g ?_) (hv.mono hk)
    rw [show ({ m with cells := m.cells.leave f } : Machine).frames = f :: outer from hf]
    exact List.mem_cons_of_mem f hg

theorem hands_finish (hC : C.Lawful) (h : C.Machines m) (hv : C.Keeps m.cells v) :
    C.Hands (m.finish v) := by
  refine ⟨leads_finish hC h (.inl hv), fun w hw => ?_⟩
  obtain rfl : v = w := by simpa using hw
  unfold Machine.finish
  split
  · exact hv
  · rename_i f outer hf
    exact hv.mono (turns_leave hC m.cells f h.cells).2

theorem hands_finishFault (hC : C.Lawful) (h : C.Machines m) (culprit : Node) (message : String) :
    C.Hands (m.finishFault culprit message) :=
  hands_finish hC (machines_fault h culprit message) trivial

theorem hands_await {φ : Phase} {n : Node} (h : C.Machines m)
    (hv : ∀ v ∈ φ.values, C.Keeps m.cells v) (hp : ∀ n ∈ φ.pending, C.nodes n)
    (hr : ∀ r ∈ φ.rules, C.rules r) (hn : C.nodes n) : C.Hands (m.await φ n) := by
  refine ⟨?_, by simp⟩
  unfold Machine.await
  split
  · exact leads_running h hn
  · rename_i f outer hf
    have htop := h.top hf
    refine leads_running (h.reframe fun g hg => ?_) hn
    rcases List.mem_cons.1 hg with rfl | hg
    · exact ⟨htop.node, hv, hp, hr, htop.result, htop.gathered⟩
    · exact h.frames g (by simp [hf, hg])

/-- To wait for a child keeps nothing but values at hand. -/
theorem hands_waits (hC : C.Lawful) {φ : Phase} {n c : Node} (h : C.Machines m)
    (hw : Waits n φ c) (hn : C.nodes n) (hv : ∀ v ∈ φ.values, C.Keeps m.cells v) :
    C.Hands (m.await φ c) := by
  have hp : φ.pending = [] := by cases hw <;> rfl
  have hr : φ.rules = [] := by cases hw <;> rfl
  exact hands_await h hv (by simp [hp]) (by simp [hr]) (hC.children hn hw.mem_children)

/-! ## Asking a host -/

theorem mem_spreadResult {v : Value} {o g : Frame} {fs : List Frame}
    (h : g ∈ spreadResult v o fs) : ∃ f ∈ fs, g = f ∨ g = { f with result := some v } := by
  induction fs generalizing o with
  | nil => simp [spreadResult] at h
  | cons f fs ih =>
    rw [spreadResult] at h
    split at h
    · rcases List.mem_cons.1 h with rfl | h
      · exact ⟨f, by simp, .inr rfl⟩
      · obtain ⟨e, he, hg⟩ := ih h
        exact ⟨e, by simp [he], hg⟩
    · exact ⟨g, h, .inl rfl⟩

theorem mem_setResult {v : Value} {k : Nat} {g : Frame} {fs : List Frame}
    (h : g ∈ setResult v k fs) : ∃ f ∈ fs, g = f ∨ g = { f with result := some v } := by
  unfold setResult at h
  split at h
  · exact ⟨g, h, .inl rfl⟩
  · rename_i f outer hd
    have hmem : ∀ e ∈ f :: outer, e ∈ fs := fun e he => List.mem_of_mem_drop (hd ▸ he)
    rcases List.mem_append.1 h with h | h
    · obtain ⟨e, he, hg⟩ := mem_spreadResult (List.mem_reverse.1 h)
      exact ⟨e, List.mem_of_mem_take (List.mem_reverse.1 he), hg⟩
    · rcases List.mem_cons.1 h with rfl | h
      · exact ⟨f, hmem f (by simp), .inr rfl⟩
      · exact ⟨g, hmem g (by simp [h]), .inl rfl⟩

theorem machines_setResult (h : C.Machines m) (k : Nat) (hv : C.Keeps m.cells v) :
    C.Machines (m.setResult k v) := by
  refine h.reframe fun g hg => ?_
  obtain ⟨f, hf, rfl | rfl⟩ := mem_setResult hg
  · exact h.frames g hf
  · have := h.frames f hf
    exact ⟨this.node, this.values, this.pending, this.rules,
      fun w hw => Option.mem_some_iff.1 hw ▸ hv, this.gathered⟩

theorem machines_setFault (h : C.Machines m) (k : Nat) (message : String) :
    C.Machines (m.setFault k message).2 ∧ C.Keeps m.cells (m.setFault k message).1 := by
  unfold Machine.setFault
  split
  · exact ⟨machines_setResult (machines_fault h _ message) k trivial, trivial⟩
  · exact ⟨h, trivial⟩

theorem machines_addArgument (h : C.Machines m) (k : Nat) (hv : C.Keeps m.cells v) :
    C.Machines (m.addArgument k v) := by
  refine h.reframe fun g hg => ?_
  obtain ⟨i, hi⟩ := List.mem_iff_getElem?.1 hg
  rw [List.getElem?_modify] at hi
  obtain ⟨f, hf, rfl⟩ := Option.map_eq_some_iff.1 hi
  have := h.frames f (List.mem_of_getElem? hf)
  split
  · refine ⟨this.node, this.values, this.pending, this.rules, this.result, fun g hg w hw => ?_⟩
    obtain ⟨g, hg', rfl⟩ := Option.map_eq_some_iff.1 hg
    rcases List.mem_append.1 hw with hw | hw
    · exact this.gathered g hg' w hw
    · exact List.mem_singleton.1 hw ▸ hv
  · exact this

theorem machines_gather (h : C.Machines m) (k arity : Nat) :
    C.Machines (m.gather k arity).2.2 ∧ (∀ v ∈ (m.gather k arity).1, C.Keeps m.cells v) ∧
      ((m.gather k arity).2.2).cells = m.cells := by
  unfold Machine.gather
  split
  · exact ⟨h, by simp, rfl⟩
  · rename_i f hf
    have hk := h.frames f (List.mem_of_getElem? hf)
    have hg : ∀ v ∈ (f.gatheredFor arity).values, C.Keeps m.cells v := by
      intro v hv
      unfold Frame.gatheredFor at hv
      cases hgs : f.gathered with
      | none => simp [hgs] at hv
      | some g => exact hk.gathered g hgs v (by simpa [hgs] using hv)
    refine ⟨h.reframe fun g hm => ?_, hg, rfl⟩
    rcases List.mem_or_eq_of_mem_set hm with hm | rfl
    · exact h.frames g hm
    · exact ⟨hk.node, hk.values, hk.pending, hk.rules, hk.result,
        fun g' hg' v hv => hg v (Option.mem_some_iff.1 hg' ▸ hv)⟩

theorem machines_prepare (h : C.Machines m) (r : Host.Rule) (k : Nat) :
    C.Machines (m.prepare r k).2.2 ∧ (∀ v ∈ (m.prepare r k).1, C.Keeps m.cells v) ∧
      ((m.prepare r k).2.2).cells = m.cells := by
  unfold Machine.prepare
  split
  · exact machines_gather h k _
  · exact ⟨h, by simp, rfl⟩

theorem nodes_arguments (hC : C.Lawful) {n : Node} (h : C.nodes n) :
    ∀ a ∈ n.arguments, C.nodes a := by
  intro a ha
  refine hC.children h ?_
  cases n <;> simp_all [Node.arguments, Node.children]

theorem machines_answer (hC : C.Lawful) (h : C.Machines m) {r : Host.Rule} (hr : C.rules r)
    (k : Nat) {as : List Value} (has : ∀ a ∈ as, C.Keeps m.cells a) :
    C.Machines (m.answer r k as).2 ∧ (m.answer r k as).2.cells = m.cells ∧
      ∀ w ∈ (m.answer r k as).1, C.Keeps m.cells w := by
  have hm (record : Host.Record) (calls : List Host.Call) (next : Nat) :
      C.Machines { m with record, calls, next } := ⟨h.cells, h.frames, h.result, h.host⟩
  have ha := hC.faithful m.cells hr ⟨as, m.links.take (k + 1)⟩ m.record has
  unfold Machine.answer
  dsimp only
  split
  · rename_i v hv
    rw [hv] at ha
    exact ⟨machines_setResult (hm _ _ m.next) k ha, rfl, fun w hw => Option.mem_some_iff.1 hw ▸ ha⟩
  · rename_i v hv
    rw [hv] at ha
    have hv' : C.Keeps m.cells (v.renewed m.next) :=
      Value.kept_renewed (fun f i hf => hC.renew f i hf) m.next ha
    exact ⟨machines_setResult (hm _ _ (m.next + 1)) k hv', rfl,
      fun w hw => Option.mem_some_iff.1 hw ▸ hv'⟩
  · rename_i message _
    have hf := machines_setFault (hm (r.handler ⟨as, m.links.take (k + 1)⟩ m.record).2
      (⟨r, ⟨as, m.links.take (k + 1)⟩⟩ :: m.calls) m.next) k message
    exact ⟨hf.1, (Machine.alike_setFault _ k message).cells,
      fun w hw => Option.mem_some_iff.1 hw ▸ hf.2⟩
  · rename_i message _
    have hf := machines_setFault (hm (r.handler ⟨as, m.links.take (k + 1)⟩ m.record).2
      (⟨r, ⟨as, m.links.take (k + 1)⟩⟩ :: m.calls) m.next) k message
    exact ⟨hf.1, (Machine.alike_setFault _ k message).cells, by simp⟩
  · exact ⟨hm _ _ m.next, rfl, by simp⟩

theorem hands_finishResolved (hC : C.Lawful) (h : C.Machines m) (hv : C.Keeps m.cells v) :
    C.Hands (m.finishResolved v) := by
  unfold Machine.finishResolved
  split
  · rename_i f outer hf
    refine hands_finish hC h ?_
    cases hr : f.result with
    | none => exact hv
    | some w => exact (h.top hf).result w hr
  · exact hands_finish hC h hv

theorem hands_consult (hC : C.Lawful) (n : Node) {rules : List Host.Rule}
    (hr : ∀ r ∈ rules, C.rules r) (h : C.Machines m) : C.Hands (Machine.consult n rules m) := by
  induction rules generalizing m with
  | nil => exact hands_finishFault hC h n _
  | cons r rules ih =>
    have hrules : ∀ r ∈ rules, C.rules r := fun q hq => hr q (by simp [hq])
    cases hk : r.reach? (m.links.map (·.node)) with
    | none =>
      rw [Machine.consult_skip hk]
      exact ih hrules h
    | some k =>
      obtain ⟨h₁, has, hcells⟩ := machines_prepare h r k
      rcases hp : m.prepare r k with ⟨as, missing, m₁⟩
      rw [hp] at h₁ has hcells
      cases missing with
      | some a =>
        obtain ⟨f, hf, ha⟩ := Machine.mem_arguments_of_prepare hp
        have hnode := nodes_arguments hC (h.frames f (List.mem_of_getElem? hf)).node a ha
        rw [Machine.consult_ask hk hp]
        exact hands_await h₁ (by simp [Phase.values]) (by simp [Phase.pending]) hr hnode
      | none =>
        obtain ⟨h₂, hcells₂, hw⟩ := machines_answer hC h₁ (hr r (by simp)) k (hcells ▸ has)
        rcases ha : m₁.answer r k as with ⟨w, m₂⟩
        rw [ha] at h₂ hcells₂ hw
        cases w with
        | some w =>
          rw [Machine.consult_answer hk hp ha]
          exact hands_finishResolved hC h₂ (hcells₂ ▸ hw w rfl)
        | none =>
          rw [Machine.consult_pass hk hp ha]
          exact ih hrules h₂

/-! ## Steps -/

theorem hands_nextStatement (hC : C.Lawful) (h : C.Machines m) (hv : C.Keeps m.cells v)
    {ss : List Node} (hs : ∀ n ∈ ss, C.nodes n) : C.Hands (m.nextStatement v ss) := by
  cases ss with
  | nil => exact hands_finish hC h hv
  | cons n rest =>
    exact hands_await h (by simp [Phase.values]) (fun c hc => hs c (List.mem_cons_of_mem n hc))
      (by simp [Phase.rules]) (hs n (by simp))

theorem hands_nextArgument (hC : C.Lawful) (h : C.Machines m) {callee : Closure} {done : List Value}
    {as : List Node} (hf : C.functions m.cells callee) (hd : ∀ v ∈ done, C.Keeps m.cells v)
    (ha : ∀ n ∈ as, C.nodes n) : C.Hands (m.nextArgument callee done as) := by
  cases as with
  | cons n rest =>
    refine hands_await h (fun v hv => ?_) (fun c hc => ha c (List.mem_cons_of_mem n hc))
      (by simp [Phase.rules]) (ha n (by simp))
    rcases List.mem_cons.1 hv with rfl | hv
    · exact hf
    · exact hd v hv
  | nil =>
    obtain ⟨hm, hk⟩ := h.turn (turns_activate hC done hf hd)
    obtain ⟨t, ht⟩ := hC.code hf
    refine hands_await hm (fun v hv => ?_) (by simp [Phase.pending]) (by simp [Phase.rules])
      (hC.children ht (by simp [Node.children]))
    obtain rfl := List.mem_singleton.1 hv
    exact hk callee hf

theorem hands_call (hC : C.Lawful) (h : C.Machines m) {n : Node} {callee : Closure}
    (hf : C.functions m.cells callee) (hn : C.nodes n) : C.Hands (m.call n callee) := by
  unfold Machine.call
  cases hfr : m.frames with
  | nil =>
    have hm : C.Machines { m with frames := [{ node := n }] } := by
      refine h.reframe fun g hg => ?_
      obtain rfl := List.mem_singleton.1 hg
      exact frames_ready hn
    exact hands_nextArgument hC hm hf (by simp) (nodes_arguments hC hn)
  | cons f outer =>
    have hm : C.Machines
        { m with frames := { node := n } :: { f with phase := .activation } :: outer } := by
      refine h.reframe fun g hg => ?_
      rcases List.mem_cons.1 hg with rfl | hg
      · exact frames_ready hn
      rcases List.mem_cons.1 hg with rfl | hg
      · have := h.top hfr
        exact ⟨this.node, by simp [Phase.values], by simp [Phase.pending], by simp [Phase.rules],
          this.result, this.gathered⟩
      · exact h.frames g (by simp [hfr, hg])
    exact hands_nextArgument hC hm hf (by simp) (nodes_arguments hC hn)

theorem leads_enter (hC : C.Lawful) (h : C.Machines m) {n : Node} (hn : C.nodes n) :
    C.Leads (m.enter n) := by
  have he := Machine.enter_entering m n
  generalize m.enter n = x at he
  cases he with
  | constant hc =>
    subst hc
    exact leads_running h (.inl (Value.kept_of_isData (hC.literal hn)))
  | nothing => exact leads_running h (.inl trivial)
  | fault message => exact leads_running (machines_fault h n message) (.inl trivial)
  | reference => exact leads_running h (.inr ⟨_, rfl⟩)
  | @function t code captures cells hf hc =>
    subst hf
    have ht := turns_captureAll hC m.cells code.free
    have hmake := hC.make m.next h.cells.1 hn hc
    rw [hc] at ht
    obtain ⟨hm, hk⟩ := h.turn ht
    exact leads_running (m := { m with cells, next := m.next + 1 })
      ⟨hm.cells, hm.frames, hm.result, hm.host⟩ (.inl hmake)
  | @named t code captures cells d cell hf hc hd hcell =>
    subst hf
    have ht := turns_captureAll hC m.cells code.free
    have hmake := hC.make m.next h.cells.1 hn hc
    rw [hc] at ht
    obtain ⟨hm, hk⟩ := h.turn ht
    obtain ⟨hm', hk'⟩ := hm.turn (turns_set hC cells cell
      (v := .function ⟨m.next, code, captures⟩) (.inl hmake))
    exact leads_running
      (m := { m with
        cells := cells.set cell (.function ⟨m.next, code, captures⟩), next := m.next + 1 })
      ⟨hm'.cells, hm'.frames, hm'.result, hm'.host⟩ (.inl (hk' _ hmake))
  | unbound code next message =>
    obtain ⟨hm, -⟩ := h.turn (turns_captureAll hC m.cells code.free)
    exact leads_running (m := (Machine.fault { m with
        cells := (Machine.captureAll m.cells code.free).2, next } n message).2)
      ⟨hm.cells, hm.frames, hm.result, hm.host⟩ (.inl trivial)
  | push =>
    have hm : C.Machines { m with frames := { node := n } :: m.frames } := by
      refine h.reframe fun g hg => ?_
      rcases List.mem_cons.1 hg with rfl | hg
      · exact frames_ready hn
      · exact h.frames g hg
    split
    · exact ⟨⟨hm.cells, hm.frames, hm.result, hm.host⟩, fun φ hφ => Option.some.inj hφ ▸ trivial⟩
    · exact leads_running hm trivial

theorem hands_begin (hC : C.Lawful) (h : C.Machines m) (hf : m.frames = f :: outer) :
    C.Hands (m.begin f.node) := by
  have hn := (h.top hf).node
  have hb := Machine.begin_beginning m f.node
  generalize m.begin f.node = x at hb
  cases hb with
  | await hw hv => exact hands_waits hC h hw hn (by simp [hv])
  | ask => exact hands_consult hC f.node (Machine.forall_rules h.host) h
  | @block t ss locals g outer' hb hf' =>
    rw [hb] at hn
    have hss : ∀ s ∈ ss, C.nodes s := fun s hs => hC.children hn hs
    obtain ⟨hm, -⟩ := h.turn (turns_registerAll hC m.cells fun d hd => ⟨_, hn, hd⟩)
    have hg : C.Frames (m.cells.registerAll locals) g := hm.frames g (by simp [hf'])
    have hm' : C.Machines { m with
        frames := { g with phase := .statement ss } :: outer'
        cells := m.cells.registerAll locals } := by
      refine hm.reframe fun e he => ?_
      rcases List.mem_cons.1 he with rfl | he
      · exact ⟨hg.node, by simp [Phase.values], hss, by simp [Phase.rules], hg.result, hg.gathered⟩
      · exact hm.frames e (by simp [hf', he])
    exact hands_nextStatement hC hm' (v := .undefined) trivial hss
  | jump => exact hands_finish hC h (v := .signal _ _ .undefined) trivial
  | finish hw => exact hands_finish hC h (Value.kept_of_isData hw)

theorem hands_receiveArgument (hC : C.Lawful) (h : C.Machines m) (n : Node) (k : Nat)
    {rules : List Host.Rule} (hr : ∀ r ∈ rules, C.rules r) (hv : C.Gives m.cells v) :
    C.Hands (m.receiveArgument n k rules v) := by
  have hp := h.deref hv
  unfold Machine.receiveArgument
  dsimp only
  split
  · exact hands_finishResolved hC (machines_setResult h k hp) hp
  · exact hands_consult hC n hr (machines_addArgument h k hp)

/-- A value that arrives is used up, or it is passed on by a frame without variables. -/
theorem hands_receive (hC : C.Lawful) (h : C.Machines m) (hf : m.frames = f :: outer)
    (hv : C.Gives m.cells v) :
    C.Hands (m.receive f v) ∨
      (f.phase.isBare = true ∨ v.isAbrupt = true) ∧ m.receive f v = m.finish v := by
  have htop := h.top hf
  have hp := h.deref hv
  have hre := Machine.receive_reaction m f v
  generalize m.receive f v = x at hre
  cases hre with
  | pass hb => exact .inr ⟨.inl hb, rfl⟩
  | abrupt ha => exact .inr ⟨.inr ha, rfl⟩
  | @yield w hw =>
    left
    rcases hw with rfl | ⟨rfl, -⟩ | hw
    · exact hands_finish hC h hp
    · exact hands_finish hC h hp
    · exact hands_finish hC h (Value.kept_of_isData hw)
  | result _ hw => exact .inl (hands_finish hC h (htop.result _ hw))
  | unwrap _ hw =>
    subst hw
    refine .inl (hands_finish hC h ?_)
    rcases hv with hv | ⟨c, hc⟩
    · exact hv
    · cases hc
  | fault culprit message => exact .inl (hands_finishFault hC h culprit message)
  | @write cell x w _ _ hx hw =>
    have hgive : ∀ y, y = m.cells.deref v ∨ y.isData = true → C.Keeps m.cells y := by
      rintro y (rfl | hy)
      · exact hp
      · exact Value.kept_of_isData hy
    obtain ⟨hm, hk⟩ := h.turn (turns_set hC m.cells cell (.inl (hgive x hx)))
    exact .inl (hands_finish hC hm ((hgive w hw).mono hk))
  | await _ hw hvs => exact .inl (hands_waits hC h hw htop.node fun w hm => hvs w hm ▸ hp)
  | statement hφ =>
    have hpend := htop.pending
    rw [hφ] at hpend
    exact .inl (hands_nextStatement hC h hp hpend)
  | call _ _ hn hc =>
    rw [hc] at hp
    exact .inl (hands_call hC h hp htop.node)
  | members =>
    exact .inl (hands_consult hC f.node (hC.members _) h)
  | @argument callee done rest hφ =>
    have hvals := htop.values
    have hpend := htop.pending
    rw [hφ] at hvals hpend
    have hcallee : C.functions m.cells callee :=
      hvals (.function callee) (by simp [Phase.values])
    refine .inl (hands_nextArgument hC h hcallee (fun w hw => ?_) hpend)
    rcases List.mem_append.1 hw with hw | hw
    · exact hvals w (by simp [Phase.values, hw])
    · exact List.mem_singleton.1 hw ▸ hp
  | ask hφ =>
    have hrules := htop.rules
    rw [hφ] at hrules
    exact .inl (hands_receiveArgument hC h f.node _ hrules hv)

theorem leads_receive (hC : C.Lawful) (h : C.Machines m) (hf : m.frames = f :: outer)
    (hv : C.Gives m.cells v) : C.Leads (m.receive f v) := by
  rcases hands_receive hC h hf hv with hh | ⟨-, he⟩
  · exact hh.1
  · rw [he]
    exact leads_finish hC h hv

/-- **What a step leaves is allowed.** -/
theorem leads_step (hC : C.Lawful) {φ : Focus} (h : C.Holds m φ) : C.Leads (m.step φ) := by
  cases φ with
  | enter n => exact leads_enter hC h.1 h.2
  | begin =>
    rw [Machine.step]
    split
    · rename_i f outer hf
      exact (hands_begin hC h.1 hf).1
    · exact leads_running h.1 (.inl trivial)
  | give v =>
    rw [Machine.step]
    split
    · rename_i f outer hf
      exact leads_receive hC h.1 hf h.2
    · exact ⟨h.1, by simp [Progress.next?]⟩

/-! ## Evaluations -/

theorem hands_takeUp (hC : C.Lawful) (h : C.Machines m) (hf : m.frames = f :: outer) :
    C.Hands (m.takeUp f) := by
  unfold Machine.takeUp
  split
  · rename_i w hw
    exact hands_finish hC h ((h.top hf).result w hw)
  · exact hands_consult hC f.node (Machine.forall_rules h.host) h
  · exact ⟨leads_running h trivial, by simp⟩

/-- A frame that is taken up and does not end changes no cell. -/
theorem cells_takeUp (m : Machine) (f : Frame) :
    (∃ v, (m.takeUp f).2 = .running (.give v)) ∨ (m.takeUp f).1.cells = m.cells := by
  rcases Machine.takeUp_cases m f with ⟨v, h⟩ | ⟨-, h⟩ | h
  · exact .inl ⟨v, by rw [h, Machine.finish_snd]⟩
  · obtain ⟨m₁, ha, ⟨w, hc⟩ | ⟨k, rules, a, hc, -⟩⟩ := Machine.consult_cases f.node m.rules m
    · exact .inl ⟨w, by rw [h, hc, Machine.finish_snd]⟩
    · right
      rw [h, hc, ← ha.cells, Machine.await]
      split <;> rfl
  · exact .inr (by rw [h])

theorem hands_takeUpAll (hC : C.Lawful) (inner : List Frame) (h : C.Machines m)
    (hi : ∀ f ∈ inner, C.Frames m.cells f) :
    C.Machines (Machine.takeUpAll inner m).1 ∧
      ((Machine.takeUpAll inner m).2 = .begin ∨
        ∃ v, (Machine.takeUpAll inner m).2 = .give v ∧
          C.Keeps (Machine.takeUpAll inner m).1.cells v) := by
  induction inner generalizing m with
  | nil => exact ⟨h, .inl rfl⟩
  | cons f inner ih =>
    have hm : C.Machines { m with frames := f :: m.frames } := by
      refine h.reframe fun g hg => ?_
      rcases List.mem_cons.1 hg with rfl | hg
      · exact hi g (by simp)
      · exact h.frames g hg
    have hl := hands_takeUp hC hm rfl
    rcases Machine.takeUpAll_cons f inner m with ⟨v, m₁, ht, hall⟩ | ⟨hne, hall⟩
    · rw [hall]
      rw [ht] at hl
      obtain ⟨hm₁, hk⟩ := hl.1.1.turn (turns_unwind hC m₁.cells inner.reverse)
      exact ⟨hm₁, .inr ⟨v, rfl, (hl.2 v rfl).mono hk⟩⟩
    · rw [hall]
      refine ih hl.1.1 fun g hg => ?_
      rcases cells_takeUp { m with frames := f :: m.frames } f with ⟨v, hv⟩ | hc
      · exact (hne v hv).elim
      · rw [hc]
        exact hi g (List.mem_cons_of_mem f hg)

/-- A value with which an evaluation is taken up may be stored. -/
theorem hands_resumption (hC : C.Lawful) (h : C.Machines m) :
    C.Machines m.resumption.1 ∧
      (m.resumption.2 = .begin ∨
        ∃ v, m.resumption.2 = .give v ∧ C.Keeps m.resumption.1.cells v) :=
  hands_takeUpAll hC m.frames.reverse (m := { m with frames := [] }) (h.reframe (by simp))
    fun f hf => h.frames f (List.mem_reverse.1 hf)

/-- **Everything that a machine comes to hold is allowed**, however it is stopped and resumed. -/
theorem lasting (hC : C.Lawful) : Machine.Lasting C.Holds where
  step m φ φ' h hn := ⟨(leads_step hC h).1, (leads_step hC h).2 φ' hn⟩
  resumption m h := by
    obtain ⟨hm, hφ⟩ := hands_resumption hC h.1
    refine ⟨hm, ?_⟩
    rcases hφ with hφ | ⟨v, hφ, hv⟩
    · rw [hφ]
      trivial
    · rw [hφ]
      exact .inl hv
  stops m φ b stopNext h := ⟨⟨h.1.cells, h.1.frames, h.1.result, h.1.host⟩, h.2⟩

theorem machines_settle (h : C.Holds m (.give w)) : C.Machines (m.settle w).2 := by
  obtain ⟨hm, hw⟩ := h
  have hresult : ∀ (m' : Machine) (v : Value), C.Machines m' → C.Keeps m'.cells v →
      C.Machines { m' with result := some v } := fun m' v h hv =>
    ⟨h.cells, h.frames, fun u hu => Option.mem_some_iff.1 hu ▸ hv, h.host⟩
  have hp := hm.deref hw
  unfold Machine.settle
  cases w with
  | signal kind culprit v =>
    cases kind with
    | «return» => exact hresult m v hm hp
    | «break» => exact hresult _ _ (machines_fault hm culprit _) trivial
    | «continue» => exact hresult _ _ (machines_fault hm culprit _) trivial
  | _ => exact hresult m _ hm hp

theorem machines_new (hc : C.cells {}) {host : Host} (hh : ∀ r ∈ host, C.rules r)
    (next : Nat) : C.Machines { host, next } :=
  ⟨⟨hc, fun _ => trivial⟩, by simp, by simp, hh⟩

theorem machines_reset (hC : C.Lawful) (h : C.Machines m) : C.Machines m.reset := by
  obtain ⟨hm, -⟩ := h.turn (turns_unwind hC m.cells m.frames)
  exact ⟨hm.cells, by simp [Machine.reset], hm.result, hm.host⟩

theorem machines_declareGlobals (h : C.Machines m)
    (hd : ∀ (s : Cells) (d : Declaration), C.Leaves s (s.register d).2) (ds : List Declaration) :
    C.Machines (m.declareGlobals ds) := by
  induction ds generalizing m with
  | nil => exact h
  | cons d ds ih =>
    refine ih (m := if m.globals.contains d.id then m
      else { m with globals := d.id :: m.globals, cells := (m.cells.register d).2 }) ?_
    split
    · exact h
    · obtain ⟨hm, -⟩ := h.turn (turns_register (hd m.cells d))
      exact ⟨hm.cells, hm.frames, hm.result, hm.host⟩

/-- What one custody allows, another one does that allows at least the same nodes, functions and
rules. -/
theorem Machines.move {C' : Custody} (h : C.Machines m) (hs : C'.cells s)
    (hget : ∀ c, s.get c = m.cells.get c ∨ s.get c = .undefined)
    (hnodes : ∀ n, C.nodes n → C'.nodes n) (hk : ∀ f, C.functions m.cells f → C'.functions s f)
    (hrules : ∀ r, C.rules r → C'.rules r) (href : C'.references = C.references) :
    C'.Machines { m with cells := s } := by
  have hkeeps : ∀ v, C.Keeps m.cells v → C'.Keeps s v := by
    intro v hv
    rw [Keeps, href]
    exact hv.mono hk
  refine ⟨⟨hs, fun c => ?_⟩, fun f hf => ?_, fun v hv => hkeeps v (h.result v hv),
    fun r hr => hrules r (h.host r hr)⟩
  · rcases hget c with hc | hc
    · exact hc ▸ hkeeps _ (h.cells.2 c)
    · exact hc ▸ trivial
  · have hf := h.frames f hf
    exact ⟨hnodes _ hf.node, fun v hv => hkeeps v (hf.values v hv),
      fun n hn => hnodes n (hf.pending n hn), fun r hr => hrules r (hf.rules r hr),
      fun v hv => hkeeps v (hf.result v hv), fun g hg v hv => hkeeps v (hf.gathered g hg v hv)⟩

end Custody

end Steppable
