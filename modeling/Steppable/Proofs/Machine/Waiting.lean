import Steppable.Proofs.Machine.Custody
import Steppable.Proofs.Tree.Within

/-!
# Who waits for whom

At every moment each frame waits for the node of the frame above it, and the top frame for the node
or the value at hand: this is `Expects`, and every step preserves it (`Poised.step`).

In a program an accessor is linked to the frame above it exactly if it waits for what it is applied
to (`isOperandOf_iff`). So the chain of accessors that a host is asked about consists of the top
frame and the frames below it that wait so (`accessorChain_eq`), never of others whose node happens
to have the same identity.
-/

namespace Steppable

/-- Whether a frame in this phase waits for what its accessor is applied to. -/
def Phase.isAccessed : Phase → Bool
  | .accessed => true
  | _ => false

theorem Phase.isAccessed_iff {φ : Phase} : φ.isAccessed = true ↔ φ = .accessed := by
  cases φ <;> simp [isAccessed]

/-- The accessors from the top of a stack that wait for what they are applied to. -/
def accessing (cs : List (Node × Phase)) : List (Node × Phase) :=
  cs.takeWhile (·.2.isAccessed)

theorem length_accessing_le (cs : List (Node × Phase)) : (accessing cs).length ≤ cs.length :=
  (List.takeWhile_sublist _).length_le

/-- The top of the stack waits for `n`, and below it everything waits for what is above. -/
inductive Expects : List (Node × Phase) → Node → Prop
  | root (n : Node) : Expects [] n
  | child {x n : Node} {φ : Phase} {outer : List (Node × Phase)} :
      Waits x φ n → Expects outer x → Expects ((x, φ) :: outer) n
  | statement {t : Tag} {ss rest : List Node} {locals : List Declaration}
      {outer : List (Node × Phase)} (n : Node) :
      Expects outer (.block t ss locals) →
      Expects ((.block t ss locals, .statement rest) :: outer) n
  | activation {x : Node} {outer : List (Node × Phase)} :
      Expects outer x → Expects ((x, .activation) :: outer) x
  | argument {x n : Node} {callee : Closure} {done : List Value} {rest : List Node}
      {outer : List (Node × Phase)} : n ∈ x.arguments → (∀ a ∈ rest, a ∈ x.arguments) →
      Expects outer x → Expects ((x, .argument callee done rest) :: outer) n
  | body {x : Node} {callee : Closure} {outer : List (Node × Phase)} :
      Expects outer x → Expects ((x, .running callee) :: outer) callee.code.body
  | asked {x y n : Node} {k : Nat} {rules : List Host.Rule} {outer : List (Node × Phase)} :
      k ≤ (accessing outer).length → (x :: outer.map (·.1))[k]? = some y → n ∈ y.arguments →
      Expects outer x → Expects ((x, .asking k rules) :: outer) n

variable {x y n l : Node} {φ : Phase} {cs outer : List (Node × Phase)} {k : Nat}

theorem Expects.tail (h : Expects ((x, φ) :: outer) n) : Expects outer x := by
  cases h <;> assumption

theorem Expects.of_inner {f : Frame} {inner below : List Frame}
    (h : Expects ((inner ++ f :: below).map Frame.core) n) :
    Expects (below.map Frame.core) f.node := by
  induction inner generalizing n with
  | nil => exact Expects.tail (φ := f.phase) h
  | cons a inner ih => exact ih (n := a.node) (Expects.tail (φ := a.phase) h)

theorem Expects.left_of_accessed (h : Expects ((x, .accessed) :: outer) n) : x.left? = some n := by
  cases h with
  | child hw => cases hw <;> rfl

/-! ## Links -/

theorem Node.Spine.snoc (h : x.Spine y) (hl : y.left? = some n) : x.Spine n := by
  induction h with
  | refl => exact .left hl (.refl n)
  | left hm _ ih => exact .left hm (ih hl)

/-- The accessors that wait for what they are applied to are applied to one another. -/
theorem Expects.spine (h : Expects outer x) (hk : k ≤ (accessing outer).length)
    (hy : (x :: outer.map (·.1))[k]? = some y) : y.Spine x := by
  induction k generalizing outer x with
  | zero =>
    obtain rfl := Option.some.inj hy
    exact .refl x
  | succ k ih =>
    cases outer with
    | nil => simp [accessing] at hk
    | cons c outer =>
      obtain ⟨z, φ⟩ := c
      by_cases hφ : φ.isAccessed = true
      · obtain rfl := Phase.isAccessed_iff.1 hφ
        have hk' : k ≤ (accessing outer).length := by
          simpa [accessing, List.takeWhile_cons, Phase.isAccessed] using hk
        exact (ih h.tail hk' (by simpa using hy)).snoc h.left_of_accessed
      · simp [accessing, hφ] at hk

/-- What a frame asks about is linked to it by accessors that wait for what they are applied to. -/
theorem Expects.le_accessing {rules : List Host.Rule}
    (h : Expects ((x, .asking k rules) :: outer) n) : k ≤ (accessing outer).length := by
  cases h with
  | child hw => cases hw
  | asked hk => exact hk

/-- The nodes of a stack and the functions that run on it belong to a program. -/
def OfProgram (S : Node → Prop) (cs : List (Node × Phase)) : Prop :=
  ∀ c ∈ cs, S c.1 ∧ ∀ callee, c.2 = .running callee → ∃ t, S (.function t callee.code)

theorem OfProgram.tail {S : Node → Prop} {c : Node × Phase} (h : OfProgram S (c :: cs)) :
    OfProgram S cs :=
  fun d hd => h d (List.mem_cons_of_mem c hd)

theorem OfProgram.of_getElem {S : Node → Prop} (hx : S x) (h : OfProgram S outer)
    (hy : (x :: outer.map (·.1))[k]? = some y) : S y := by
  have hm := List.mem_of_getElem? hy
  rcases List.mem_cons.1 hm with rfl | hm
  · exact hx
  · obtain ⟨c, hc, rfl⟩ := List.mem_map.1 hm
    exact (h c hc).1

/-- **Links are never accidental.** The node that a frame waits for has the identity of what the
accessor of the frame is applied to exactly if that is what the frame waits for. -/
theorem Expects.left_iff {S : Node → Prop} (hP : Program S) (hS : OfProgram S ((x, φ) :: outer))
    (h : Expects ((x, φ) :: outer) n) :
    (∃ l, x.left? = some l ∧ l.id = n.id) ↔ φ.isAccessed = true := by
  have hx : S x := (hS (x, φ) (by simp)).1
  cases h with
  | child hw => cases hw <;> simp [Node.left?, Phase.isAccessed]
  | statement => simp [Node.left?, Phase.isAccessed]
  | activation =>
    simp only [Phase.isAccessed, Bool.false_eq_true, iff_false]
    rintro ⟨l, hl, hid⟩
    exact hP.own hx hl hid
  | argument hn =>
    simp only [Phase.isAccessed, Bool.false_eq_true, iff_false]
    rintro ⟨l, hl, hid⟩
    exact hP.argument hx (.refl x) hl hn hid.symm
  | @body _ callee =>
    simp only [Phase.isAccessed, Bool.false_eq_true, iff_false]
    rintro ⟨l, hl, hid⟩
    obtain ⟨t, ht⟩ := (hS (x, .running callee) (by simp)).2 callee rfl
    exact hP.body hx hl ht hid.symm
  | asked hk hy hn ho =>
    simp only [Phase.isAccessed, Bool.false_eq_true, iff_false]
    rintro ⟨l, hl, hid⟩
    exact hP.argument (hS.tail.of_getElem hx hy) (ho.spine hk hy) hl hn hid.symm

theorem isOperandOf_iff_left {f g : Frame} :
    f.isOperandOf g = true ↔ ∃ l, g.node.left? = some l ∧ l.id = f.node.id := by
  unfold Frame.isOperandOf
  cases g.node.left? <;> simp

/-- A frame is linked to the one above it exactly if it waits for what its accessor is applied to. -/
theorem isOperandOf_iff {S : Node → Prop} (hP : Program S) {f g : Frame} {outer : List Frame}
    (hS : OfProgram S ((g :: outer).map Frame.core))
    (h : Expects ((g :: outer).map Frame.core) f.node) :
    f.isOperandOf g = true ↔ g.phase.isAccessed = true :=
  isOperandOf_iff_left.trans (Expects.left_iff hP hS h)

/-- The links of the top frame are the frames below it that wait for what they are applied to. -/
theorem accessorChain_eq {S : Node → Prop} (hP : Program S) {f : Frame} {outer : List Frame}
    (hS : OfProgram S (outer.map Frame.core)) (h : Expects (outer.map Frame.core) f.node) :
    accessorChain (f :: outer) = f :: outer.takeWhile (·.phase.isAccessed) := by
  induction outer generalizing f with
  | nil => rfl
  | cons g outer ih =>
    have hop : f.isOperandOf g = g.phase.isAccessed := Bool.eq_iff_iff.2 (isOperandOf_iff hP hS h)
    rw [accessorChain, hop, List.takeWhile_cons]
    split
    · rw [ih hS.tail h.tail]
    · rfl

namespace Machine

variable {m m₁ : Machine} {f : Frame} {S : Node → Prop} {v : Value}

/-! ## Nodes and phases of the frames -/

/-- The stack, reduced to nodes and phases. -/
def cores (m : Machine) : List (Node × Phase) :=
  m.frames.map Frame.core

theorem cores_of_frames {fs : List Frame} (h : m.frames = f :: fs) :
    m.cores = (f.node, f.phase) :: fs.map Frame.core := by
  rw [cores, h]
  rfl

theorem frames_of_cores {c : Node × Phase} (h : m.cores = c :: cs) :
    ∃ f fs, m.frames = f :: fs ∧ f.core = c ∧ fs.map Frame.core = cs := by
  unfold cores at h
  cases hf : m.frames with
  | nil => simp [hf] at h
  | cons f fs =>
    rw [hf, List.map_cons] at h
    exact ⟨f, fs, rfl, (List.cons.inj h).1, (List.cons.inj h).2⟩

theorem cores_finish {c : Node × Phase} (h : m.cores = c :: cs) (v : Value) :
    (m.finish v).1.cores = cs := by
  obtain ⟨f, fs, hf, -, hfs⟩ := frames_of_cores h
  simp only [finish, hf]
  exact hfs

theorem cores_await (h : m.cores = (x, φ) :: cs) (ψ : Phase) (n : Node) :
    (m.await ψ n).1.cores = (x, ψ) :: cs := by
  obtain ⟨f, fs, hf, hc, hfs⟩ := frames_of_cores h
  obtain ⟨rfl, -⟩ := Prod.mk.inj hc
  simp only [await, hf]
  rw [← hfs]
  rfl

theorem Alike.cores_eq (h : Alike m m₁) : m₁.cores = m.cores := h.frames

/-- The nodes that a rule sees are those of the top frame and of the accessors below it that wait
for what they are applied to. -/
theorem links_node_eq (hP : Program S) (hS : OfProgram S m.cores) (h : m.cores = (x, φ) :: outer)
    (he : Expects outer x) :
    m.links.map (·.node) = x :: (accessing outer).map (·.1) := by
  obtain ⟨f, fs, hf, hc, rfl⟩ := frames_of_cores h
  obtain ⟨rfl, -⟩ := Prod.mk.inj hc
  rw [h] at hS
  rw [map_node_links, hf, accessorChain_eq hP hS.tail he, accessing, List.takeWhile_map]
  simp [Frame.core, Function.comp_def]

/-- The accessors that a rule passes wait for what they are applied to. -/
theorem le_accessing_of_reach {r : Host.Rule} {fs : List Frame} (hP : Program S)
    (hS : OfProgram S m.cores) (hf : m.frames = f :: fs)
    (he : Expects (fs.map Frame.core) f.node) (hk : r.reach? (m.links.map (·.node)) = some k) :
    k ≤ (accessing (fs.map Frame.core)).length := by
  have h := Host.reach?_lt hk
  rw [links_node_eq hP hS (cores_of_frames hf) he] at h
  simpa using Nat.le_of_lt_succ h

/-! ## What the machine is about to do -/

/-- What the machine is about to do is what its top frame waits for. -/
def Poised (m : Machine) : Focus → Prop
  | .enter n => Expects m.cores n
  | .begin => ∃ x outer, m.cores = (x, .ready) :: outer ∧ Expects outer x
  | .give _ => ∃ n, Expects m.cores n

/-- A step that ends so is followed by what the top frame waits for. -/
def PoisedAfter (r : Machine × Progress) : Prop :=
  ∀ φ', r.2.next? = some φ' → Poised r.1 φ'

theorem poised_running {φ : Focus} (h : Poised m φ) : PoisedAfter (m, .running φ) :=
  fun _ hn => Option.some.inj hn ▸ h

theorem poised_finish (h : m.cores = (x, φ) :: outer) (he : Expects outer x) (v : Value) :
    PoisedAfter (m.finish v) := by
  intro φ' hn
  rw [finish_snd] at hn
  obtain rfl := Option.some.inj hn
  exact ⟨x, (cores_finish h v).symm ▸ he⟩

theorem poised_await {ψ : Phase} (h : m.cores = (x, φ) :: outer)
    (he : Expects ((x, ψ) :: outer) n) : PoisedAfter (m.await ψ n) := by
  intro φ' hn
  rw [await_snd] at hn
  obtain rfl := Option.some.inj hn
  show Expects (m.await ψ n).1.cores n
  rwa [cores_await h ψ n]

theorem poised_consult (hP : Program S) (hS : OfProgram S m.cores)
    (h : m.cores = (x, φ) :: outer) (he : Expects outer x) (n : Node) (rules : List Host.Rule) :
    PoisedAfter (consult n rules m) := by
  obtain ⟨m₁, ha, ⟨w, hc⟩ | ⟨k, rules', a, hc, hk, f, hf, hm⟩⟩ := consult_cases n rules m
  · rw [hc]
    exact poised_finish (ha.cores_eq.trans h) he w
  · rw [hc]
    refine poised_await (ha.cores_eq.trans h) (.asked (y := f.node) ?_ ?_ hm he)
    · rw [links_node_eq hP hS h he] at hk
      simpa using Nat.le_of_lt_succ hk
    · have hy : (m.cores.map (·.1))[k]? = some f.node := by
        rw [cores, List.map_map, List.getElem?_map, hf]
        rfl
      rwa [h] at hy

theorem poised_nextStatement {t : Tag} {ss rest : List Node} {locals : List Declaration}
    (h : m.cores = (.block t ss locals, φ) :: outer) (he : Expects outer (.block t ss locals))
    (last : Value) : PoisedAfter (m.nextStatement last rest) := by
  cases rest with
  | nil => exact poised_finish h he last
  | cons s rest => exact poised_await h (.statement s he)

theorem poised_nextArgument {callee : Closure} {done : List Value} {as : List Node}
    (h : m.cores = (x, φ) :: outer) (he : Expects outer x) (ha : ∀ a ∈ as, a ∈ x.arguments) :
    PoisedAfter (m.nextArgument callee done as) := by
  cases as with
  | nil =>
    exact poised_await (m := { m with cells := activate m.cells callee done }) h (.body he)
  | cons a as =>
    exact poised_await h (.argument (ha a (by simp)) (fun b hb => ha b (by simp [hb])) he)

theorem poised_call {callee : Closure} (h : m.cores = (x, φ) :: outer) (he : Expects outer x) :
    PoisedAfter (m.call x callee) := by
  obtain ⟨f, fs, hf, hc, rfl⟩ := frames_of_cores h
  obtain ⟨rfl, -⟩ := Prod.mk.inj hc
  unfold call
  rw [hf]
  exact poised_nextArgument rfl (.activation he) (fun _ ha => ha)

/-! ## Steps -/

theorem poised_enter (h : Expects m.cores n) : PoisedAfter (m.enter n) := by
  have he := enter_entering m n
  generalize m.enter n = r at he
  cases he with
  | push =>
    split
    · exact fun φ' hn => Option.some.inj hn ▸ ⟨n, m.cores, rfl, h⟩
    · exact poised_running ⟨n, m.cores, rfl, h⟩
  | _ => exact poised_running ⟨n, h⟩

theorem poised_begin (hP : Program S) (hS : OfProgram S m.cores)
    (h : m.cores = (x, .ready) :: outer) (he : Expects outer x) : PoisedAfter (m.begin x) := by
  have hb := begin_beginning m x
  generalize m.begin x = r at hb
  cases hb with
  | await hw => exact poised_await h (.child hw he)
  | ask => exact poised_consult hP hS h he x m.rules
  | @block t ss locals f fs hn hf =>
    subst hn
    obtain ⟨hc, hfs⟩ := List.cons.inj ((cores_of_frames hf).symm.trans h)
    obtain ⟨hn, -⟩ := Prod.mk.inj hc
    have hcores : ∀ s : Cells,
        Machine.cores { m with cells := s, frames := { f with phase := .statement ss } :: fs } =
          (.block t ss locals, .statement ss) :: outer := by
      intro s
      show (f.node, Phase.statement ss) :: fs.map Frame.core = _
      rw [hn, hfs]
    exact poised_nextStatement (hcores _) he .undefined
  | jump | finish => exact poised_finish h he _

theorem poised_receiveArgument (hP : Program S) (hS : OfProgram S m.cores)
    (h : m.cores = (x, φ) :: outer) (he : Expects outer x) (n : Node) (k : Nat)
    (rules : List Host.Rule) (v : Value) : PoisedAfter (m.receiveArgument n k rules v) := by
  unfold receiveArgument
  dsimp only
  split
  · have hc := (alike_setResult m k (m.cells.deref v)).cores_eq.trans h
    unfold finishResolved
    split <;> exact poised_finish hc he _
  · have ha := (alike_addArgument m k (m.cells.deref v)).cores_eq
    exact poised_consult hP (ha ▸ hS) (ha.trans h) he n rules

theorem poised_receive (hP : Program S) (hS : OfProgram S m.cores) {fs : List Frame}
    (hf : m.frames = f :: fs) (h : Expects m.cores n) (v : Value) :
    PoisedAfter (m.receive f v) := by
  have hc := cores_of_frames hf
  rw [hc] at h
  have he := h.tail
  have hr := receive_reaction m f v
  generalize m.receive f v = r at hr
  cases hr with
  | pass | abrupt | yield | result | unwrap => exact poised_finish hc he _
  | fault culprit message =>
    exact poised_finish ((alike_fault m culprit message).cores_eq.trans hc) he _
  | @write cell x w =>
    exact poised_finish (m := { m with cells := m.cells.set cell x }) hc he _
  | await _ hw => exact poised_await hc (.child hw he)
  | statement hφ =>
    rw [hφ] at h
    generalize f.node = x at h hc he
    cases h with
    | child hw => cases hw
    | statement => exact poised_nextStatement hc he _
  | call => exact poised_call hc he
  | members => exact poised_consult hP hS hc he _ _
  | argument hφ =>
    rw [hφ] at h
    generalize f.node = x at h hc he
    cases h with
    | child hw => cases hw
    | argument hn hrest => exact poised_nextArgument hc he hrest
  | ask => exact poised_receiveArgument hP hS hc he _ _ _ v

/-- **Every step is followed by what the top frame waits for.** -/
theorem Poised.step (hP : Program S) {φ φ' : Focus} (hS : OfProgram S m.cores) (h : Poised m φ)
    (hn : (m.step φ).2.next? = some φ') : Poised (m.step φ).1 φ' := by
  cases φ with
  | enter n => exact poised_enter h φ' hn
  | begin =>
    obtain ⟨x, outer, hc, he⟩ := h
    obtain ⟨f, fs, hf, hfc, -⟩ := frames_of_cores hc
    obtain ⟨rfl, -⟩ := Prod.mk.inj hfc
    have hs : m.step .begin = m.begin f.node := by simp [Machine.step, hf]
    rw [hs] at hn ⊢
    exact poised_begin hP hS hc he φ' hn
  | give v =>
    obtain ⟨n, h⟩ := h
    rw [Machine.step] at hn ⊢
    split at hn
    · rename_i f fs hf
      exact poised_receive hP hS hf h v φ' hn
    · simp [Progress.next?] at hn

end Machine

end Steppable
