import Steppable.Machine.Run
import Steppable.Proofs.Machine.Path

/-!
# What a step can do

A step enters a node, begins the node of the top frame or gives a value to it. However many kinds of
nodes there are, the top frame can only begin to wait for a child, go on to the next one, write to a
cell, ask a host, call a function or end; `Beginning` and `Reaction` list these possibilities with
what is known in each. Every law about all steps is proved by going through them, and only
`begin_beginning` and `receive_reaction` look at the kinds of nodes.
-/

namespace Steppable

/-! ## Phases and values -/

/-- Whether a frame in this phase has no variables of its own. -/
def Phase.isBare : Phase → Bool
  | .statement _ | .running _ => false
  | _ => true

theorem Frame.ownVariables_of_isBare {f : Frame} (h : f.phase.isBare = true) :
    f.ownVariables = [] := by
  obtain ⟨n, φ, r, g⟩ := f
  cases φ <;> first | rfl | simp [Phase.isBare] at h

/-- The values that a frame keeps in this phase. -/
def Phase.values : Phase → List Value
  | .rightOperand l => [l]
  | .argument callee done _ => .function callee :: done
  | .running callee => [.function callee]
  | _ => []

/-- What a frame is about: its node and what it waits for. -/
def Frame.core (f : Frame) : Node × Phase :=
  (f.node, f.phase)

theorem map_core_modify (g : Frame → Frame) (hg : ∀ f, (g f).core = f.core) (k : Nat)
    (fs : List Frame) : (fs.modify k g).map Frame.core = fs.map Frame.core := by
  induction fs generalizing k with
  | nil => cases k <;> rfl
  | cons f fs ih =>
    cases k with
    | zero => simp [hg]
    | succ k => simp [ih]

theorem map_set_of_eq {α : Type} {p : Frame → α} {fs : List Frame} {k : Nat} {f g : Frame}
    (hf : fs[k]? = some f) (hg : p g = p f) : (fs.set k g).map p = fs.map p := by
  rw [List.map_set, hg]
  refine List.ext_getElem? fun i => ?_
  rw [List.getElem?_set]
  split
  · rename_i h
    subst h
    split
    · simp [hf]
    · rename_i h
      rw [List.getElem?_eq_none (by simpa using h)]
  · rfl

theorem map_core_set {fs : List Frame} {k : Nat} {f g : Frame} (hf : fs[k]? = some f)
    (hg : g.core = f.core) : (fs.set k g).map Frame.core = fs.map Frame.core :=
  map_set_of_eq hf hg

/-- To give results to frames changes nothing that does not depend on them. -/
theorem map_spreadResult {α : Type} {g : Frame → α}
    (hg : ∀ f v, g { f with result := some v } = g f) (v : Value) (outer : Frame)
    (fs : List Frame) : (spreadResult v outer fs).map g = fs.map g := by
  induction fs generalizing outer with
  | nil => rfl
  | cons f fs ih =>
    rw [spreadResult]
    split
    · simp [ih f, hg]
    · rfl

theorem map_setResult {α : Type} {g : Frame → α}
    (hg : ∀ f v, g { f with result := some v } = g f) (v : Value) (k : Nat) (fs : List Frame) :
    (setResult v k fs).map g = fs.map g := by
  unfold setResult
  split
  · rfl
  · rename_i f outer h
    have hsplit : fs = (fs.take k) ++ f :: outer := by rw [← h, List.take_append_drop]
    rw [List.map_append, List.map_reverse, map_spreadResult hg, List.map_reverse,
      List.reverse_reverse]
    have hmap := congrArg (List.map g) hsplit
    rw [hmap]
    simp [hg]

theorem map_core_spreadResult (v : Value) (outer : Frame) (fs : List Frame) :
    (spreadResult v outer fs).map Frame.core = fs.map Frame.core :=
  map_spreadResult (fun _ _ => rfl) v outer fs

theorem map_core_setResult (v : Value) (k : Nat) (fs : List Frame) :
    (setResult v k fs).map Frame.core = fs.map Frame.core :=
  map_setResult (fun _ _ => rfl) v k fs

/-- A result is given to no frame outside of the one reached. -/
theorem drop_setResult (v : Value) (k : Nat) (fs : List Frame) :
    (setResult v k fs).drop (k + 1) = fs.drop (k + 1) := by
  unfold setResult
  split
  · rfl
  · rename_i f outer h
    have hlt : k < fs.length := by
      apply Nat.lt_of_not_le
      intro hle
      simp [List.drop_eq_nil_of_le hle] at h
    have hlen : (spreadResult v f (fs.take k).reverse).reverse.length = k := by
      have := congrArg List.length (map_core_spreadResult v f (fs.take k).reverse)
      simp only [List.length_map, List.length_reverse, List.length_take] at this ⊢
      omega
    rw [List.drop_append, hlen, List.drop_eq_nil_of_le (by omega), show k + 1 - k = 1 by omega,
      ← List.drop_drop, h]
    rfl

/-- Whether a value stands for itself: it has nothing to do with any cell, function or error, and is
not on its way out. -/
def Value.isData : Value → Bool
  | .undefined | .null | .boolean _ | .number _ | .string _ | .date _ => true
  | _ => false

/-- `n` in phase `φ` waits for its child `c`. Calls and blocks, whose children are lists, and what a
host asks for are not listed here. -/
inductive Waits : Node → Phase → Node → Prop
  | left (t op l r) : Waits (.binary t op l r) .leftOperand l
  | right (t op l r v) : Waits (.binary t op l r) (.rightOperand v) r
  | unary (t op n) : Waits (.unary t op n) .operand n
  | adjust (t a n) : Waits (.adjust t a n) .operand n
  | giveBack (t n) : Waits (.giveBack t n) .operand n
  | target (t l r) : Waits (.assign t l r) .target l
  | assigned (t l r c) : Waits (.assign t l r) (.assigned c) r
  | choice (t b c x y) : Waits (.choice t b c x y) .condition c
  | whenTrue (t b c x y) : Waits (.choice t b c x y) .branch x
  | whenFalse (t b c x y) : Waits (.choice t b c x y) .branch y
  | guard (t c b) : Waits (.guarded t c b) .condition c
  | guarded (t c b) : Waits (.guarded t c b) .branch b
  | again (t x c b) : Waits (.loop t x c b) .condition c
  | body (t x c b) : Waits (.loop t x c b) .body b
  | member (t l s) : Waits (.member t l s) .accessed l
  | index (t l i) : Waits (.index t l i) .accessed l
  | call (t l as) : Waits (.call t l as) .accessed l

theorem Waits.isBare {n c : Node} {φ : Phase} (h : Waits n φ c) : φ.isBare = true := by
  cases h <;> rfl

theorem Waits.mem_children {n c : Node} {φ : Phase} (h : Waits n φ c) : c ∈ n.children := by
  cases h <;> simp [Node.children]

/-! ## Chains of accessors -/

theorem Host.Ending.reach?_lt {e : Host.Ending} {chain : List Node} {k : Nat}
    (h : e.reach? chain = some k) : k < chain.length := by
  cases chain with
  | nil => simp [Host.Ending.reach?] at h
  | cons n outer =>
    simp only [Host.Ending.reach?] at h
    rw [List.length_cons]
    split at h
    · cases h
      exact Nat.succ_pos _
    · cases h
      exact Nat.succ_pos _
    · split at h
      · cases h
        exact Nat.succ_pos _
      · cases h
    · cases h
      exact Nat.succ_pos _
    · split at h
      · cases h
        exact Nat.lt_succ_self _
      · cases h
    · cases h

/-- A rule reaches no further than the chain. -/
theorem Host.reach?_lt {e : Host.Ending} {path : List String} {chain : List Node} {k : Nat}
    (h : Host.reach? e path chain = some k) : k < chain.length := by
  induction path generalizing chain k with
  | nil => exact Host.Ending.reach?_lt h
  | cons s path ih =>
    cases chain with
    | nil => simp [Host.reach?] at h
    | cons n outer =>
      rw [Host.reach?] at h
      split at h
      · obtain ⟨j, hj, rfl⟩ := Option.map_eq_some_iff.1 h
        simpa using ih hj
      · simp at h

/-- What is linked depends on the nodes of the frames only. -/
theorem map_node_accessorChain {fs gs : List Frame} (h : fs.map Frame.node = gs.map Frame.node) :
    (accessorChain fs).map Frame.node = (accessorChain gs).map Frame.node := by
  induction fs generalizing gs with
  | nil =>
    cases gs with
    | nil => rfl
    | cons g gs => simp at h
  | cons f fs ih =>
    cases gs with
    | nil => simp at h
    | cons g gs =>
      obtain ⟨hfg, h⟩ := List.cons.inj h
      cases fs with
      | nil =>
        cases gs with
        | nil => simp [accessorChain, hfg]
        | cons g' gs => simp at h
      | cons f' fs =>
        cases gs with
        | nil => simp at h
        | cons g' gs =>
          have hop : f.isOperandOf f' = g.isOperandOf g' := by
            unfold Frame.isOperandOf
            rw [hfg, (List.cons.inj h).1]
          rw [accessorChain, accessorChain, hop]
          split
          · rw [List.map_cons, List.map_cons, hfg, ih h]
          · simp [hfg]

theorem map_node_of_core {fs gs : List Frame} (h : fs.map Frame.core = gs.map Frame.core) :
    fs.map Frame.node = gs.map Frame.node := by
  have := congrArg (List.map Prod.fst) h
  rwa [List.map_map, List.map_map] at this

namespace Machine

/-! ## Where steps lead -/

@[simp]
theorem finish_snd (m : Machine) (v : Value) : (m.finish v).2 = .running (.give v) := by
  unfold finish
  split <;> rfl

@[simp]
theorem await_snd (m : Machine) (φ : Phase) (n : Node) :
    (m.await φ n).2 = .running (.enter n) := by
  unfold await
  split <;> rfl

/-! ## Entering a node -/

/-- What entering the node `n` can do. -/
inductive Entering (m : Machine) (n : Node) : Machine × Progress → Prop
  | constant {t : Tag} {v : Value} : n = .constant t v → Entering m n (m.give v)
  | nothing : Entering m n (m.give .undefined)
  | fault (message : String) :
      Entering m n ((m.fault n message).2.give (m.fault n message).1)
  | reference {d : Declaration} {cell : Nat} : m.cells.find? d = some cell →
      Entering m n (m.give (.reference cell))
  | function {t : Tag} {code : Lambda} {captures : List (Declaration × Nat)} {cells : Cells} :
      n = .function t code → captureAll m.cells code.free = (.ok captures, cells) →
      Entering m n ({ m with cells, next := m.next + 1 }.give (.function ⟨m.next, code, captures⟩))
  | named {t : Tag} {code : Lambda} {captures : List (Declaration × Nat)} {cells : Cells}
      {d : Declaration} {cell : Nat} : n = .function t code →
      captureAll m.cells code.free = (.ok captures, cells) → code.name = some d →
      cells.find? d = some cell →
      Entering m n ({ m with
        cells := cells.set cell (.function ⟨m.next, code, captures⟩)
        next := m.next + 1 }.give (.function ⟨m.next, code, captures⟩))
  | unbound (code : Lambda) (next : Nat) (message : String) :
      Entering m n ((fault { m with cells := (captureAll m.cells code.free).2, next }
        n message).2.give (fault { m with cells := (captureAll m.cells code.free).2, next }
        n message).1)
  | push : m.frames.length < maxFrames →
      Entering m n (if n.isBreakable && (m.stopNext || m.breakpoints.stopsAt n) then
        ({ m with frames := { node := n } :: m.frames, stopNext := false }, .suspended)
      else ({ m with frames := { node := n } :: m.frames }, .running .begin))

theorem push_entering (m : Machine) (n : Node) : Entering m n (m.push n) := by
  unfold push
  split
  · exact .fault tooDeep
  · rename_i h
    exact .push (Nat.lt_of_not_le h)

theorem giveVariable_entering (m : Machine) (n : Node) (d : Declaration) :
    Entering m n (m.giveVariable n d) := by
  unfold giveVariable
  split
  · rename_i cell h
    exact .reference h
  · exact .fault (unregistered d)

theorem giveFunction_entering (m : Machine) (t : Tag) (code : Lambda) :
    Entering m (.function t code) (m.giveFunction (.function t code) code) := by
  unfold giveFunction
  split
  · rename_i d cells h
    have := Entering.unbound (m := m) (n := .function t code) code m.next (unregistered d)
    rwa [h] at this
  · rename_i captures cells h
    dsimp only
    split
    · exact .function rfl h
    · rename_i d hd
      split
      · rename_i cell hcell
        exact .named rfl h hd hcell
      · have := Entering.unbound (m := m) (n := .function t code) code (m.next + 1)
          (unregistered d)
        rwa [h] at this

theorem enter_entering (m : Machine) (n : Node) : Entering m n (m.enter n) := by
  cases n with
  | constant t v => exact .constant rfl
  | nop t => exact .nothing
  | invalid t message => exact .fault message
  | declare t d => exact giveVariable_entering m _ d
  | var t d => exact giveVariable_entering m _ d
  | function t code => exact giveFunction_entering m t code
  | _ => exact push_entering m _

/-! ## Beginning a node -/

/-- What beginning the node `n` of the top frame can do. -/
inductive Beginning (m : Machine) (n : Node) : Machine × Progress → Prop
  | await {φ : Phase} {c : Node} : Waits n φ c → φ.values = [] → (∀ cell, φ ≠ .assigned cell) →
      Beginning m n (m.await φ c)
  | ask {t : Tag} {s : String} : n = .name t s → Beginning m n (consult n m.rules m)
  | block {t : Tag} {ss : List Node} {locals : List Declaration} {f : Frame} {outer : List Frame} :
      n = .block t ss locals → m.frames = f :: outer →
      Beginning m n ({ m with
        frames := { f with phase := .statement ss } :: outer
        cells := m.cells.registerAll locals }.nextStatement .undefined ss)
  | jump {t : Tag} {k : Jump} : n = .jump t k →
      Beginning m n (m.finish (.signal k n .undefined))
  | finish {w : Value} : w.isData = true → Beginning m n (m.finish w)

theorem begin_beginning (m : Machine) (n : Node) : Beginning m n (m.begin n) := by
  cases n with
  | binary t op l r => exact .await (.left t op l r) rfl (by simp)
  | unary t op n => exact .await (.unary t op n) rfl (by simp)
  | adjust t a n => exact .await (.adjust t a n) rfl (by simp)
  | giveBack t n => exact .await (.giveBack t n) rfl (by simp)
  | member t l s => exact .await (.member t l s) rfl (by simp)
  | index t l i => exact .await (.index t l i) rfl (by simp)
  | call t l as => exact .await (.call t l as) rfl (by simp)
  | name t s => exact .ask rfl
  | assign t l r => exact .await (.target t l r) rfl (by simp)
  | choice t b c x y => exact .await (.choice t b c x y) rfl (by simp)
  | guarded t c b => exact .await (.guard t c b) rfl (by simp)
  | loop t x c b =>
    cases x with
    | true => exact .await (.body t true c b) rfl (by simp)
    | false => exact .await (.again t false c b) rfl (by simp)
  | block t ss locals =>
    simp only [begin]
    split
    · rename_i f outer h
      exact .block rfl h
    · exact .finish rfl
  | jump t k => exact .jump rfl
  | constant | declare | var | function | nop | invalid => exact .finish rfl

/-! ## Giving a value to a frame -/

/-- What the value `v` can do when it arrives at the top frame `f`. -/
inductive Reaction (m : Machine) (f : Frame) (v : Value) : Machine × Progress → Prop
  | pass : f.phase.isBare = true → Reaction m f v (m.finish v)
  | abrupt : v.isAbrupt = true → Reaction m f v (m.finish v)
  | yield {w : Value} :
      w = m.cells.deref v ∨
        (w = .signal .return f.node (m.cells.deref v) ∧ v.isAbrupt = false) ∨ w.isData = true →
      Reaction m f v (m.finish w)
  | result {w : Value} : f.phase = .accessed → f.result = some w → Reaction m f v (m.finish w)
  | unwrap {callee : Closure} {culprit : Node} {w : Value} : f.phase = .running callee →
      v = .signal .return culprit w → Reaction m f v (m.finish w)
  | fault (culprit : Node) (message : String) : Reaction m f v (m.finishFault culprit message)
  | write {cell : Nat} {x w : Value} :
      f.phase.isBare = true → f.phase = .assigned cell ∨ v = .reference cell →
      x = m.cells.deref v ∨ x.isData = true → w = m.cells.deref v ∨ w.isData = true →
      v.isAbrupt = false → Reaction m f v ({ m with cells := m.cells.set cell x }.finish w)
  | await {φ : Phase} {c : Node} : f.phase.isBare = true → Waits f.node φ c →
      (∀ w ∈ φ.values, w = m.cells.deref v) → (∀ cell, φ = .assigned cell → v = .reference cell) →
      φ.values = [] ∨ v.isAbrupt = false → Reaction m f v (m.await φ c)
  | statement {rest : List Node} : f.phase = .statement rest → v.isAbrupt = false →
      Reaction m f v (m.nextStatement (m.cells.deref v) rest)
  | call {t : Tag} {l : Node} {as : List Node} {callee : Closure} :
      f.phase = .accessed → f.result = none → f.node = .call t l as →
      m.cells.deref v = .function callee → Reaction m f v (m.call f.node callee)
  | members : f.phase = .accessed → f.result = none → v.isAbrupt = false →
      Reaction m f v (consult f.node (Host.members (m.cells.deref v)) m)
  | argument {callee : Closure} {done : List Value} {rest : List Node} :
      f.phase = .argument callee done rest → v.isAbrupt = false →
      Reaction m f v (m.nextArgument callee (done ++ [m.cells.deref v]) rest)
  | ask {distance : Nat} {rules : List Host.Rule} : f.phase = .asking distance rules →
      Reaction m f v (m.receiveArgument f.node distance rules v)

theorem isData_shift (op : BitVec 64 → Nat → Int) (l r : Value) : (shift op l r).isData = true := by
  unfold shift
  dsimp only
  split
  · rfl
  · split
    · rfl
    · split <;> rfl

theorem isData_modulo (x y : Float) : (modulo x y).isData = true := by
  unfold modulo
  split
  · rfl
  · split <;> rfl

theorem isData_plus (l r : Value) : (plus l r).isData = true := by
  unfold plus
  split <;> rfl

theorem isData_apply_arith (op : Arith) (l r : Value) : (op.apply l r).isData = true := by
  cases op with
  | plus => exact isData_plus l r
  | modulo => exact isData_modulo l.toNumber r.toNumber
  | shiftLeft => exact isData_shift (fun w n => (w <<< n).toInt) l r
  | shiftRight => exact isData_shift (fun w n => (w.sshiftRight n).toInt) l r
  | shiftRightUnsigned => exact isData_shift (fun w n => (w >>> n).toNat) l r
  | minus | times | divide | bitAnd | bitOr | bitXor => rfl

/-- The result of an operator is no function and no variable. -/
theorem isData_of_apply_binary {op : BinaryOp} {l r w : Value} (h : op.apply l r = .ok w) :
    w.isData = true := by
  cases op with
  | arith op =>
    obtain rfl := Except.ok.inj h
    exact isData_apply_arith op l r
  | comparison op =>
    cases op with
    | instanceOf => simp [BinaryOp.apply, Comparison.apply] at h
    | equal | different | strictEqual | strictDifferent | less | greater | lessOrEqual
    | greaterOrEqual =>
      obtain rfl := Except.ok.inj h
      rfl
  | connective op => simp [BinaryOp.apply] at h

theorem isData_of_apply_unary {op : UnaryOp} {v w : Value} (h : op.apply v = .ok w) :
    w.isData = true := by
  cases op with
  | delete | new => simp [UnaryOp.apply] at h
  | minus | plus | not | bitNot | typeOf | void =>
    obtain rfl := Except.ok.inj h
    rfl

/-- An operator gives a plain value or fails. -/
theorem finishOperation_reaction (m : Machine) (f : Frame) (v : Value) (n : Node)
    {r : Except String Value} (h : ∀ w, r = .ok w → w.isData = true) :
    Reaction m f v (m.finishOperation n r) := by
  cases r with
  | ok w => exact .yield (.inr (.inr (h w rfl)))
  | error message => exact .fault n message

theorem receivePlain_reaction (m : Machine) (f : Frame) (v : Value) (h : v.isAbrupt = false)
    (hr : ∀ callee, f.phase ≠ .running callee) : Reaction m f v (m.receivePlain f v) := by
  unfold receivePlain
  dsimp only
  split
  · rename_i t l r hφ hn
    split
    · exact .await (by rw [hφ]; rfl) (hn ▸ .right t _ l r _) (by simp [Phase.values]) (by simp) (.inr h)
    · exact .yield (.inl rfl)
  · rename_i t l r hφ hn
    split
    · exact .yield (.inl rfl)
    · exact .await (by rw [hφ]; rfl) (hn ▸ .right t _ l r _) (by simp [Phase.values]) (by simp) (.inr h)
  · rename_i t op l r _ _ hφ hn
    exact .await (by rw [hφ]; rfl) (hn ▸ .right t op l r _) (by simp [Phase.values]) (by simp) (.inr h)
  · split
    · exact .yield (.inl rfl)
    · exact finishOperation_reaction m f v _ fun w hw => isData_of_apply_binary hw
  · exact finishOperation_reaction m f v _ fun w hw => isData_of_apply_unary hw
  · rename_i n t value hφ hn
    exact .yield (.inr (.inl ⟨by rw [hn], h⟩))
  · rename_i n t a operand hφ hn
    split
    · exact .write (by rw [hφ]; rfl) (.inr rfl) (.inr rfl) (.inr (by split <;> rfl)) h
    · exact .fault _ _
  · rename_i n t target value hφ hn
    split
    · exact .await (by rw [hφ]; rfl) (hn ▸ .assigned t target value _) (by simp [Phase.values])
        (by simp) (.inr h)
    · exact .fault _ _
  · rename_i cell hφ
    exact .write (by rw [hφ]; rfl) (.inl hφ) (.inl rfl) (.inl rfl) h
  · rename_i t x c a b hφ hn
    split
    · exact .await (by rw [hφ]; rfl) (hn ▸ .whenTrue t x c a b) (by simp [Phase.values]) (by simp) (.inr h)
    · exact .await (by rw [hφ]; rfl) (hn ▸ .whenFalse t x c a b) (by simp [Phase.values]) (by simp) (.inr h)
  · rename_i t c b hφ hn
    split
    · exact .await (by rw [hφ]; rfl) (hn ▸ .guarded t c b) (by simp [Phase.values]) (by simp) (.inr h)
    · exact .yield (.inr (.inr rfl))
  · rename_i t x c b hφ hn
    split
    · exact .await (by rw [hφ]; rfl) (hn ▸ .body t x c b) (by simp [Phase.values]) (by simp) (.inr h)
    · exact .yield (.inr (.inr rfl))
  · rename_i rest hφ
    exact .statement hφ h
  · rename_i hφ
    split
    · rename_i w hw
      exact .result hφ hw
    · rename_i hw
      split
      · rename_i hn hp
        exact .call hφ hw hn hp
      · exact .members hφ hw h
  · rename_i callee done rest hφ
    exact .argument hφ h
  · rename_i hs _ _ _ _ _ _ _ _ _ _ _ _ _
    refine .pass ?_
    cases hφ : f.phase with
    | statement rest => exact (hs rest hφ).elim
    | running callee => exact (hr callee hφ).elim
    | _ => rfl

theorem receive_reaction (m : Machine) (f : Frame) (v : Value) : Reaction m f v (m.receive f v) := by
  unfold receive
  split
  · rename_i hφ
    have hb : f.phase.isBare = true := by rw [hφ]; rfl
    unfold receiveBody
    split
    · exact .yield (.inr (.inr rfl))
    · exact .pass hb
    · exact .pass hb
    · rename_i t x c b _ _ _ hn
      exact .await hb (hn ▸ .again t x c b) (by simp [Phase.values]) (by simp) (.inl rfl)
    · exact .pass hb
  · rename_i callee hφ
    unfold receiveReturn
    split
    · exact .unwrap hφ rfl
    · exact .fault _ _
    · exact .abrupt rfl
    · exact .yield (.inr (.inr rfl))
  · rename_i distance rules hφ
    exact .ask hφ
  · rename_i hφ
    exact .pass (by rw [hφ]; rfl)
  · rename_i hφ
    exact .pass (by rw [hφ]; rfl)
  · rename_i hr _ _ _
    split
    · rename_i ha
      exact .abrupt ha
    · rename_i ha
      exact receivePlain_reaction m f v (by simpa using ha) hr

/-! ## Asking a host -/

/-- The two machines differ at most in what a host remembers and has been asked, in the results and
arguments that frames have been given, and in the errors raised. -/
structure Alike (m m' : Machine) : Prop where
  host : m'.host = m.host
  cells : m'.cells = m.cells
  frames : m'.frames.map Frame.core = m.frames.map Frame.core
  breakpoints : m'.breakpoints = m.breakpoints
  stopNext : m'.stopNext = m.stopNext
  result : m'.result = m.result
  globals : m'.globals = m.globals

theorem Alike.refl (m : Machine) : Alike m m := ⟨rfl, rfl, rfl, rfl, rfl, rfl, rfl⟩

theorem Alike.trans {m m₁ m₂ : Machine} (h : Alike m m₁) (h' : Alike m₁ m₂) : Alike m m₂ :=
  ⟨h'.host.trans h.host, h'.cells.trans h.cells, h'.frames.trans h.frames,
    h'.breakpoints.trans h.breakpoints, h'.stopNext.trans h.stopNext, h'.result.trans h.result,
    h'.globals.trans h.globals⟩

theorem Alike.length_frames {m m₁ : Machine} (h : Alike m m₁) :
    m₁.frames.length = m.frames.length := by
  simpa using congrArg List.length h.frames

theorem Alike.ne_nil {m m₁ : Machine} (h : Alike m m₁) (hf : m.frames ≠ []) : m₁.frames ≠ [] := by
  rw [← List.length_pos_iff, h.length_frames]
  exact List.length_pos_iff.2 hf

theorem alike_fault (m : Machine) (culprit : Node) (message : String) :
    Alike m (m.fault culprit message).2 :=
  ⟨rfl, rfl, rfl, rfl, rfl, rfl, rfl⟩

theorem alike_setResult (m : Machine) (distance : Nat) (v : Value) :
    Alike m (m.setResult distance v) :=
  ⟨rfl, rfl, map_core_setResult v distance m.frames, rfl, rfl, rfl, rfl⟩

theorem alike_addArgument (m : Machine) (distance : Nat) (v : Value) :
    Alike m (m.addArgument distance v) := by
  refine ⟨rfl, rfl, ?_, rfl, rfl, rfl, rfl⟩
  exact map_core_modify (fun f =>
    { f with gathered := f.gathered.map fun g => { g with values := g.values ++ [v] } })
    (fun _ => rfl) distance m.frames

theorem alike_setFault (m : Machine) (distance : Nat) (message : String) :
    Alike m (m.setFault distance message).2 := by
  unfold setFault
  split
  · exact (alike_fault m _ message).trans (alike_setResult _ distance _)
  · exact .refl m

theorem alike_gather (m : Machine) (distance arity : Nat) :
    Alike m (m.gather distance arity).2.2 := by
  unfold gather
  split
  · exact .refl m
  · rename_i f hf
    refine ⟨rfl, rfl, ?_, rfl, rfl, rfl, rfl⟩
    exact map_core_set hf rfl

theorem alike_answer (m : Machine) (r : Host.Rule) (distance : Nat) (as : List Value) :
    Alike m (m.answer r distance as).2 := by
  have h (record : Host.Record) (calls : List Host.Call) : Alike m { m with record, calls } :=
    ⟨rfl, rfl, rfl, rfl, rfl, rfl, rfl⟩
  unfold answer
  dsimp only
  split
  · exact (h _ _).trans (alike_setResult _ distance _)
  · exact (h _ _).trans ⟨rfl, rfl, map_core_setResult _ distance m.frames, rfl, rfl, rfl, rfl⟩
  · exact (h _ _).trans (alike_setFault _ distance _)
  · exact (h _ _).trans (alike_setFault _ distance _)
  · exact h _ _

theorem alike_prepare (m : Machine) (r : Host.Rule) (distance : Nat) :
    Alike m (m.prepare r distance).2.2 := by
  unfold prepare
  split
  · exact alike_gather m distance _
  · exact .refl m

/-! A rule that does not reach far enough is skipped; one that does waits for its arguments, answers
or passes. -/

theorem consult_skip {n : Node} {r : Host.Rule} {rules : List Host.Rule} {m : Machine}
    (h : r.reach? (m.links.map (·.node)) = none) : consult n (r :: rules) m = consult n rules m := by
  rw [consult, h]

variable {n a : Node} {r : Host.Rule} {rules : List Host.Rule} {m m₁ m₂ : Machine} {k : Nat}
  {as : List Value} {w : Value}

theorem consult_ask (h : r.reach? (m.links.map (·.node)) = some k)
    (hp : m.prepare r k = (as, some a, m₁)) :
    consult n (r :: rules) m = m₁.await (.asking k (r :: rules)) a := by
  simp only [consult, h, hp]

theorem consult_answer (h : r.reach? (m.links.map (·.node)) = some k)
    (hp : m.prepare r k = (as, none, m₁)) (ha : m₁.answer r k as = (some w, m₂)) :
    consult n (r :: rules) m = m₂.finishResolved w := by
  simp only [consult, h, hp, ha]

theorem consult_pass (h : r.reach? (m.links.map (·.node)) = some k)
    (hp : m.prepare r k = (as, none, m₁)) (ha : m₁.answer r k as = (none, m₂)) :
    consult n (r :: rules) m = consult n rules m₂ := by
  simp only [consult, h, hp, ha]

theorem map_node_links (m : Machine) :
    m.links.map (·.node) = (accessorChain m.frames).map Frame.node := by
  refine List.ext_getElem? fun i => ?_
  rw [links, List.getElem?_map, List.getElem?_mapIdx, List.getElem?_map, Option.map_map]
  rfl

theorem Alike.links_node (h : Alike m m₁) : m₁.links.map (·.node) = m.links.map (·.node) := by
  rw [map_node_links, map_node_links]
  exact map_node_accessorChain (map_node_of_core h.frames)

/-- What is still to be evaluated for a rule is an argument of the accessor reached. -/
theorem mem_arguments_of_prepare (h : m.prepare r k = (as, some a, m₁)) :
    ∃ f, m.frames[k]? = some f ∧ a ∈ f.node.arguments := by
  unfold prepare at h
  split at h
  · unfold gather at h
    split at h
    · simp at h
    · rename_i f hf
      obtain ⟨-, ha⟩ := Prod.mk.inj h
      exact ⟨f, hf, List.mem_of_mem_take (List.mem_of_getElem? (Prod.mk.inj ha).1)⟩
  · simp at h

/-- **Asking a host** ends the top frame, or makes it wait for an argument of an accessor of its
chain. -/
theorem consult_cases (n : Node) (rules : List Host.Rule) (m : Machine) :
    ∃ m₁, Alike m m₁ ∧
      ((∃ w, consult n rules m = m₁.finish w) ∨
        ∃ k rules' a, consult n rules m = m₁.await (.asking k rules') a ∧
          k < (m.links.map (·.node)).length ∧ ∃ f ∈ m.frames[k]?, a ∈ f.node.arguments) := by
  induction rules generalizing m with
  | nil => exact ⟨_, alike_fault m n (unknownAccessor n), .inl ⟨_, rfl⟩⟩
  | cons r rules ih =>
    cases hk : r.reach? (m.links.map (·.node)) with
    | none =>
      rw [consult_skip hk]
      exact ih m
    | some k =>
      have h₁ := alike_prepare m r k
      rcases hp : m.prepare r k with ⟨as, missing, m₁⟩
      rw [hp] at h₁
      cases missing with
      | some a =>
        exact ⟨m₁, h₁, .inr ⟨k, r :: rules, a, consult_ask hk hp, Host.reach?_lt hk,
          mem_arguments_of_prepare hp⟩⟩
      | none =>
        have h₂ := alike_answer m₁ r k as
        rcases ha : m₁.answer r k as with ⟨w, m₂⟩
        rw [ha] at h₂
        cases w with
        | some w =>
          refine ⟨m₂, h₁.trans h₂, .inl ?_⟩
          rw [consult_answer hk hp ha, finishResolved]
          split <;> exact ⟨_, rfl⟩
        | none =>
          have h₁₂ := h₁.trans h₂
          obtain ⟨m₃, h₃, hc⟩ := ih m₂
          rw [consult_pass hk hp ha]
          refine ⟨m₃, h₁₂.trans h₃, hc.imp_right ?_⟩
          rintro ⟨j, rules', a, hc, hj, f, hf, hm⟩
          refine ⟨j, rules', a, hc, h₁₂.links_node ▸ hj, ?_⟩
          -- The frames have the same nodes as before.
          have hn := congrArg (fun cs => cs[j]?.map Prod.fst) h₁₂.frames
          rw [List.getElem?_map, List.getElem?_map, hf] at hn
          obtain ⟨c, hc', hfc⟩ := Option.map_eq_some_iff.1 hn.symm
          obtain ⟨g, hg, rfl⟩ := Option.map_eq_some_iff.1 hc'
          exact ⟨g, hg, by rw [show g.node = f.node from hfc]; exact hm⟩

/-! ## Where steps lead -/

/-- The step goes on with a node to enter or a value to give. -/
def GoesOn (r : Machine × Progress) : Prop :=
  (∃ n, r.2 = .running (.enter n)) ∨ ∃ v, r.2 = .running (.give v)

theorem goesOn_finish (m : Machine) (v : Value) : GoesOn (m.finish v) :=
  .inr ⟨v, finish_snd m v⟩

theorem goesOn_await (m : Machine) (φ : Phase) (n : Node) : GoesOn (m.await φ n) :=
  .inl ⟨n, await_snd m φ n⟩

theorem goesOn_consult (n : Node) (rules : List Host.Rule) (m : Machine) :
    GoesOn (consult n rules m) := by
  obtain ⟨m₁, -, ⟨w, h⟩ | ⟨k, rules', a, h, -⟩⟩ := consult_cases n rules m
  · exact h ▸ goesOn_finish m₁ w
  · exact h ▸ goesOn_await m₁ _ a

theorem goesOn_nextStatement (m : Machine) (last : Value) (ss : List Node) :
    GoesOn (m.nextStatement last ss) := by
  cases ss with
  | nil => exact goesOn_finish m last
  | cons s rest => exact goesOn_await m _ s

theorem goesOn_nextArgument (m : Machine) (callee : Closure) (done : List Value) (as : List Node) :
    GoesOn (m.nextArgument callee done as) := by
  cases as with
  | nil => exact goesOn_await _ _ _
  | cons a rest => exact goesOn_await m _ a

theorem Beginning.goesOn {x : Machine × Progress} (h : Beginning m n x) : GoesOn x := by
  cases h with
  | await => exact goesOn_await m _ _
  | ask => exact goesOn_consult n m.rules m
  | block => exact goesOn_nextStatement _ _ _
  | jump | finish => exact goesOn_finish m _

theorem goesOn_receiveArgument (m : Machine) (n : Node) (distance : Nat) (rules : List Host.Rule)
    (v : Value) : GoesOn (m.receiveArgument n distance rules v) := by
  unfold receiveArgument
  dsimp only
  split
  · unfold finishResolved
    split <;> exact goesOn_finish _ _
  · exact goesOn_consult n rules _

theorem Reaction.goesOn {f : Frame} {v : Value} {x : Machine × Progress} (h : Reaction m f v x) :
    GoesOn x := by
  cases h with
  | pass | abrupt | yield | result | unwrap => exact goesOn_finish m _
  | fault => exact goesOn_finish _ _
  | write => exact goesOn_finish _ _
  | await => exact goesOn_await m _ _
  | statement => exact goesOn_nextStatement m _ _
  | call => exact goesOn_nextArgument _ _ _ _
  | members => exact goesOn_consult _ _ m
  | argument => exact goesOn_nextArgument m _ _ _
  | ask => exact goesOn_receiveArgument m _ _ _ v

/-! ## Steps -/

/-- A step goes on, pushes the frame of a node that then begins, or ends the evaluation. -/
theorem step_cases (m : Machine) (φ : Focus) :
    GoesOn (m.step φ) ∨
      (∃ n, φ = .enter n ∧ m.frames.length < maxFrames ∧
        (m.step φ).1.frames = { node := n } :: m.frames ∧ (m.step φ).2.next? = some .begin) ∨
      ∃ v, φ = .give v ∧ m.frames = [] ∧ m.step φ = (m, .finished v) := by
  cases φ with
  | enter n =>
    have he := enter_entering m n
    rw [show m.step (.enter n) = m.enter n from rfl]
    generalize m.enter n = x at he
    cases he with
    | push h =>
      right; left
      refine ⟨n, rfl, h, ?_⟩
      split <;> exact ⟨rfl, rfl⟩
    | _ => exact .inl (.inr ⟨_, rfl⟩)
  | begin =>
    left
    rw [step]
    split
    · exact (begin_beginning m _).goesOn
    · exact .inr ⟨_, rfl⟩
  | give v =>
    rw [step]
    split
    · exact .inl (receive_reaction m _ v).goesOn
    · rename_i hf
      exact .inr (.inr ⟨v, rfl, hf, rfl⟩)

/-- An evaluation ends only by giving a value to nobody. -/
theorem step_finished {φ : Focus} {m' : Machine} (h : m.step φ = (m', .finished w)) :
    m' = m ∧ m.frames = [] ∧ φ = .give w := by
  rcases step_cases m φ with (⟨n, hn⟩ | ⟨v, hv⟩) | ⟨n, -, -, -, hn⟩ | ⟨v, rfl, hf, hv⟩
  · simp [h] at hn
  · simp [h] at hv
  · simp [h, Progress.next?] at hn
  · rw [h] at hv
    cases hv
    exact ⟨rfl, hf, rfl⟩

/-- Only the push of a frame is followed by the beginning of its node. -/
theorem frames_of_next_begin {φ : Focus} (h : (m.step φ).2.next? = some .begin) :
    ∃ n, φ = .enter n ∧ m.frames.length < maxFrames ∧
      (m.step φ).1.frames = { node := n } :: m.frames := by
  rcases step_cases m φ with (⟨n, hn⟩ | ⟨v, hv⟩) | ⟨n, hn, hl, hf, -⟩ | ⟨v, -, -, hv⟩
  · simp [hn, Progress.next?] at h
  · simp [hv, Progress.next?] at h
  · exact ⟨n, hn, hl, hf⟩
  · simp [hv, Progress.next?] at h

/-! ## What no step changes -/

/-- The host and the global variables of a machine. -/
def settings (m : Machine) : Host × List Nat :=
  (m.host, m.globals)

theorem Alike.settings (h : Alike m m₁) : m₁.settings = m.settings :=
  Prod.ext h.host h.globals

theorem settings_finish (m : Machine) (v : Value) : (m.finish v).1.settings = m.settings := by
  unfold finish
  split <;> rfl

theorem settings_await (m : Machine) (ψ : Phase) (n : Node) : (m.await ψ n).1.settings = m.settings := by
  unfold await
  split <;> rfl

theorem settings_consult (n : Node) (rules : List Host.Rule) (m : Machine) :
    (consult n rules m).1.settings = m.settings := by
  obtain ⟨m₁, ha, ⟨w, h⟩ | ⟨k, rules', a, h, -⟩⟩ := consult_cases n rules m
  · rw [h, settings_finish, ha.settings]
  · rw [h, settings_await, ha.settings]

theorem settings_nextStatement (m : Machine) (last : Value) (ss : List Node) :
    (m.nextStatement last ss).1.settings = m.settings := by
  cases ss with
  | nil => exact settings_finish m last
  | cons s rest => exact settings_await m _ s

theorem settings_nextArgument (m : Machine) (callee : Closure) (done : List Value) (as : List Node) :
    (m.nextArgument callee done as).1.settings = m.settings := by
  cases as with
  | nil => exact settings_await _ _ _
  | cons a rest => exact settings_await m _ a

theorem settings_step (m : Machine) (φ : Focus) : (m.step φ).1.settings = m.settings := by
  cases φ with
  | enter n =>
    have h := enter_entering m n
    rw [show m.step (.enter n) = m.enter n from rfl]
    generalize m.enter n = r at h
    cases h with
    | push => split <;> rfl
    | _ => rfl
  | begin =>
    rw [step]
    split
    · rename_i f outer hf
      have h := begin_beginning m f.node
      generalize m.begin f.node = r at h
      cases h with
      | await => exact settings_await m _ _
      | ask => exact settings_consult _ _ m
      | block => exact settings_nextStatement _ _ _
      | jump | finish => exact settings_finish m _
    · rfl
  | give v =>
    rw [step]
    split
    · rename_i f outer hf
      have h := receive_reaction m f v
      generalize m.receive f v = r at h
      cases h with
      | pass | abrupt | yield | result | unwrap => exact settings_finish m _
      | fault | write => exact settings_finish _ _
      | await => exact settings_await m _ _
      | statement => exact settings_nextStatement m _ _
      | call => exact settings_nextArgument _ _ _ _
      | members => exact settings_consult _ _ m
      | argument => exact settings_nextArgument m _ _ _
      | ask =>
        unfold receiveArgument
        dsimp only
        split
        · unfold finishResolved
          split <;> exact settings_finish _ _
        · exact settings_consult _ _ _
    · rfl

end Machine

end Steppable
