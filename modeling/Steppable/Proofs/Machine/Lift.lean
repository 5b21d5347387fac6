import Steppable.Proofs.Lexical.Simulation

/-!
# A frame below

Put one more frame below all frames of a machine. Unless it is an accessor, nothing above it looks at
it: a step does the same as without it (`step_above`), and so does a whole path (`path_above`), as long
as the frame limit, which now is reached one frame earlier, and the handlers of the host do not tell
the difference. A handler is told where the frames of its accessors are; one that does not look is
called *placeless*.
-/

namespace Steppable

/-! ## Handlers that do not look where frames are -/

/-- The handler looks at the arguments and the nodes of the accessors only. -/
def Host.Rule.Placeless (r : Host.Rule) : Prop :=
  ∀ (q q' : Host.Request) (record : Host.Record), q.arguments = q'.arguments →
    q.chain.map (·.node) = q'.chain.map (·.node) → r.handler q record = r.handler q' record

namespace Host

theorem placeless_answering (path : List String) (ending : Ending) (f : List Value → Answer) :
    Rule.Placeless ⟨path, ending, answering f⟩ := by
  intro q q' record hq _
  simp only [answering, hq]

theorem placeless_standard : ∀ r ∈ standard, r.Placeless := by
  intro r hr
  simp only [standard, List.mem_cons, List.not_mem_nil, or_false] at hr
  rcases hr with rfl | rfl | rfl | rfl <;> exact placeless_answering _ _ _

theorem placeless_members (v : Value) : ∀ r ∈ members v, r.Placeless := by
  intro r hr
  cases v with
  | string s =>
    simp only [members, List.mem_cons, List.not_mem_nil, or_false] at hr
    rcases hr with rfl | rfl | rfl <;> exact placeless_answering _ _ _
  | number | boolean | date | error =>
    obtain rfl := List.mem_singleton.1 hr
    exact placeless_answering _ _ _
  | undefined | null | function | signal | reference => simp [members] at hr

end Host

/-! ## Stacks -/

section

variable {b : Frame} {fs : List Frame} {k : Nat}

theorem setResult_append (v : Value) (hk : k < fs.length) :
    setResult v k (fs ++ [b]) = setResult v k fs ++ [b] := by
  have hdrop : fs.drop k = fs[k] :: fs.drop (k + 1) := by simp
  unfold setResult
  rw [List.drop_append_of_le_length (Nat.le_of_lt hk),
    List.take_append_of_le_length (Nat.le_of_lt hk), hdrop]
  simp only [List.cons_append, List.append_assoc]

theorem modify_append (g : Frame → Frame) (hk : k < fs.length) :
    (fs ++ [b]).modify k g = fs.modify k g ++ [b] := by
  induction fs generalizing k with
  | nil => simp at hk
  | cons f fs ih =>
    cases k with
    | zero => rfl
    | succ k => simpa using ih (by simpa using hk)

/-- A frame that is no accessor ends every chain of accessors above it. -/
theorem accessorChain_append (hb : b.node.left? = none) (hfs : fs ≠ []) :
    accessorChain (fs ++ [b]) = accessorChain fs := by
  induction fs with
  | nil => exact (hfs rfl).elim
  | cons f fs ih =>
    cases fs with
    | nil =>
      have : f.isOperandOf b = false := by simp [Frame.isOperandOf, hb]
      simp [accessorChain, this]
    | cons g fs =>
      have := ih (by simp)
      rw [List.cons_append, List.cons_append, accessorChain, accessorChain]
      rw [List.cons_append] at this
      rw [this]

end

namespace Machine

variable {m m₁ : Machine} {b f : Frame} {cs : List Host.Call} {n : Node} {v : Value} {k : Nat}
  {outer : List Frame}

/-- The machine with the frame `b` below its frames. What the handlers have been asked tells where
frames are and is left out of account, and so is the result of an earlier evaluation. -/
def above (m : Machine) (b : Frame) (calls : List Host.Call) : Machine :=
  { m with frames := m.frames ++ [b], calls, result := none }

/-- The second outcome is the first one with the frame `b` below. -/
def Lifts (b : Frame) (r r' : Machine × Progress) : Prop :=
  ∃ calls, r' = (r.1.above b calls, r.2)

/-! ## Parts of a step -/

theorem finish_above (hf : m.frames ≠ []) (v : Value) :
    Lifts b (m.finish v) ((m.above b cs).finish v) := by
  obtain ⟨f, outer, hf⟩ := List.exists_cons_of_ne_nil hf
  cases m
  cases hf
  exact ⟨cs, rfl⟩

theorem finishFault_above (hf : m.frames ≠ []) (n : Node) (message : String) :
    Lifts b (m.finishFault n message) ((m.above b cs).finishFault n message) :=
  finish_above (m := (m.fault n message).2) hf _

theorem finishOperation_above (hf : m.frames ≠ []) (n : Node) (r : Except String Value) :
    Lifts b (m.finishOperation n r) ((m.above b cs).finishOperation n r) := by
  cases r with
  | ok v => exact finish_above hf v
  | error message => exact finishFault_above hf n message

theorem await_above (hf : m.frames ≠ []) (ψ : Phase) (n : Node) :
    Lifts b (m.await ψ n) ((m.above b cs).await ψ n) := by
  obtain ⟨f, outer, hf⟩ := List.exists_cons_of_ne_nil hf
  cases m
  cases hf
  exact ⟨cs, rfl⟩

theorem finishResolved_above (hf : m.frames ≠ []) (v : Value) :
    Lifts b (m.finishResolved v) ((m.above b cs).finishResolved v) := by
  obtain ⟨f, outer, hf⟩ := List.exists_cons_of_ne_nil hf
  cases m
  cases hf
  exact ⟨cs, rfl⟩

theorem giveVariable_above (n : Node) (d : Declaration) :
    Lifts b (m.giveVariable n d) ((m.above b cs).giveVariable n d) := by
  unfold giveVariable
  rw [show (m.above b cs).cells = m.cells from rfl]
  split <;> exact ⟨cs, rfl⟩

theorem giveFunction_above (n : Node) (code : Lambda) :
    Lifts b (m.giveFunction n code) ((m.above b cs).giveFunction n code) := by
  unfold giveFunction
  rw [show (m.above b cs).cells = m.cells from rfl]
  split
  · exact ⟨cs, rfl⟩
  · dsimp only
    split
    · exact ⟨cs, rfl⟩
    · split <;> exact ⟨cs, rfl⟩

theorem setResult_above (hk : k < m.frames.length) (v : Value) :
    (m.above b cs).setResult k v = (m.setResult k v).above b cs := by
  simp only [setResult, above, setResult_append v hk]

theorem setFault_above (hk : k < m.frames.length) (message : String) :
    (m.above b cs).setFault k message =
      ((m.setFault k message).1, (m.setFault k message).2.above b cs) := by
  have hf : (m.frames ++ [b])[k]? = m.frames[k]? := List.getElem?_append_left hk
  unfold setFault
  rw [show (m.above b cs).frames = m.frames ++ [b] from rfl, hf, List.getElem?_eq_getElem hk]
  exact Prod.ext rfl (setResult_above (m := (m.fault m.frames[k].node message).2) hk _)

theorem addArgument_above (hk : k < m.frames.length) (v : Value) :
    (m.above b cs).addArgument k v = (m.addArgument k v).above b cs := by
  simp only [addArgument, above, modify_append _ hk]

theorem prepare_above (hk : k < m.frames.length) (r : Host.Rule) :
    (m.above b cs).prepare r k =
      ((m.prepare r k).1, (m.prepare r k).2.1, (m.prepare r k).2.2.above b cs) := by
  have hf : (m.frames ++ [b])[k]? = m.frames[k]? := List.getElem?_append_left hk
  unfold prepare
  split
  · unfold gather
    rw [show (m.above b cs).frames = m.frames ++ [b] from rfl, hf, List.getElem?_eq_getElem hk]
    simp only [above, List.set_append_left _ _ hk]
  · rfl

theorem links_above (hb : b.node.left? = none) (hf : m.frames ≠ []) :
    (m.above b cs).links.map (·.node) = m.links.map (·.node) := by
  rw [map_node_links, map_node_links,
    show (m.above b cs).frames = m.frames ++ [b] from rfl, accessorChain_append hb hf]

/-- What an answer for the accessor at `k` makes of the machine. -/
def respond (m : Machine) (k : Nat) : Host.Answer → Option Value × Machine
  | .value v => (some v, m.setResult k v)
  | .anew v =>
    (some (v.renewed m.next), { m with next := m.next + 1 }.setResult k (v.renewed m.next))
  | .fail message => (some (m.setFault k message).1, (m.setFault k message).2)
  | .failAndPass message => (none, (m.setFault k message).2)
  | .decline => (none, m)

/-- The machine has put the question `q` to a rule. -/
def ask (m : Machine) (r : Host.Rule) (q : Host.Request) : Machine :=
  { m with record := (r.handler q m.record).2, calls := ⟨r, q⟩ :: m.calls }

theorem answer_eq (m : Machine) (r : Host.Rule) (k : Nat) (as : List Value) :
    m.answer r k as = (m.ask r ⟨as, m.links.take (k + 1)⟩).respond k
      (r.handler ⟨as, m.links.take (k + 1)⟩ m.record).1 := by
  unfold answer ask
  dsimp only
  generalize (r.handler ⟨as, m.links.take (k + 1)⟩ m.record).1 = a
  cases a <;> rfl

theorem respond_above (hk : k < m.frames.length) (a : Host.Answer) :
    (m.above b cs).respond k a = ((m.respond k a).1, (m.respond k a).2.above b cs) := by
  cases a with
  | value v => exact Prod.ext rfl (setResult_above hk v)
  | anew v => exact Prod.ext rfl (setResult_above (m := { m with next := m.next + 1 }) hk _)
  | fail message => simp only [respond, setFault_above hk]
  | failAndPass message => simp only [respond, setFault_above hk]
  | decline => rfl

theorem answer_above (cs : List Host.Call) {r : Host.Rule} (hr : r.Placeless)
    (hb : b.node.left? = none) (hk : k < m.frames.length) (as : List Value) :
    ∃ calls,
      (m.above b cs).answer r k as = ((m.answer r k as).1, (m.answer r k as).2.above b calls) := by
  have hf : m.frames ≠ [] := List.ne_nil_of_length_pos (Nat.zero_lt_of_lt hk)
  have hq : r.handler ⟨as, (m.above b cs).links.take (k + 1)⟩ m.record =
      r.handler ⟨as, m.links.take (k + 1)⟩ m.record := by
    refine hr _ _ _ rfl ?_
    rw [List.map_take, List.map_take, links_above hb hf]
  -- The question is noted with the places that the frames have.
  have hask : (m.above b cs).ask r ⟨as, (m.above b cs).links.take (k + 1)⟩ =
      (m.ask r ⟨as, m.links.take (k + 1)⟩).above b
        (⟨r, ⟨as, (m.above b cs).links.take (k + 1)⟩⟩ :: cs) := by
    simp only [ask, above] at hq ⊢
    rw [hq]
  rw [answer_eq, answer_eq, hask, show (m.above b cs).record = m.record from rfl, hq]
  exact ⟨_, respond_above (m := m.ask r ⟨as, m.links.take (k + 1)⟩) hk _⟩

theorem consult_above (hb : b.node.left? = none) (hf : m.frames ≠ []) (n : Node)
    {rules : List Host.Rule} (hr : ∀ r ∈ rules, r.Placeless) :
    Lifts b (consult n rules m) (consult n rules (m.above b cs)) := by
  induction rules generalizing m cs with
  | nil => exact finishFault_above hf n _
  | cons r rules ih =>
    have hrest : ∀ r ∈ rules, r.Placeless := fun q hq => hr q (List.mem_cons_of_mem r hq)
    rw [consult, consult, links_above hb hf]
    split
    · exact ih hf hrest
    · rename_i k hreach
      have hk : k < m.frames.length := lt_length_of_reach hreach
      have h₁ := alike_prepare m r k
      rw [prepare_above hk]
      rcases hp : m.prepare r k with ⟨as, missing, m₁⟩
      rw [hp] at h₁
      have hk₁ : k < m₁.frames.length := Nat.lt_of_lt_of_eq hk h₁.length_frames.symm
      have hf₁ : m₁.frames ≠ [] := List.ne_nil_of_length_pos (Nat.zero_lt_of_lt hk₁)
      cases missing with
      | some a => exact await_above hf₁ _ a
      | none =>
        obtain ⟨calls, ha⟩ := answer_above cs (hr r List.mem_cons_self) hb hk₁ as
        have h₂ := alike_answer m₁ r k as
        dsimp only
        rw [ha]
        rcases hw : m₁.answer r k as with ⟨w, m₂⟩
        rw [hw] at h₂
        have hf₂ : m₂.frames ≠ [] := h₂.ne_nil hf₁
        cases w with
        | some w => exact finishResolved_above hf₂ w
        | none => exact ih hf₂ hrest

theorem nextStatement_above (hf : m.frames ≠ []) (last : Value) (ss : List Node) :
    Lifts b (m.nextStatement last ss) ((m.above b cs).nextStatement last ss) := by
  cases ss with
  | nil => exact finish_above hf last
  | cons n rest => exact await_above hf _ n

theorem nextArgument_above (hf : m.frames ≠ []) (callee : Closure) (done : List Value)
    (as : List Node) :
    Lifts b (m.nextArgument callee done as) ((m.above b cs).nextArgument callee done as) := by
  cases as with
  | cons a as => exact await_above hf _ a
  | nil => exact await_above (m := { m with cells := activate m.cells callee done }) hf _ _

theorem call_above (hf : m.frames ≠ []) (n : Node) (callee : Closure) :
    Lifts b (m.call n callee) ((m.above b cs).call n callee) := by
  obtain ⟨f, outer, hf⟩ := List.exists_cons_of_ne_nil hf
  cases m
  cases hf
  exact nextArgument_above (by simp) callee [] n.arguments

/-! ## Frames that ask -/

/-- A frame that asks about an accessor of the stack asks placeless rules. -/
def Sited : List (Node × Phase) → Prop
  | [] => True
  | c :: outer =>
    (∀ k rules, c.2 = .asking k rules → k ≤ outer.length ∧ ∀ r ∈ rules, r.Placeless) ∧ Sited outer

theorem Sited.finish (h : Sited m.cores) (v : Value) : Sited (m.finish v).1.cores := by
  unfold Machine.finish
  split
  · exact h
  · rename_i f outer hf
    rw [cores_of_frames hf] at h
    exact h.2

theorem Sited.await (h : Sited m.cores) {ψ : Phase}
    (hψ : ∀ k rules, ψ = .asking k rules → k < m.frames.length ∧ ∀ r ∈ rules, r.Placeless)
    (n : Node) : Sited (m.await ψ n).1.cores := by
  unfold Machine.await
  split
  · exact h
  · rename_i f outer hf
    rw [cores_of_frames hf] at h
    refine ⟨fun k rules hk => ?_, h.2⟩
    obtain ⟨hlt, hr⟩ := hψ k rules hk
    rw [hf, List.length_cons] at hlt
    exact ⟨by simpa using Nat.le_of_lt_succ hlt, hr⟩

theorem Sited.consult (h : Sited m.cores) (n : Node) {rules : List Host.Rule}
    (hr : ∀ r ∈ rules, r.Placeless) : Sited (consult n rules m).1.cores := by
  induction rules generalizing m with
  | nil => exact Sited.finish (m := (m.fault n _).2) h _
  | cons r rules ih =>
    have hrest : ∀ r ∈ rules, r.Placeless := fun q hq => hr q (List.mem_cons_of_mem r hq)
    cases hreach : r.reach? (m.links.map (·.node)) with
    | none =>
      rw [consult_skip hreach]
      exact ih h hrest
    | some k =>
      have hk : k < m.frames.length := lt_length_of_reach hreach
      have h₁ := alike_prepare m r k
      rcases hp : m.prepare r k with ⟨as, missing, m₁⟩
      rw [hp] at h₁
      have hs₁ : Sited m₁.cores := h₁.cores_eq ▸ h
      cases missing with
      | some a =>
        rw [consult_ask hreach hp]
        refine hs₁.await (fun k' rules' he => ?_) a
        cases he
        exact ⟨Nat.lt_of_lt_of_eq hk h₁.length_frames.symm, hr⟩
      | none =>
        have h₂ := alike_answer m₁ r k as
        rcases ha : m₁.answer r k as with ⟨w, m₂⟩
        rw [ha] at h₂
        have hs₂ : Sited m₂.cores := h₂.cores_eq ▸ hs₁
        cases w with
        | some w =>
          rw [consult_answer hreach hp ha, finishResolved]
          split <;> exact hs₂.finish _
        | none =>
          rw [consult_pass hreach hp ha]
          exact ih hs₂ hrest

theorem Sited.nextStatement (h : Sited m.cores) (last : Value) (ss : List Node) :
    Sited (m.nextStatement last ss).1.cores := by
  cases ss with
  | nil => exact h.finish last
  | cons n rest => exact h.await (by simp) n

theorem Sited.nextArgument (h : Sited m.cores) (callee : Closure) (done : List Value)
    (as : List Node) : Sited (m.nextArgument callee done as).1.cores := by
  cases as with
  | nil => exact Sited.await (m := { m with cells := activate m.cells callee done }) h (by simp) _
  | cons a as => exact h.await (by simp) a

theorem Sited.call (h : Sited m.cores) (n : Node) (callee : Closure) :
    Sited (m.call n callee).1.cores := by
  unfold Machine.call
  refine Sited.nextArgument ?_ callee [] n.arguments
  split
  · rename_i f outer hf
    rw [cores_of_frames hf] at h
    exact ⟨nofun, nofun, h.2⟩
  · exact ⟨nofun, trivial⟩

theorem sited_enter (h : Sited m.cores) (n : Node) : Sited (m.enter n).1.cores := by
  have he := enter_entering m n
  generalize m.enter n = r at he
  cases he with
  | push => split <;> exact ⟨nofun, h⟩
  | _ => exact h

theorem sited_begin (h : Sited m.cores) (hh : ∀ r ∈ m.host, r.Placeless) (n : Node) :
    Sited (m.begin n).1.cores := by
  have hb := begin_beginning m n
  generalize m.begin n = r at hb
  cases hb with
  | await hw => exact h.await (fun k rules he => (Waits.ne_asking hw k rules he).elim) _
  | ask => exact h.consult n (forall_rules hh)
  | @block t ss locals f outer hn hf =>
    rw [cores_of_frames hf] at h
    exact Sited.nextStatement (m := { m with
      frames := { f with phase := .statement ss } :: outer
      cells := m.cells.registerAll locals }) ⟨nofun, h.2⟩ _ _
  | jump | finish => exact h.finish _

theorem sited_receive (hf : m.frames = f :: outer) (h : Sited m.cores) (v : Value) :
    Sited (m.receive f v).1.cores := by
  have hr := receive_reaction m f v
  generalize m.receive f v = r at hr
  cases hr with
  | pass | abrupt | yield | result | unwrap => exact h.finish _
  | fault culprit message => exact Sited.finish (m := (m.fault culprit message).2) h _
  | @write cell x w => exact Sited.finish (m := { m with cells := m.cells.set cell x }) h w
  | await _ hw => exact h.await (fun k rules he => (Waits.ne_asking hw k rules he).elim) _
  | statement => exact h.nextStatement _ _
  | call => exact h.call _ _
  | members => exact h.consult _ (Host.placeless_members _)
  | argument => exact h.nextArgument _ _ _
  | @ask k rules hφ =>
    have hrules : ∀ r ∈ rules, r.Placeless := by
      rw [cores_of_frames hf] at h
      exact (h.1 k rules hφ).2
    unfold receiveArgument
    dsimp only
    split
    · have hs := (alike_setResult m k (m.cells.deref v)).cores_eq ▸ h
      unfold finishResolved
      split <;> exact Sited.finish hs _
    · exact Sited.consult ((alike_addArgument m k (m.cells.deref v)).cores_eq ▸ h) _ hrules

/-- **Frames that ask stay sited.** -/
theorem sited_step (h : Sited m.cores) (hh : ∀ r ∈ m.host, r.Placeless) (φ : Focus) :
    Sited (m.step φ).1.cores := by
  cases φ with
  | enter n => exact sited_enter h n
  | begin =>
    rw [step]
    split
    · exact sited_begin h hh _
    · exact h
  | give v =>
    rw [step]
    split
    · rename_i f outer hf
      exact sited_receive hf h v
    · exact h

/-! ## Steps -/

theorem begin_above (hb : b.node.left? = none) (hf : m.frames ≠ []) (hh : ∀ r ∈ m.host, r.Placeless)
    (n : Node) : Lifts b (m.begin n) ((m.above b cs).begin n) := by
  cases n with
  | loop t bodyFirst c body =>
    cases bodyFirst with
    | true => exact await_above hf _ _
    | false => exact await_above hf _ _
  | block t ss locals =>
    obtain ⟨f, outer, hf⟩ := List.exists_cons_of_ne_nil hf
    cases m
    cases hf
    exact nextStatement_above (by simp) .undefined ss
  | name => exact consult_above hb hf _ (forall_rules hh)
  | binary | unary | adjust | giveBack | member | index | call | assign | choice | guarded =>
    exact await_above hf _ _
  | jump | constant | declare | var | function | nop | invalid => exact finish_above hf _

/-- A choice between two ways to go on. -/
theorem ite_above {c : Prop} [Decidable c] {r₁ r₂ r₁' r₂' : Machine × Progress} (h₁ : Lifts b r₁ r₁')
    (h₂ : Lifts b r₂ r₂') : Lifts b (if c then r₁ else r₂) (if c then r₁' else r₂') := by
  split
  · exact h₁
  · exact h₂

theorem receivePlain_above (hb : b.node.left? = none) (hf : m.frames ≠ []) (f : Frame) (v : Value) :
    Lifts b (m.receivePlain f v) ((m.above b cs).receivePlain f v) := by
  have hset : ∀ (c : Nat) (w u : Value),
      Lifts b (({ m with cells := m.cells.set c w } : Machine).finish u)
        (({ m.above b cs with cells := m.cells.set c w } : Machine).finish u) :=
    fun c w u => finish_above (m := { m with cells := m.cells.set c w }) hf u
  unfold receivePlain
  simp only [show (m.above b cs).cells = m.cells from rfl]
  split
  case h_1 => exact ite_above (await_above hf _ _) (finish_above hf _)
  case h_2 => exact ite_above (finish_above hf _) (await_above hf _ _)
  case h_4 => exact ite_above (finish_above hf _) (finishOperation_above hf _ _)
  case h_7 =>
    split
    · exact hset _ _ _
    · exact finishFault_above hf _ _
  case h_8 =>
    split
    · exact await_above hf _ _
    · exact finishFault_above hf _ _
  case h_9 => exact hset _ _ _
  case h_11 => exact ite_above (await_above hf _ _) (finish_above hf _)
  case h_12 => exact ite_above (await_above hf _ _) (finish_above hf _)
  case h_14 =>
    split
    · exact finish_above hf _
    · split
      · exact call_above hf _ _
      · exact consult_above hb hf _ (Host.placeless_members _)
  all_goals
    first
    | exact await_above hf _ _
    | exact finish_above hf _
    | exact finishOperation_above hf _ _
    | exact nextStatement_above hf _ _
    | exact nextArgument_above hf _ _ _

theorem receiveArgument_above (hb : b.node.left? = none) (hk : k < m.frames.length) (n : Node)
    {rules : List Host.Rule} (hr : ∀ r ∈ rules, r.Placeless) (v : Value) :
    Lifts b (m.receiveArgument n k rules v) ((m.above b cs).receiveArgument n k rules v) := by
  have hf : m.frames ≠ [] := List.ne_nil_of_length_pos (Nat.zero_lt_of_lt hk)
  unfold receiveArgument
  simp only [show (m.above b cs).cells = m.cells from rfl]
  rw [setResult_above hk, addArgument_above hk]
  exact ite_above (finishResolved_above ((alike_setResult m k _).ne_nil hf) _)
    (consult_above hb ((alike_addArgument m k _).ne_nil hf) n hr)

theorem receive_above (hb : b.node.left? = none) (hf : m.frames = f :: outer) (hs : Sited m.cores)
    (v : Value) : Lifts b (m.receive f v) ((m.above b cs).receive f v) := by
  have hne : m.frames ≠ [] := by simp [hf]
  unfold receive
  split
  · unfold receiveBody
    split
    · exact finish_above hne _
    · exact finish_above hne _
    · exact finish_above hne _
    · exact await_above hne _ _
    · exact finish_above hne _
  · unfold receiveReturn
    split
    · exact finish_above hne _
    · exact finishFault_above hne _ _
    · exact finish_above hne _
    · exact finish_above hne _
  · rename_i k rules hφ
    rw [cores_of_frames hf] at hs
    obtain ⟨hk, hr⟩ := hs.1 k rules hφ
    refine receiveArgument_above hb ?_ _ hr v
    rw [hf, List.length_cons]
    exact Nat.lt_succ_of_le (by simpa using hk)
  · exact finish_above hne v
  · exact finish_above hne v
  · exact ite_above (finish_above hne v) (receivePlain_above hb hne f v)

/-- The step makes the error of too deep a stack. -/
def TooDeep (r : Machine × Progress) : Prop :=
  (∃ v, r.2 = .running (.give v)) ∧ ∃ f, r.1.lastFault = some f ∧ f.message = tooDeep

theorem push_above (n : Node) :
    Lifts b (m.push n) ((m.above b cs).push n) ∨ TooDeep ((m.above b cs).push n) := by
  by_cases hd : (m.above b cs).frames.length ≥ maxFrames
  · right
    have hpush : (m.above b cs).push n =
        ((m.above b cs).fault n tooDeep).2.give ((m.above b cs).fault n tooDeep).1 := if_pos hd
    rw [hpush]
    exact ⟨⟨_, rfl⟩, _, rfl, rfl⟩
  · left
    have hd' : ¬ m.frames.length ≥ maxFrames := fun h => hd (by simp [above]; omega)
    unfold push
    rw [if_neg hd, if_neg hd']
    dsimp only
    rw [show (m.above b cs).stopNext = m.stopNext from rfl,
      show (m.above b cs).breakpoints = m.breakpoints from rfl]
    exact ite_above ⟨cs, rfl⟩ ⟨cs, rfl⟩

theorem enter_above (n : Node) :
    Lifts b (m.enter n) ((m.above b cs).enter n) ∨ TooDeep ((m.above b cs).enter n) := by
  cases n with
  | constant | nop | invalid => exact .inl ⟨cs, rfl⟩
  | declare t d | var t d => exact .inl (giveVariable_above _ d)
  | function t code => exact .inl (giveFunction_above _ code)
  | _ => exact push_above _

/-- The machine is in order for a frame below: neither the handlers that it may ask nor the places
that its frames ask about tell the difference. -/
structure Liftable (m : Machine) (φ : Focus) : Prop where
  host : ∀ r ∈ m.host, r.Placeless
  sited : Sited m.cores
  begun : φ = .begin → m.frames ≠ []

theorem Liftable.step {φ φ' : Focus} (h : Liftable m φ) (hn : (m.step φ).2.next? = some φ') :
    Liftable (m.step φ).1 φ' where
  host := by
    rw [show (m.step φ).1.host = m.host from congrArg Prod.fst (settings_step m φ)]
    exact h.host
  sited := sited_step h.sited h.host φ
  begun hb := by
    subst hb
    obtain ⟨n, -, -, hf⟩ := frames_of_next_begin hn
    simp [hf]

/-- **A step does the same with one more frame below**, unless the frame is one too many, and except
when the value has come to the bottom. -/
theorem step_above {φ : Focus} (cs : List Host.Call) (hb : b.node.left? = none) (h : Liftable m φ)
    (hφ : ∀ v, φ = .give v → m.frames ≠ []) :
    Lifts b (m.step φ) ((m.above b cs).step φ) ∨ TooDeep ((m.above b cs).step φ) := by
  cases φ with
  | enter n => exact enter_above n
  | begin =>
    left
    have hne := h.begun rfl
    obtain ⟨f, outer, hf⟩ := List.exists_cons_of_ne_nil hne
    have hf' : (m.above b cs).frames = f :: (outer ++ [b]) := by simp [above, hf]
    have hs : m.step .begin = m.begin f.node := by simp [Machine.step, hf]
    have hs' : (m.above b cs).step .begin = (m.above b cs).begin f.node := by
      simp [Machine.step, hf']
    rw [hs, hs']
    exact begin_above hb hne h.host f.node
  | give v =>
    left
    obtain ⟨f, outer, hf⟩ := List.exists_cons_of_ne_nil (hφ v rfl)
    have hf' : (m.above b cs).frames = f :: (outer ++ [b]) := by simp [above, hf]
    have hs : m.step (.give v) = m.receive f v := by simp [Machine.step, hf]
    have hs' : (m.above b cs).step (.give v) = (m.above b cs).receive f v := by
      simp [Machine.step, hf']
    rw [hs, hs']
    exact receive_above hb hf h.sited v

/-- **A path is the same with one more frame below**, unless it gets too deep. -/
theorem path_above {φ φ' : Focus} {k : Nat} {m' : Machine} (hb : b.node.left? = none)
    (h : Liftable m φ) (hp : Path k m φ m' φ') (ho : ¬ Lexical.Overflows (m.above b cs) φ) :
    ∃ calls, Path k (m.above b cs) φ (m'.above b calls) φ' := by
  induction hp generalizing cs with
  | refl => exact ⟨cs, .refl _ _⟩
  | @step k m m₁ m' φ φ₁ φ' hs hp ih =>
    have hroot : ∀ v, φ = .give v → m.frames ≠ [] := by
      rintro v rfl hf
      simp [Machine.step, hf] at hs
    have hn : (m.step φ).2.next? = some φ₁ := by
      rw [hs]
      rfl
    rcases step_above cs hb h hroot with ⟨calls, hl⟩ | ⟨⟨v, hv⟩, f, hf, hm⟩
    · rw [hs] at hl
      have h₁ := h.step hn
      rw [hs] at h₁
      have ho₁ : ¬ Lexical.Overflows (m₁.above b calls) φ₁ := fun hover => ho (hover.of_path (.single hl))
      obtain ⟨calls', hp'⟩ := ih h₁ ho₁
      exact ⟨calls', .step hl hp'⟩
    · exact (ho ⟨1, _, _, f, .single (Prod.ext rfl hv), hf, hm⟩).elim

end Machine

end Steppable
