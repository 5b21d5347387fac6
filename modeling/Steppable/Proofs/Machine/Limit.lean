import Steppable.Proofs.Machine.Descent
import Steppable.Proofs.Parser.Printing

/-!
# The limit of frames

A node that may have to wait for something gets a frame, unless there are `maxFrames` already; then
it is an error that the stack is too deep. The activation of a function gets its frame without that
question. So the limit is kept with one exception, a single activation at the top of a stack that
was full before (`Fits`).

**Theorem (`frames_limited`).** At every moment in the life of a machine, whatever its host and its
breakpoints, the stack has no more than `maxFrames` frames below its top one; the top one is beyond
the limit only if it is an activation, and never where the machine is stopped. A node that wants a
frame of a full stack is an error instead.

`activation_beyond_limit` is a source whose evaluation makes use of the exception.
-/

namespace Steppable

/-- Whether the node gets a frame: what it evaluates to may have to be waited for. -/
def Node.wantsFrame : Node → Bool
  | .constant .. | .nop .. | .invalid .. | .declare .. | .var .. | .function .. => false
  | _ => true

namespace Machine

variable {m m' m₁ : Machine} {f : Frame} {outer : List Frame} {φ : Focus} {v : Value} {n : Node}
  {host : Host} {ts : List Node}

/-! ## How many frames a step leaves -/

theorem length_finish_le (m : Machine) (v : Value) :
    (m.finish v).1.frames.length ≤ m.frames.length := by
  unfold finish
  split
  · exact Nat.le_refl _
  · rename_i f outer hf
    rw [hf]
    exact Nat.le_succ _

theorem length_await (m : Machine) (ψ : Phase) (n : Node) :
    (m.await ψ n).1.frames.length = m.frames.length := by
  unfold await
  split
  · rfl
  · rename_i f outer hf
    rw [hf]
    rfl

theorem length_consult_le (n : Node) (rules : List Host.Rule) (m : Machine) :
    (consult n rules m).1.frames.length ≤ m.frames.length := by
  obtain ⟨m₁, ha, ⟨w, h⟩ | ⟨k, rules', a, h, -⟩⟩ := consult_cases n rules m
  · rw [h, ← ha.length_frames]
    exact length_finish_le m₁ w
  · rw [h, length_await, ha.length_frames]

theorem length_nextStatement_le (m : Machine) (last : Value) (ss : List Node) :
    (m.nextStatement last ss).1.frames.length ≤ m.frames.length := by
  cases ss with
  | nil => exact length_finish_le m last
  | cons s rest => exact Nat.le_of_eq (length_await m _ s)

theorem length_nextArgument (m : Machine) (callee : Closure) (done : List Value) (as : List Node) :
    (m.nextArgument callee done as).1.frames.length = m.frames.length := by
  cases as with
  | nil => exact length_await { m with cells := activate m.cells callee done } _ _
  | cons a rest => exact length_await m _ a

theorem length_receiveArgument_le (m : Machine) (n : Node) (k : Nat) (rules : List Host.Rule)
    (v : Value) : (m.receiveArgument n k rules v).1.frames.length ≤ m.frames.length := by
  unfold receiveArgument
  dsimp only
  split
  · rw [← (alike_setResult m k (m.cells.deref v)).length_frames]
    unfold finishResolved
    split <;> exact length_finish_le _ _
  · rw [← (alike_addArgument m k (m.cells.deref v)).length_frames]
    exact length_consult_le n rules _

theorem length_begin_le (m : Machine) (n : Node) :
    (m.begin n).1.frames.length ≤ m.frames.length := by
  have hb := begin_beginning m n
  generalize m.begin n = r at hb
  cases hb with
  | await => exact Nat.le_of_eq (length_await m _ _)
  | ask => exact length_consult_le n m.rules m
  | @block t ss locals f outer _ hf =>
    rw [hf]
    exact length_nextStatement_le _ _ _
  | jump | finish => exact length_finish_le m _

/-- Only a call leaves more frames than there were. -/
theorem length_receive_le (m : Machine) (f : Frame) (v : Value) :
    (m.receive f v).1.frames.length ≤ m.frames.length ∨
      ∃ callee, m.receive f v = m.call f.node callee := by
  have hr := receive_reaction m f v
  generalize m.receive f v = r at hr
  cases hr with
  | pass | abrupt | yield | result | unwrap => exact .inl (length_finish_le m _)
  | fault culprit message => exact .inl (length_finish_le (m.fault culprit message).2 _)
  | @write cell x w => exact .inl (length_finish_le { m with cells := m.cells.set cell x } w)
  | await => exact .inl (Nat.le_of_eq (length_await m _ _))
  | statement => exact .inl (length_nextStatement_le m _ _)
  | call => exact .inr ⟨_, rfl⟩
  | members => exact .inl (length_consult_le _ _ m)
  | argument => exact .inl (Nat.le_of_eq (length_nextArgument m _ _ _))
  | ask => exact .inl (length_receiveArgument_le m _ _ _ v)

theorem length_takeUp_le (m : Machine) (f : Frame) :
    (m.takeUp f).1.frames.length ≤ m.frames.length := by
  rcases takeUp_cases m f with ⟨v, h⟩ | ⟨-, h⟩ | h
  · exact h ▸ length_finish_le m v
  · exact h ▸ length_consult_le _ _ m
  · rw [h]

theorem length_takeUpAll_le (inner : List Frame) (m : Machine) :
    (takeUpAll inner m).1.frames.length ≤ inner.length + m.frames.length := by
  induction inner generalizing m with
  | nil => exact Nat.le_add_left _ _
  | cons f inner ih =>
    have hf := length_takeUp_le { m with frames := f :: m.frames } f
    rw [List.length_cons] at hf ⊢
    rcases takeUpAll_cons f inner m with ⟨v, m₁, ht, hall⟩ | ⟨-, hall⟩
    · rw [ht] at hf
      rw [hall]
      exact Nat.le_trans hf (by omega)
    · rw [hall]
      exact Nat.le_trans (ih _) (by omega)

/-! ## Activations -/

/-- An activation that receives a value ends, or goes on with an argument or the body. -/
theorem receive_of_isActivating (hφ : f.phase.isActivating = true) (m : Machine) (v : Value) :
    (∃ m₁ w, Alike m m₁ ∧ m.receive f v = m₁.finish w) ∨
      ∃ callee done rest, m.receive f v = m.nextArgument callee done rest := by
  unfold receive
  split
  · rename_i h
    simp [h, Phase.isActivating] at hφ
  · refine .inl ?_
    unfold receiveReturn
    split
    · exact ⟨m, _, .refl m, rfl⟩
    · exact ⟨_, _, alike_fault m _ illegalJump, rfl⟩
    · exact ⟨m, _, .refl m, rfl⟩
    · exact ⟨m, _, .refl m, rfl⟩
  · rename_i h
    simp [h, Phase.isActivating] at hφ
  · rename_i h
    simp [h, Phase.isActivating] at hφ
  · rename_i h
    simp [h, Phase.isActivating] at hφ
  · split
    · exact .inl ⟨m, v, .refl m, rfl⟩
    · cases hp : f.phase with
      | argument callee done rest =>
        exact .inr ⟨callee, done ++ [m.cells.deref v], rest, by simp only [receivePlain, hp]⟩
      | running callee => simp_all
      | _ => simp [hp, Phase.isActivating] at hφ

theorem fits_nextArgument (hf : m.frames = f :: outer) (hl : outer.length ≤ maxFrames)
    (callee : Closure) (done : List Value) (as : List Node) :
    Fits (m.nextArgument callee done as).1.cores := by
  have hfits : ∀ ψ : Phase, ψ.isActivating = true →
      Fits ((f.node, ψ) :: outer.map Frame.core) := by
    intro ψ hψ
    rcases Nat.lt_or_eq_of_le hl with hl | hl
    · exact .inl (by simpa using hl)
    · exact .inr ⟨hψ, by simpa using hl⟩
  cases as with
  | nil =>
    rw [nextArgument, cores_await (m := { m with cells := activate m.cells callee done })
      (cores_of_frames hf)]
    exact hfits _ rfl
  | cons a rest =>
    rw [nextArgument, cores_await (cores_of_frames hf)]
    exact hfits _ rfl

/-- The activation of a function is pushed whether there is room for it or not. -/
theorem fits_call (hf : m.frames = f :: outer) (hl : m.frames.length ≤ maxFrames) (n : Node)
    (callee : Closure) : Fits (m.call n callee).1.cores := by
  unfold call
  rw [hf]
  exact fits_nextArgument rfl (by rwa [hf] at hl) callee [] n.arguments

/-! ## Steps -/

theorem length_cores (m : Machine) : m.cores.length = m.frames.length :=
  List.length_map _

theorem length_le_of_fits (h : Fits m.cores) (hf : m.frames = f :: outer) :
    outer.length ≤ maxFrames := by
  rw [cores_of_frames hf] at h
  simpa using h.le

theorem fits_receive (h : Fits m.cores) (hf : m.frames = f :: outer) (v : Value) :
    Fits (m.receive f v).1.cores := by
  have hle := length_le_of_fits h hf
  by_cases hφ : f.phase.isActivating = true
  · rcases receive_of_isActivating hφ m v with ⟨m₁, w, ha, hr⟩ | ⟨callee, done, rest, hr⟩
    · rw [hr, cores_finish (ha.cores_eq.trans (cores_of_frames hf))]
      exact fits_of_length_le (by simpa using hle)
    · rw [hr]
      exact fits_nextArgument hf hle callee done rest
  · have hl : m.frames.length ≤ maxFrames := by
      rw [cores_of_frames hf] at h
      have hlt := h.lt (Bool.eq_false_iff.2 hφ)
      rw [List.length_map] at hlt
      rw [hf]
      exact hlt
    rcases length_receive_le m f v with hr | ⟨callee, hr⟩
    · exact fits_of_length_le (length_cores _ ▸ Nat.le_trans hr hl)
    · rw [hr]
      exact fits_call hf hl f.node callee

theorem fits_enter (h : Fits m.cores) (n : Node) : Fits (m.enter n).1.cores := by
  have he := enter_entering m n
  generalize m.enter n = r at he
  cases he with
  | push hl =>
    have hfits : Fits ((n, .ready) :: m.cores) := .inl (by rwa [length_cores])
    split <;> exact hfits
  | _ => exact h

/-- The stack respects the limit; where a node is about to begin there is no exception. -/
structure Limited (m : Machine) (φ : Focus) : Prop where
  fits : Fits m.cores
  begins : φ = .begin → m.frames.length ≤ maxFrames

theorem limited_of_le (h : m.frames.length ≤ maxFrames) (φ : Focus) : Limited m φ :=
  ⟨fits_of_length_le (by rwa [length_cores]), fun _ => h⟩

/-- **Every step respects the limit.** -/
theorem Limited.step {φ' : Focus} (h : Limited m φ) (hn : (m.step φ).2.next? = some φ') :
    Limited (m.step φ).1 φ' := by
  refine ⟨?_, fun hφ' => ?_⟩
  · cases φ with
    | enter n => exact fits_enter h.fits n
    | begin =>
      rw [Machine.step]
      split
      · rename_i f outer hf
        refine fits_of_length_le ?_
        rw [length_cores]
        exact Nat.le_trans (length_begin_le m f.node) (h.begins rfl)
      · exact h.fits
    | give v =>
      rw [Machine.step]
      split
      · rename_i f outer hf
        exact fits_receive h.fits hf v
      · exact h.fits
  · obtain ⟨n, -, hl, hf⟩ := frames_of_next_begin (hφ' ▸ hn)
    rw [hf]
    exact hl

/-- **The limit is respected all the time.** -/
theorem limited_perpetual (ts : List Node) :
    Perpetual ts (fun m => m.frames.length ≤ maxFrames) Limited where
  lasting := {
    step := fun _ _ _ h hn => h.step hn
    resumption := fun m h => by
      refine limited_of_le (Nat.le_trans (length_takeUpAll_le m.frames.reverse _) ?_) _
      simpa using h.begins rfl
    stops := fun _ _ _ _ h => ⟨h.fits, h.begins⟩ }
  globals m ds h := by rwa [(declareGlobals_frames m ds).1]
  stops _ _ _ h := h
  start m n _ hp _ := limited_of_le (by simp [fresh, frames_of_isPending hp]) _
  taken m h _ := limited_of_le h _
  stopped _ h := h.begins rfl
  ended m w _ hf := by simp [(settle_frames m w).2.1, hf]
  reset m _ := Nat.zero_le _

theorem enter_of_wantsFrame (h : n.wantsFrame = true) (m : Machine) : m.enter n = m.push n := by
  cases n <;> first | rfl | simp [Node.wantsFrame] at h

/-- **The limit of frames holds**, but for an activation at the top of a stack that was full.

- Below the top frame there are never more than the limit allows, and if the top frame is one too
many then it is an activation.
- Where the machine is not inside of a call there is no exception.
- A node that wants a frame gets it if there is room, and is an error otherwise. -/
theorem frames_limited {x : Moment} (hx : Reached host ts x) :
    x.1.frames.length ≤ maxFrames + 1 ∧
      (maxFrames < x.1.frames.length → ∃ f ∈ x.1.frames.head?, f.phase.isActivating = true) ∧
      (x.2 = none → x.1.frames.length ≤ maxFrames) ∧
      ∀ n, x.2 = some (.enter n) → n.wantsFrame = true →
        (x.1.frames.length < maxFrames →
          (x.1.step (.enter n)).1.frames = { node := n } :: x.1.frames) ∧
        (maxFrames ≤ x.1.frames.length →
          x.1.step (.enter n) = (x.1.fault n tooDeep).2.give (x.1.fault n tooDeep).1) := by
  obtain ⟨m, φ?⟩ := x
  have hlim := (limited_perpetual ts).of_reached (fun _ => Nat.zero_le _) hx
  have hfits : Fits m.cores := by
    cases φ? with
    | none => exact (limited_of_le hlim .begin).fits
    | some φ => exact hlim.fits
  refine ⟨length_cores m ▸ hfits.length_le, fun hlt => ?_, ?_,
    fun n _ hw => ⟨fun hl => ?_, fun hl => ?_⟩⟩
  · obtain ⟨f, outer, hf⟩ := List.exists_cons_of_length_pos (Nat.zero_lt_of_lt hlt)
    refine ⟨f, by rw [hf]; rfl, ?_⟩
    rw [cores_of_frames hf] at hfits
    by_contra hφ
    have := hfits.lt (Bool.eq_false_iff.2 hφ)
    rw [List.length_map] at this
    rw [hf, List.length_cons] at hlt
    omega
  · rintro rfl
    exact hlim
  · rw [step, enter_of_wantsFrame hw, push, if_neg (Nat.not_le_of_lt hl)]
    dsimp only
    split <;> rfl
  · rw [step, enter_of_wantsFrame hw, push, if_pos hl]

/-! ## Beyond the limit -/

/-- So many negations of the call of a function that has nothing to wait for. -/
def negatedCall (k : Nat) : String :=
  String.ofList (List.replicate k '!') ++ "(function () { true; })()"

/-- The call gets the last frame, and its activation comes on top of it. -/
theorem length_negatedCall :
    (advance 514 {} (.enter (Parser.treeOf (negatedCall 255)))).map (·.1.frames.length) =
      some 257 := by
  decide +kernel

theorem reached_full :
    ∃ x, Reached Host.standard [Parser.treeOf (negatedCall 255)] x ∧
      maxFrames < x.1.frames.length := by
  obtain ⟨x, hx, hl⟩ := Option.map_eq_some_iff.1 length_negatedCall
  exact ⟨(x.1, some x.2), reached_of_advance hx, by rw [hl]; decide⟩

/-- The frame beyond the limit is an activation. -/
theorem frames_limited_full :
    ∃ x, Reached Host.standard [Parser.treeOf (negatedCall 255)] x ∧
      x.1.frames.length = maxFrames + 1 ∧
      ∃ f ∈ x.1.frames.head?, f.phase.isActivating = true := by
  obtain ⟨x, hx, hl⟩ := reached_full
  have h := frames_limited hx
  exact ⟨x, hx, Nat.le_antisymm h.1 hl, h.2.1 hl⟩

/-- **The stack of an evaluation can be beyond the limit of frames.** -/
theorem activation_beyond_limit :
    ¬ ∀ (source : String) (x : Moment),
      Reached Host.standard [Parser.treeOf source] x → x.1.frames.length ≤ maxFrames := by
  intro h
  obtain ⟨x, hx, hl⟩ := reached_full
  exact Nat.not_lt_of_le (h (negatedCall 255) x hx) hl

end Machine

end Steppable
