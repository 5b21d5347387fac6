import Mathlib.Data.List.Basic
import Steppable.Proofs.Machine.Retaking

/-!
# The discipline of the stack

Frames are known by their places in the stack. A frame does not keep the place of the one that it
waits for: it waits for the frame right above it. A host is given places to look at, and a frame
that evaluates an argument for a host keeps the distance to the accessor that the argument is noted
for. All this is right only as long as the frame of a node that is waited for is pushed right above,
and frames end in the reverse of the order in which they were pushed.

**Theorem (`frames_disciplined`).** At every moment in the life of a machine with the standard host
that evaluates trees which have been read:

- *Visits.* The visit of a node that comes back with a value leaves the frames that it found. One
  that is stopped leaves more, and the frame of the node is the first above those.
- *Places.* When the machine is stopped, whatever a frame waits for is evaluated by a frame further
  in that is still there, and so is what a host has asked a frame for.
- *Taking up.* A stopped machine is taken up with all its frames as they were.
- *Range.* Nothing ever looks at a place where there is no frame.

What a step does to nodes and phases is told by one inversion (`keeps_step`): the top frame ends, or
stays where it is. For *Range* the steps that look at frames are repeated as functions that fail
where there is none (`step?`, `resumption?`).
-/

namespace Steppable

variable {f : Frame} {inner outer : List Frame} {n x : Node} {φ : Phase}
  {below : List (Node × Phase)} {k : Nat}

namespace Machine

variable {m m' : Machine} {focus : Focus}

/-! ## What a step does to the stack -/

/-- The step ends the top frame, whose node is `x`, and gives a value to the frames below; or the
top frame stays where it is, and others may stand above it then. -/
def Keeps (x : Node) (below : List (Node × Phase)) (r : Machine × Progress) : Prop :=
  (r.1.cores = below ∧ ∃ v, r.2 = .running (.give v)) ∨
    ∃ top φ, r.1.cores = top ++ (x, φ) :: below

theorem keeps_finish (hc : m.cores = (x, φ) :: below) (v : Value) : Keeps x below (m.finish v) :=
  .inl ⟨cores_finish hc v, v, finish_snd m v⟩

theorem keeps_await (hc : m.cores = (x, φ) :: below) (ψ : Phase) (n : Node) :
    Keeps x below (m.await ψ n) :=
  .inr ⟨[], ψ, cores_await hc ψ n⟩

theorem keeps_consult (hc : m.cores = (x, φ) :: below) (n : Node) (rules : List Host.Rule) :
    Keeps x below (consult n rules m) := by
  obtain ⟨m₁, ha, ⟨w, h⟩ | ⟨k, rules', a, h, -⟩⟩ := consult_cases n rules m
  · exact h ▸ keeps_finish (ha.cores_eq.trans hc) w
  · exact h ▸ keeps_await (ha.cores_eq.trans hc) _ a

theorem keeps_nextStatement (hc : m.cores = (x, φ) :: below) (last : Value) (ss : List Node) :
    Keeps x below (m.nextStatement last ss) := by
  cases ss with
  | nil => exact keeps_finish hc last
  | cons s rest => exact keeps_await hc _ s

theorem keeps_nextArgument (hc : m.cores = (x, φ) :: below) (callee : Closure) (done : List Value)
    (as : List Node) : Keeps x below (m.nextArgument callee done as) := by
  cases as with
  | nil => exact keeps_await (m := { m with cells := activate m.cells callee done }) hc _ _
  | cons a rest => exact keeps_await hc _ a

/-- The activation is a frame of its own above the call. -/
theorem keeps_call (hf : m.frames = f :: outer) (n : Node) (callee : Closure) :
    Keeps f.node (outer.map Frame.core) (m.call n callee) := by
  have hc : ({ m with frames := { node := n } :: { f with phase := .activation } :: outer } :
      Machine).cores = (n, .ready) :: (f.node, .activation) :: outer.map Frame.core := rfl
  unfold call
  rw [hf]
  rcases keeps_nextArgument hc callee [] n.arguments with ⟨h, -⟩ | ⟨top, ψ, h⟩
  · exact .inr ⟨[], .activation, h⟩
  · exact .inr ⟨top ++ [(n, ψ)], .activation, by rw [h, List.append_assoc]; rfl⟩

theorem keeps_receiveArgument (hc : m.cores = (x, φ) :: below) (n : Node) (k : Nat)
    (rules : List Host.Rule) (v : Value) : Keeps x below (m.receiveArgument n k rules v) := by
  unfold receiveArgument
  dsimp only
  split
  · have ha := (alike_setResult m k (m.cells.deref v)).cores_eq.trans hc
    unfold finishResolved
    split <;> exact keeps_finish ha _
  · exact keeps_consult ((alike_addArgument m k (m.cells.deref v)).cores_eq.trans hc) n rules

theorem keeps_begin (hf : m.frames = f :: outer) :
    Keeps f.node (outer.map Frame.core) (m.begin f.node) := by
  have hc := cores_of_frames hf
  have hb := begin_beginning m f.node
  generalize m.begin f.node = r at hb
  cases hb with
  | await => exact keeps_await hc _ _
  | ask => exact keeps_consult hc _ _
  | @block t ss locals g outer' _ hg =>
    rw [hf] at hg
    cases hg
    exact keeps_nextStatement (m := { m with
      frames := { f with phase := .statement ss } :: outer
      cells := m.cells.registerAll locals }) rfl _ _
  | jump | finish => exact keeps_finish hc _

theorem keeps_receive (hf : m.frames = f :: outer) (v : Value) :
    Keeps f.node (outer.map Frame.core) (m.receive f v) := by
  have hc := cores_of_frames hf
  have hr := receive_reaction m f v
  generalize m.receive f v = r at hr
  cases hr with
  | pass | abrupt | yield | result | unwrap => exact keeps_finish hc _
  | fault culprit message => exact keeps_finish (m := (m.fault culprit message).2) hc _
  | @write cell x w => exact keeps_finish (m := { m with cells := m.cells.set cell x }) hc w
  | await => exact keeps_await hc _ _
  | statement => exact keeps_nextStatement hc _ _
  | call => exact keeps_call hf _ _
  | members => exact keeps_consult hc _ _
  | argument => exact keeps_nextArgument hc _ _ _
  | ask => exact keeps_receiveArgument hc _ _ _ v

/-- To enter a node either gives its value at once or pushes its frame. -/
theorem enter_cores (m : Machine) (n : Node) :
    ((m.enter n).1.cores = m.cores ∧ ∃ v, (m.enter n).2 = .running (.give v)) ∨
      (m.enter n).1.cores = (n, .ready) :: m.cores := by
  have he := enter_entering m n
  generalize m.enter n = r at he
  cases he with
  | push => right; split <;> rfl
  | _ => exact .inl ⟨rfl, _, rfl⟩

theorem keeps_enter (m : Machine) (n : Node) : Keeps n m.cores (m.enter n) :=
  (enter_cores m n).imp_right fun h => ⟨[], .ready, h⟩

/-- **A step ends the top frame or leaves it where it is.** -/
theorem keeps_step (hf : m.frames = f :: outer) (focus : Focus) :
    Keeps f.node (outer.map Frame.core) (m.step focus) := by
  cases focus with
  | enter n =>
    rcases enter_cores m n with ⟨h, -⟩ | h
    · exact .inr ⟨[], f.phase, h.trans (cores_of_frames hf)⟩
    · exact .inr ⟨[(n, .ready)], f.phase, h.trans (by rw [cores_of_frames hf]; rfl)⟩
  | begin =>
    rw [step, hf]
    exact keeps_begin hf
  | give v =>
    rw [step, hf]
    exact keeps_receive hf v

/-- A frame stays where it is as long as frames above it come and go. -/
theorem keeps_inside {top : List (Node × Phase)} (hc : m.cores = top ++ (n, φ) :: below)
    (focus : Focus) : Keeps n below (m.step focus) := by
  cases top with
  | nil =>
    obtain ⟨f, outer, hf, hfc, rfl⟩ := frames_of_cores hc
    obtain ⟨rfl, -⟩ := Prod.mk.inj hfc
    exact keeps_step hf focus
  | cons c top =>
    obtain ⟨f, outer, hf, -, hcs⟩ := frames_of_cores hc
    have hk := keeps_step hf focus
    rw [hcs] at hk
    rcases hk with ⟨h, -⟩ | ⟨top', ψ, h⟩
    · exact .inr ⟨top, φ, h⟩
    · exact .inr ⟨top' ++ (f.node, ψ) :: top, φ, by rw [h]; simp⟩

/-! ## Visits -/

/-- How the visit of a node ends, if it ends. It began with `h` frames and is now where the machine
`m` is about to do something. Either a value comes back to these frames, or the machine stops. -/
inductive Visits (h : Nat) : Machine → Focus → Machine → Option Value → Prop
  | resolved {m : Machine} {v : Value} : m.frames.length ≤ h → Visits h m (.give v) m (some v)
  | pending {m m' : Machine} {focus : Focus} :
      m.step focus = (m', .suspended) → Visits h m focus m' none
  | step {m m₁ m' : Machine} {focus focus₁ : Focus} {o : Option Value} :
      (∀ w, focus = .give w → h < m.frames.length) → m.step focus = (m₁, .running focus₁) →
      Visits h m₁ focus₁ m' o → Visits h m focus m' o

/-- The stack after the visit of `n` that found the frames `below`: these again, or the frame of `n`
above them. -/
def Leaves (below : List (Node × Phase)) (n : Node) (m' : Machine) : Option Value → Prop
  | some _ => m'.cores = below
  | none => ∃ top φ, m'.cores = top ++ (n, φ) :: below

/-- Inside a visit the frame of its node stays where it is, until the value comes back. -/
theorem Visits.leaves {o : Option Value} (hv : Visits below.length m focus m' o)
    (hk : Keeps n below (m, .running focus)) : Leaves below n m' o := by
  induction hv with
  | resolved hle =>
    rcases hk with ⟨hc, -⟩ | ⟨top, φ, hc⟩
    · exact hc
    · have := congrArg List.length hc
      simp only [cores, List.length_map, List.length_append, List.length_cons] at this
      omega
  | @pending m m' focus hs =>
    -- Only the push of a frame stops, so no value is on its way.
    obtain ⟨x, rfl, -⟩ := frames_of_next_begin (m := m) (φ := focus) (by rw [hs]; rfl)
    rcases hk with ⟨-, v, hv⟩ | ⟨top, φ, hc⟩
    · cases hv
    · have hk := keeps_inside hc (.enter x)
      rw [hs] at hk
      rcases hk with ⟨-, v, hv⟩ | h
      · cases hv
      · exact h
  | @step m m₁ m' focus focus₁ o hgive hs _ ih =>
    rcases hk with ⟨hc, v, hv⟩ | ⟨top, φ, hc⟩
    · have hlt := hgive v (Progress.running.inj hv)
      rw [← hc, cores, List.length_map] at hlt
      exact (Nat.lt_irrefl _ hlt).elim
    · have hk := keeps_inside hc focus
      rw [hs] at hk
      exact ih hk

/-- **A visit leaves the frames that it found**, and if it is stopped the frame of its node stands
right above them. -/
theorem leaves_of_visits {o : Option Value} (hv : Visits m.frames.length m (.enter n) m' o) :
    Leaves m.cores n m' o := by
  have hlen : m.frames.length = m.cores.length := (List.length_map _).symm
  have hk := keeps_enter m n
  cases hv with
  | pending hs =>
    rw [show m.enter n = _ from hs] at hk
    rcases hk with ⟨-, v, hv⟩ | h
    · cases hv
    · exact h
  | step _ hs hv =>
    rw [show m.enter n = _ from hs] at hk
    rw [hlen] at hv
    exact hv.leaves hk

end Machine

/-! ## Places that are waited for -/

/-- For a frame that has `p` frames below it and waits for something: in which frame the value is to
be noted, and which frame evaluates it. The value is noted in the frame itself, or for a host in the
frame of the accessor that it is an argument of, and that distance is all that is kept. The place of
the frame that evaluates it is worked out: it is the one right above. -/
def Frame.pending (p : Nat) (f : Frame) : List (Int × Nat) :=
  match f.phase with
  | .ready => []
  | .asking distance _ => [((p : Int) - distance, p + 1)]
  | _ => [((p : Int), p + 1)]

/-- What is waited for in a stack. -/
def pendings : List Frame → List (Int × Nat)
  | [] => []
  | f :: outer => f.pending outer.length ++ pendings outer

/-- Below a node that is waited for, each value is noted in a frame further out than the one that
evaluates it. -/
theorem pendings_of_expects {fs : List Frame} (h : Expects (fs.map Frame.core) n) :
    ∀ e ∈ pendings fs, 0 ≤ e.1 ∧ e.1 < e.2 ∧ e.2 ≤ fs.length := by
  induction fs generalizing n with
  | nil => simp [pendings]
  | cons f outer ih =>
    intro e he
    rcases List.mem_append.1 he with he | he
    · unfold Frame.pending at he
      split at he
      · simp at he
      · rename_i k rules hφ
        have hk : k ≤ outer.length := by
          rw [List.map_cons, Frame.core, hφ] at h
          have := Nat.le_trans h.le_accessing (length_accessing_le _)
          rwa [List.length_map] at this
        obtain rfl := List.mem_singleton.1 he
        simp only [List.length_cons]
        omega
      · obtain rfl := List.mem_singleton.1 he
        simp only [List.length_cons]
        omega
    · obtain ⟨h₁, h₂, h₃⟩ := ih (n := f.node) (Expects.tail (φ := f.phase) h) e he
      exact ⟨h₁, h₂, Nat.le_succ_of_le h₃⟩

namespace Machine

variable {m : Machine} {focus : Focus}

/-- A stopped machine has all the frames that are waited for. -/
theorem pendings_of_poised (hp : Poised m .begin) :
    ∀ e ∈ pendings m.frames, 0 ≤ e.1 ∧ e.1 < e.2 ∧ e.2 < m.frames.length := by
  obtain ⟨x, cs, hc, he⟩ := hp
  obtain ⟨f, outer, hf, hfc, rfl⟩ := frames_of_cores hc
  have hφ : f.phase = .ready := congrArg Prod.snd hfc
  intro e hm
  rw [hf, pendings, Frame.pending, hφ, List.nil_append] at hm
  obtain ⟨h₁, h₂, h₃⟩ := pendings_of_expects he e hm
  exact ⟨h₁, h₂, by rw [hf]; exact Nat.lt_succ_of_le h₃⟩

/-- A frame that asks waits for the argument that the frame asked about lacks. -/
theorem lacks_of_attends {c : Frame} {rules : List Host.Rule} (ha : Attends m .begin)
    (hf : m.frames = inner ++ c :: f :: outer) (hφ : f.phase = .asking k rules) :
    ∃ e, (f :: outer)[k]? = some e ∧ e.Lacks c.node := by
  obtain ⟨n, ha⟩ := ha
  rw [hf] at ha
  obtain ⟨-, -, ha⟩ := ha.of_append
  exact (ha.1 k rules hφ).lacks

/-! ## Looking at frames

The parts of a step that look at the stack, made to fail where there is no frame. Whoever ends,
resumes or goes on with the top frame looks at distance `0`. -/

/-- Fails unless there is a frame at the distance. -/
def look (m : Machine) (distance : Nat) : Option Unit :=
  guard (distance < m.frames.length)

def consult? (n : Node) : List Host.Rule → Machine → Option (Machine × Progress)
  | [], m => do
    m.look 0
    return m.finishFault n (unknownAccessor n)
  | r :: rules, m =>
    match r.reach? (m.links.map (·.node)) with
    | none => consult? n rules m
    | some distance => do
      m.look distance
      match m.prepare r distance with
      | (_, some argument, m) =>
        m.look 0
        return m.await (.asking distance (r :: rules)) argument
      | (arguments, none, m) =>
        m.look distance
        match m.answer r distance arguments with
        | (some v, m) =>
          m.look 0
          return m.finishResolved v
        | (none, m) => consult? n rules m

def receiveArgument? (m : Machine) (n : Node) (distance : Nat) (rules : List Host.Rule)
    (v : Value) : Option (Machine × Progress) := do
  let plain := m.cells.deref v
  m.look distance
  if plain.isAbrupt then
    m.look 0
    return (m.setResult distance plain).finishResolved plain
  else consult? n rules (m.addArgument distance plain)

/-- An accessor asks the members of the value that it is applied to, unless a host has given its
result already or it calls a function. -/
def receive? (m : Machine) (f : Frame) (v : Value) : Option (Machine × Progress) := do
  m.look 0
  match f.phase, f.result with
  | .asking distance rules, _ => m.receiveArgument? f.node distance rules v
  | .accessed, none =>
    match f.node, m.cells.deref v with
    | .call .., .function _ => return m.receive f v
    | n, plain => if v.isAbrupt then return m.receive f v else consult? n (Host.members plain) m
  | _, _ => return m.receive f v

def begin? (m : Machine) (n : Node) : Option (Machine × Progress) := do
  m.look 0
  match n with
  | .name .. => consult? n m.rules m
  | n => return m.begin n

def step? (m : Machine) : Focus → Option (Machine × Progress)
  | .enter n => some (m.enter n)
  | .begin =>
    match m.frames with
    | f :: _ => m.begin? f.node
    | [] => none
  | .give v =>
    match m.frames with
    | f :: _ => m.receive? f v
    | [] => some (m, .finished v)

def takeUp? (m : Machine) (f : Frame) : Option (Machine × Progress) := do
  m.look 0
  match f.result, f.phase, f.node with
  | none, .asking .., .name .. => consult? f.node m.rules m
  | _, _, _ => return m.takeUp f

def takeUpAll? : List Frame → Machine → Option (Machine × Focus)
  | [], m => some (m, .begin)
  | f :: inner, m => do
    match ← { m with frames := f :: m.frames }.takeUp? f with
    | (m, .running (.give v)) => return ({ m with cells := m.cells.unwind inner.reverse }, .give v)
    | (m, _) => takeUpAll? inner m

def resumption? (m : Machine) : Option (Machine × Focus) :=
  takeUpAll? m.frames.reverse { m with frames := [] }

theorem look_eq (h : k < m.frames.length) : m.look k = some () := by
  simp [look, guard, h]

/-- A host is asked about accessors on the stack only. -/
theorem consult?_eq (n : Node) (rules : List Host.Rule) (hm : 0 < m.frames.length) :
    consult? n rules m = some (consult n rules m) := by
  induction rules generalizing m with
  | nil => simp [consult?, consult, look_eq hm]
  | cons r rules ih =>
    cases hk : r.reach? (m.links.map (·.node)) with
    | none =>
      rw [consult_skip hk, ← ih hm, consult?, hk]
    | some k =>
      have hlt := lt_length_of_reach hk
      have h₁ := (alike_prepare m r k).length_frames
      rcases hp : m.prepare r k with ⟨as, missing, m₁⟩
      rw [hp] at h₁
      dsimp only at h₁
      cases missing with
      | some a =>
        rw [consult_ask hk hp]
        simp [consult?, hk, hp, look_eq hlt, look_eq (h₁ ▸ hm)]
      | none =>
        have h₂ := (alike_answer m₁ r k as).length_frames
        rcases ha : m₁.answer r k as with ⟨w, m₂⟩
        rw [ha] at h₂
        dsimp only at h₂
        cases w with
        | some w =>
          rw [consult_answer hk hp ha]
          simp [consult?, hk, hp, ha, look_eq hlt, look_eq (h₁ ▸ hlt), look_eq (h₂ ▸ h₁ ▸ hm)]
        | none =>
          rw [consult_pass hk hp ha, ← ih (h₂ ▸ h₁ ▸ hm)]
          simp [consult?, hk, hp, ha, look_eq hlt, look_eq (h₁ ▸ hlt)]

theorem receiveArgument?_eq (n : Node) (rules : List Host.Rule) (v : Value) (hm : 0 < m.frames.length)
    (hk : k < m.frames.length) :
    m.receiveArgument? n k rules v = some (m.receiveArgument n k rules v) := by
  have hadd := (alike_addArgument m k (m.cells.deref v)).length_frames
  unfold receiveArgument? receiveArgument
  dsimp only
  rw [look_eq hk, look_eq hm, consult?_eq _ _ (hadd ▸ hm)]
  split <;> rfl

theorem receive?_eq (hf : m.frames = f :: outer)
    (hk : ∀ k rules, f.phase = .asking k rules → k < m.frames.length) (v : Value) :
    m.receive? f v = some (m.receive f v) := by
  have hm : 0 < m.frames.length := by simp [hf]
  unfold receive?
  rw [look_eq hm]
  simp only [Option.pure_def, Option.bind_eq_bind, Option.bind_some]
  split
  · rename_i k rules hφ
    rw [receiveArgument?_eq _ _ _ hm (hk k rules hφ)]
    simp [receive, hφ]
  · rename_i hφ hr
    split
    · rfl
    · rename_i hnone
      split
      · rfl
      · rw [consult?_eq _ _ hm]
        simp_all [receive, receivePlain]
  · rfl

theorem begin?_eq (n : Node) (hm : 0 < m.frames.length) : m.begin? n = some (m.begin n) := by
  unfold begin?
  rw [look_eq hm]
  cases n with
  | name => exact consult?_eq _ _ hm
  | _ => rfl

/-- **No step looks at a place where there is no frame.** -/
theorem step?_eq (hp : Poised m focus) : m.step? focus = some (m.step focus) := by
  cases focus with
  | enter n => rfl
  | begin =>
    obtain ⟨x, cs, hc, -⟩ := hp
    obtain ⟨f, outer, hf, -, -⟩ := frames_of_cores hc
    simp only [step?, step, hf]
    exact begin?_eq _ (by simp [hf])
  | give v =>
    obtain ⟨n, he⟩ := hp
    cases hf : m.frames with
    | nil => simp [step?, step, hf]
    | cons f outer =>
      simp only [step?, step, hf]
      refine receive?_eq hf (fun k rules hφ => ?_) v
      rw [cores_of_frames hf, hφ] at he
      have := Nat.le_trans he.le_accessing (length_accessing_le _)
      rw [List.length_map] at this
      rw [hf]
      exact Nat.lt_succ_of_le this

theorem takeUp?_eq (f : Frame) (hm : 0 < m.frames.length) : m.takeUp? f = some (m.takeUp f) := by
  unfold takeUp?
  rw [look_eq hm]
  simp only [Option.pure_def, Option.bind_eq_bind, Option.bind_some]
  split
  · rename_i hr hφ hn
    rw [consult?_eq _ _ hm]
    simp [takeUp, hr, hφ, hn]
  · rfl

theorem takeUpAll?_eq (inner : List Frame) (m : Machine) :
    takeUpAll? inner m = some (takeUpAll inner m) := by
  induction inner generalizing m with
  | nil => rfl
  | cons f inner ih =>
    rw [takeUpAll?, takeUp?_eq f (m := { m with frames := f :: m.frames }) (Nat.zero_lt_succ _)]
    simp only [Option.bind_eq_bind, Option.bind_some]
    rcases takeUpAll_cons f inner m with ⟨v, m₁, ht, h⟩ | ⟨hne, h⟩
    · rw [h, ht]
      rfl
    · rw [h, ← ih]
      split
      · rename_i ht
        exact (hne _ (congrArg Prod.snd ht)).elim
      · rename_i ht
        rw [ht]

theorem resumption?_eq (m : Machine) : m.resumption? = some m.resumption :=
  takeUpAll?_eq _ _

/-! ## All the time -/

/-- What holds of the stack at a moment. -/
structure Disciplined (x : Moment) : Prop where
  /-- A visit that comes back with a value leaves the frames that it found. -/
  resolved : ∀ n m' v, x.2 = some (.enter n) →
    Visits x.1.frames.length x.1 (.enter n) m' (some v) → m'.cores = x.1.cores
  /-- A visit that is stopped leaves more, and the frame of its node is the first above these. -/
  pending : ∀ n m', x.2 = some (.enter n) →
    Visits x.1.frames.length x.1 (.enter n) m' none →
    ∃ inner f outer, m'.frames = inner ++ f :: outer ∧ f.node = n ∧
      outer.map Frame.core = x.1.cores
  /-- A value that is waited for at a stop is noted in a frame that is there, and evaluated by one
  further in. -/
  places : x.2 = none → ∀ e ∈ pendings x.1.frames, 0 ≤ e.1 ∧ e.1 < e.2 ∧ e.2 < x.1.frames.length
  /-- The frame right above evaluates the node waited for. -/
  awaited : x.2 = none → ∀ inner c f outer, x.1.frames = inner ++ c :: f :: outer →
    Expects ((f :: outer).map Frame.core) c.node ∧
      ∀ k rules, f.phase = .asking k rules → ∃ e, (f :: outer)[k]? = some e ∧ e.Lacks c.node
  /-- Whatever stops have been set in between, the machine is taken up with the frames it has. -/
  taken : x.2 = none → x.1.isPending = true → ∀ b s,
    (x.1.withStops b s).resumption? = some (x.1.withStops b s, .begin)
  /-- The step finds every frame that it looks at. -/
  ranged : ∀ focus, x.2 = some focus → x.1.step? focus = some (x.1.step focus)

variable {ts : List Node} {next : Nat} {x : Moment}

/-- **The stack is disciplined**, at any moment. -/
theorem frames_disciplined (hr : ReadInTurn ts next) (hx : Reached Host.standard ts x) :
    Disciplined x := by
  have hP := hr.program
  have hatt := (attending_perpetual hP).of_reached
    (attentive_new (Host.forall_always (Host.faithful_standard _ _))) hx
  have hord := (orderly_perpetual hP).of_reached (settled_always (Host.tame_standard _)) hx
  obtain ⟨m, focus?⟩ := x
  refine ⟨fun n m' v _ hv => leaves_of_visits hv, fun n m' _ hv => ?_, ?_, ?_, ?_, ?_⟩
  · obtain ⟨top, φ, hc⟩ := leaves_of_visits hv
    obtain ⟨inner, rest, hf, -, hrest⟩ := List.map_eq_append_iff.1 hc
    obtain ⟨f, outer, rfl, hfc, houter⟩ := List.map_eq_cons_iff.1 hrest
    exact ⟨inner, f, outer, hf, congrArg Prod.fst hfc, houter⟩
  · rintro rfl e he
    cases hp : m.isPending with
    | true => exact pendings_of_poised (hatt.waiting hp).1 e he
    | false =>
      rw [frames_of_isPending hp] at he
      simp [pendings] at he
  · rintro rfl inner c f outer hf
    have hp : m.isPending = true := by
      cases hp : m.isPending with
      | true => rfl
      | false =>
        rw [frames_of_isPending hp] at hf
        simp at hf
    obtain ⟨hpoised, ha⟩ := hatt.waiting hp
    exact ⟨hpoised.expects_inner hf, fun k rules hφ => lacks_of_attends ha hf hφ⟩
  · rintro rfl hp b s
    obtain ⟨-, hresults, hquestions⟩ := hord.waiting hp
    have hcalm : Calm (m.withStops b s) .begin := ⟨hresults, hquestions⟩
    rw [resumption?_eq, resumption_eq_of_calm hcalm]
  · rintro focus rfl
    exact step?_eq hatt.aligned.poised

/-- The machine after a request that stops before its end. -/
def stopped? : Except Misuse (Machine × Status) → Option Machine
  | .ok (m, .suspended) => some m
  | _ => none

theorem eq_of_stopped? {r : Except Misuse (Machine × Status)} (h : stopped? r = some m) :
    r = .ok (m, .suspended) := by
  unfold stopped? at h
  split at h
  · rw [Option.some.inj h]
  · cases h

/-- A stop in an argument that a standard function has asked for, in the body of a function. The frame
of the name waits for it, and it is noted one frame further out, at the call. -/
theorem frames_disciplined_argument :
    ∃ m, Reached Host.standard
        [((Parser.new {}).parse "(function() { return Number(true && true); })()").1] (m, none) ∧
      pendings m.frames = [(3, 5), (3, 4), (2, 3), (1, 2), (0, 1)] ∧ Disciplined (m, none) := by
  let t := ((Parser.new {}).parse "(function() { return Number(true && true); })()").1
  let m : Machine := { breakpoints := { nodes := [4] } }
  have hrun : (stopped? (m.start t 30)).map (fun m₁ => pendings m₁.frames) =
      some [(3, 5), (3, 4), (2, 3), (1, 2), (0, 1)] := by decide +kernel
  obtain ⟨m₁, hstart, hpendings⟩ := Option.map_eq_some_iff.1 hrun
  have hset : Reached Host.standard [t] (m, none) :=
    (reached_new _ _ 1).turn (.breakpoints _ m.breakpoints)
  have hx : Reached Host.standard [t] (m₁, none) :=
    hset.later (later_start (List.mem_singleton_self t) (eq_of_stopped? hstart) (by simp))
  exact ⟨m₁, hx, hpendings,
    frames_disciplined (.read _ (.none 1) (.new {} 1) (Nat.le_refl 1)) hx⟩

end Machine

end Steppable
