import Steppable.Proofs.Host.Matching
import Steppable.Proofs.Machine.Evaluation

/-!
# Arguments for a host

The rule that a host has chosen for an accessor may ask for arguments of it. They are evaluated one
after the other on top of the frame that asks, and meanwhile what has been gathered is kept further
down, in the frame of the accessor that the rule has reached. When all are there the handler is
called, and its answer is given to this frame and to all above it. This module follows one question
from its start to the answer, on a stack whose top is one chain of accessors (`asking`).

- **One argument** (`Gathering.gathered`). When its value comes back, the stack is the one that it
  was evaluated on, by `Evaluates.course`, and the frame asks again with one value more. An abrupt
  value becomes the result instead (`Gathering.refused`).
- **All of them** (`Gathering.collects`). Nothing else is entered at this height: by induction on
  the values that are gathered.
- **The answer** (`Gathering.consult_last`). It becomes the result of the accessors up to the one
  reached, and these end with it one after the other (`Resolved.settles`).
-/

namespace Steppable

/-! ## The frames of a chain -/

/-- The frame of an accessor that waits for what it is applied to. -/
def Frame.applied (n : Node) : Frame :=
  { node := n, phase := .accessed }

/-- The frames of a chain of accessors on top of `outer`: that of `x` asks its host in the phase
`ψ`, and the accessors `ns` are applied to it, one to the other. What is gathered for the host is
kept with the accessor at `k`. -/
def asking (x : Node) (ns : List Node) (outer : List Frame) (k : Nat) (ψ : Phase)
    (g : Option Gathered) : List Frame :=
  ({ node := x, phase := ψ } :: (ns.map Frame.applied ++ outer)).modify k
    fun f => { f with gathered := g }

section

variable {x n : Node} {ns : List Node} {outer : List Frame} {k : Nat} {ψ : Phase}
  {g : Option Gathered}

theorem set_eq_modify {fs : List Frame} {e : Frame} (F : Frame → Frame) (h : fs[k]? = some e) :
    fs.set k (F e) = fs.modify k F := by
  refine List.ext_getElem? fun i => ?_
  by_cases hi : k = i
  · obtain rfl := hi
    rw [List.getElem?_set_self (List.getElem?_eq_some_iff.1 h).1, List.getElem?_modify_eq, h]
    rfl
  · rw [List.getElem?_set_ne hi, List.getElem?_modify_ne _ _ hi]

theorem map_core_asking (x : Node) (ns : List Node) (outer : List Frame) (k : Nat) (ψ : Phase)
    (g : Option Gathered) : (asking x ns outer k ψ g).map Frame.core =
      (x, ψ) :: (ns.map Frame.applied ++ outer).map Frame.core :=
  map_core_modify (fun f => { f with gathered := g }) (fun _ => rfl) k _

theorem map_node_asking (x : Node) (ns : List Node) (outer : List Frame) (k : Nat) (ψ : Phase)
    (g : Option Gathered) : (asking x ns outer k ψ g).map Frame.node =
      x :: (ns.map Frame.applied ++ outer).map Frame.node :=
  @map_node_of_core _ ({ node := x, phase := ψ } :: (ns.map Frame.applied ++ outer))
    (map_core_asking x ns outer k ψ g)

theorem length_asking (x : Node) (ns : List Node) (outer : List Frame) (k : Nat) (ψ : Phase)
    (g : Option Gathered) :
    (asking x ns outer k ψ g).length = (ns.map Frame.applied ++ outer).length + 1 :=
  List.length_modify _ _ _

theorem drop_asking (hk : k ≤ ns.length) :
    (asking x ns outer k ψ g).drop (k + 1) = (ns.drop k).map Frame.applied ++ outer := by
  rw [asking, List.drop_modify_of_lt _ k (k + 1) _ (Nat.lt_succ_self k), List.drop_succ_cons,
    List.drop_append_of_le_length (by simpa using hk), List.map_drop]

/-- The phase of the top frame has no part in what is kept. -/
theorem asking_eq_cons (x : Node) (ns : List Node) (outer : List Frame) (k : Nat)
    (g : Option Gathered) :
    ∃ g₀ fs, ∀ ψ, asking x ns outer k ψ g = { node := x, phase := ψ, gathered := g₀ } :: fs := by
  cases k with
  | zero => exact ⟨g, _, fun _ => rfl⟩
  | succ k => exact ⟨none, _, fun _ => rfl⟩

theorem getElem?_accessor (hn : (x :: ns)[k]? = some n) (outer : List Frame) (ψ : Phase) :
    ∃ e : Frame, ({ node := x, phase := ψ } :: (ns.map Frame.applied ++ outer))[k]? = some e ∧
      e.node = n ∧ e.gathered = none := by
  cases k with
  | zero => exact ⟨_, rfl, Option.some.inj hn, rfl⟩
  | succ k =>
    have hn : ns[k]? = some n := hn
    have hlt : k < ns.length := (List.getElem?_eq_some_iff.1 hn).1
    refine ⟨.applied n, ?_, rfl, rfl⟩
    rw [List.getElem?_cons_succ, List.getElem?_append_left (by simpa using hlt),
      List.getElem?_map, hn]
    rfl

/-- The accessor at `k`, and what is kept with it. -/
theorem getElem?_asking (hn : (x :: ns)[k]? = some n) (outer : List Frame) (ψ : Phase)
    (g : Option Gathered) :
    ∃ e, (asking x ns outer k ψ g)[k]? = some e ∧ e.node = n ∧ e.gathered = g ∧
      ∀ g', (asking x ns outer k ψ g).set k { e with gathered := g' } =
        asking x ns outer k ψ g' := by
  obtain ⟨e, he, hnode, -⟩ := getElem?_accessor hn outer ψ
  have he' : (asking x ns outer k ψ g)[k]? = some { e with gathered := g } := by
    rw [asking, List.getElem?_modify_eq, he]
    rfl
  refine ⟨{ e with gathered := g }, he', hnode, rfl, fun g' => ?_⟩
  rw [set_eq_modify (fun f => { f with gathered := g' }) he', asking, List.modify_modify_eq]
  rfl

/-- Nothing is kept before anything has been gathered. -/
theorem asking_none (hn : (x :: ns)[k]? = some n) (outer : List Frame) (ψ : Phase) :
    asking x ns outer k ψ none = { node := x, phase := ψ } :: (ns.map Frame.applied ++ outer) := by
  obtain ⟨e, he, -, hg⟩ := getElem?_accessor hn outer ψ
  have hself : { e with gathered := none } = e := by rw [← hg]
  rw [asking, ← set_eq_modify (fun f => { f with gathered := none }) he, hself]
  obtain ⟨hlt, rfl⟩ := List.getElem?_eq_some_iff.1 he
  exact List.set_getElem_self hlt

theorem result_of_mem_asking (hk : k ≤ ns.length) :
    ∀ f ∈ (asking x ns outer k ψ g).take k, f.result = none := by
  intro f hf
  rw [asking, List.take_modify, List.modify_eq_self (List.length_take_le _ _), ← List.cons_append,
    List.take_append_of_le_length (by simpa using Nat.le_succ_of_le hk)] at hf
  rcases List.mem_cons.1 (List.mem_of_mem_take hf) with rfl | hf
  · rfl
  · obtain ⟨n, -, rfl⟩ := List.mem_map.1 hf
    rfl

end

namespace Machine

variable {m m' m₁ : Machine} {φ φ' : Focus} {S : Node → Prop} {x a n : Node} {ns as bs : List Node}
  {outer : List Frame} {h k : Nat} {ψ : Phase} {g : Option Gathered} {v w : Value}
  {vs ws : List Value} {r : Host.Rule} {rules rest : List Host.Rule} {s s' : Machine × Progress}

/-- The machine with other frames. -/
def withFrames (m : Machine) (fs : List Frame) : Machine :=
  { m with frames := fs }

@[simp]
theorem withFrames_frames (m : Machine) (fs : List Frame) : (m.withFrames fs).frames = fs := rfl

/-- A frame without variables of its own ends. -/
theorem finish_of_bare {f : Frame} {fs : List Frame} (hf : m.frames = f :: fs)
    (hψ : f.phase.isBare = true) (v : Value) :
    m.finish v = (m.withFrames fs, .running (.give v)) := by
  have hleave : m.cells.leave f = m.cells := by
    rw [Cells.leave, Frame.ownVariables_of_isBare hψ]
    rfl
  simp only [finish, hf, hleave]
  rfl

theorem links_of_nodes (hn : m'.frames.map Frame.node = m.frames.map Frame.node) :
    m'.links = m.links := by
  have hlen : m'.frames.length = m.frames.length := by simpa using congrArg List.length hn
  have hchain := map_node_accessorChain hn
  have hlinks : ∀ m : Machine, m.links = ((accessorChain m.frames).map Frame.node).mapIdx
      fun i n => ⟨m.frames.length - 1 - i, n⟩ := fun m => by
    refine List.ext_getElem? fun i => ?_
    rw [links, List.getElem?_mapIdx, List.getElem?_mapIdx, List.getElem?_map, Option.map_map]
    rfl
  rw [hlinks, hlinks, hlen, hchain]

/-! ## Going on from a step -/

/-- A step that ends so goes on to the given moment, and on the way the given nodes are entered with
at most `h` frames. -/
def Arrives (h : Nat) (as : List Node) (s : Machine × Progress) (m : Machine) (φ : Focus) : Prop :=
  ∃ φ₁, s.2.next? = some φ₁ ∧ Course h as s.1 φ₁ m φ

theorem Arrives.refl (h : Nat) (m : Machine) (φ : Focus) : Arrives h [] (m, .running φ) m φ :=
  ⟨φ, rfl, .refl m φ⟩

theorem Arrives.trans (hs : Arrives h as s m φ) (hc : Course h bs m φ m' φ') :
    Arrives h (as ++ bs) s m' φ' := by
  obtain ⟨φ₁, hn, hc₁⟩ := hs
  exact ⟨φ₁, hn, hc₁.trans hc⟩

/-- To give a value is to enter no node. -/
theorem Arrives.course (hs : Arrives h as (m.step (.give v)) m' φ') :
    Course h as m (.give v) m' φ' := by
  obtain ⟨φ₁, hn, hc⟩ := hs
  exact Course.step hn hc

/-! ## Results -/

/-- The step ends the top frame with the value `w`, which is also the result of the first `k` of the
accessors `ns`; those after them and `outer` are as they were. The machine is otherwise `m`. -/
def Resolved (ns : List Node) (k : Nat) (outer : List Frame) (s : Machine × Progress) (m : Machine)
    (w : Value) : Prop :=
  ∃ fs, fs.map Frame.node = ns.take k ∧ (∀ f ∈ fs, f.phase = .accessed ∧ f.result = some w) ∧
    s = (m.withFrames (fs ++ ((ns.drop k).map Frame.applied ++ outer)), .running (.give w))

/-- The value `w` becomes the result of the top frame and of the first `k` of the accessors `ns`.
They end one after the other, the machine otherwise being `m`, and then the value is on its way to
those after them. Until then the nodes `as` are entered with at most `h` frames. -/
def Settles (h : Nat) (as ns : List Node) (k : Nat) (outer : List Frame) (s : Machine × Progress)
    (m : Machine) (w : Value) : Prop :=
  ∀ i ≤ k, ∃ fs, fs.map Frame.node = (ns.take k).drop i ∧
    (∀ f ∈ fs, f.phase = .accessed ∧ f.result = some w) ∧
    Arrives h as s (m.withFrames (fs ++ ((ns.drop k).map Frame.applied ++ outer))) (.give w)

/-- A value on its way ends the frames that have it as their result, one after the other. -/
theorem course_settled {fs : List Frame} (hfs : ∀ f ∈ fs, f.phase = .accessed ∧ f.result = some w)
    (h : Nat) (gs : List Frame) (m : Machine) (i : Nat) :
    Course h [] (m.withFrames (fs ++ gs)) (.give w) (m.withFrames (fs.drop i ++ gs)) (.give w) := by
  induction fs generalizing i with
  | nil =>
    rw [List.drop_nil]
    exact .refl _ _
  | cons f fs ih =>
    cases i with
    | zero => exact .refl _ _
    | succ i =>
      obtain ⟨hφ, hr⟩ := hfs f List.mem_cons_self
      have hs : (m.withFrames (f :: fs ++ gs)).step (.give w) =
          (m.withFrames (fs ++ gs), .running (.give w)) := by
        show Machine.receive _ f w = _
        rw [receive_of_result hφ hr, finish_of_bare rfl (by rw [hφ]; rfl)]
        rfl
      exact (Course.single hs).trans (ih (fun f hf => hfs f (List.mem_cons_of_mem _ hf)) i)

theorem Resolved.settles (hs : Resolved ns k outer s m w) (h : Nat) :
    Settles h [] ns k outer s m w := by
  obtain ⟨fs, hn, hfs, rfl⟩ := hs
  intro i _
  refine ⟨fs.drop i, ?_, fun f hf => hfs f (List.mem_of_mem_drop hf), ?_⟩
  · rw [List.map_drop, hn]
  · exact (Arrives.refl h _ _).trans (course_settled hfs h _ m i)

/-- The value comes to the accessor outside of the one reached. -/
theorem Settles.arrives (hs : Settles h as ns k outer s m w) (hn : ns[k]? = some n) :
    Arrives h as s (m.withFrames ((n :: ns.drop (k + 1)).map Frame.applied ++ outer))
      (.give w) := by
  obtain ⟨fs, hnodes, -, harrives⟩ := hs k (Nat.le_refl k)
  rw [List.drop_take_self, List.map_eq_nil_iff] at hnodes
  obtain ⟨hlt, rfl⟩ := List.getElem?_eq_some_iff.1 hn
  rwa [hnodes, List.nil_append, List.drop_eq_getElem_cons hlt] at harrives

theorem Settles.after (as : List Node)
    (hback : ∀ {m φ}, Arrives h bs s m φ → Arrives h (as ++ bs) s' m φ)
    (hs : Settles h bs ns k outer s m w) : Settles h (as ++ bs) ns k outer s' m w := by
  intro i hi
  obtain ⟨fs, hnodes, hfs, harrives⟩ := hs i hi
  exact ⟨fs, hnodes, hfs, hback harrives⟩

/-- The frames of the machine have no part in it. -/
theorem Settles.congr (hm : ∀ fs, m.withFrames fs = m'.withFrames fs)
    (hs : Settles h as ns k outer s m w) : Settles h as ns k outer s m' w := by
  simpa only [Settles, hm] using hs

/-- **A result that is set** ends the frame that asks, and is that of the accessors up to the one
reached. -/
theorem resolved_setResult (hf : m.frames = asking x ns outer k ψ g) (hψ : ψ.isBare = true)
    (hl : m.links.map (·.node) = x :: ns) (hk : k ≤ ns.length) (w u : Value) :
    Resolved ns k outer ((m.setResult k w).finishResolved u) m w := by
  obtain ⟨g₀, gs, hcons⟩ := asking_eq_cons x ns outer k g
  have hframes : m.frames = { node := x, phase := ψ, gathered := g₀ } :: gs :=
    hf.trans (hcons ψ)
  have hchain : k < (accessorChain m.frames).length := by
    have := congrArg List.length hl
    rw [map_node_links, List.length_map, List.length_cons] at this
    omega
  have hnone : ∀ f ∈ m.frames.take k, f.result = none := by
    rw [hf]
    exact result_of_mem_asking hk
  have hdrop : gs.drop k = (ns.drop k).map Frame.applied ++ outer := by
    rw [← drop_asking hk, hcons ψ]
    rfl
  have hcores : (gs.take k).map Frame.core = (ns.take k).map fun n => (n, .accessed) := by
    have hc := map_core_asking x ns outer k ψ g
    rw [hcons, List.map_cons] at hc
    rw [List.map_take, (List.cons.inj hc).2, ← List.map_take,
      List.take_append_of_le_length (by simpa using hk), ← List.map_take, List.map_map]
    rfl
  have hset : (m.setResult k w).frames =
      { node := x, phase := ψ, result := some w, gathered := g₀ } ::
        ((gs.take k).map (Frame.withResult w) ++ ((ns.drop k).map Frame.applied ++ outer)) := by
    show Steppable.setResult w k m.frames = _
    rw [setResult_eq w hchain hnone, hframes, List.take_succ_cons, List.drop_succ_cons, hdrop]
    rfl
  refine ⟨(gs.take k).map (Frame.withResult w), ?_, fun f hf => ?_, ?_⟩
  · have := congrArg (List.map Prod.fst) hcores
    rw [List.map_map, List.map_map] at this
    rw [List.map_map]
    exact this.trans (List.map_id _)
  · obtain ⟨e, he, rfl⟩ := List.mem_map.1 hf
    have hc : e.core ∈ (ns.take k).map fun n => (n, Phase.accessed) :=
      hcores ▸ List.mem_map_of_mem he
    obtain ⟨n, -, hc⟩ := List.mem_map.1 hc
    exact ⟨(congrArg Prod.snd hc).symm, rfl⟩
  · rw [finishResolved, hset]
    exact finish_of_bare hset hψ w

/-! ## A frame that asks -/

/-- The machine holds what belongs to a program, and its frames are those of an accessor `x` that
asks and of the accessors `ns` that are applied to it. -/
structure Seated (S : Node → Prop) (m : Machine) (x : Node) (ns : List Node) (outer : List Frame)
    (k : Nat) (ψ : Phase) (g : Option Gathered) : Prop where
  frames : m.frames = asking x ns outer k ψ g
  bare : ψ.isBare = true
  barred : Barred outer
  held : (programCustody S).Machines m
  expects : Expects ((ns.map Frame.applied ++ outer).map Frame.core) x

namespace Seated

theorem length_eq (hm : Seated S m x ns outer k ψ g) :
    m.frames.length = (ns.map Frame.applied ++ outer).length + 1 := by
  rw [hm.frames, length_asking]

theorem cores_eq (hm : Seated S m x ns outer k ψ g) :
    m.cores = (x, ψ) :: (ns.map Frame.applied ++ outer).map Frame.core := by
  rw [cores, hm.frames]
  exact map_core_asking x ns outer k ψ g

/-- The accessors that a rule sees are those that are applied to one another. -/
theorem links_node (hP : Program S) (hm : Seated S m x ns outer k ψ g) :
    m.links.map (·.node) = x :: ns := by
  have htop : (outer.map Frame.core).takeWhile (·.2.isAccessed) = [] := by
    cases outer with
    | nil => rfl
    | cons f outer =>
      have hf : f.phase.isAccessed = false := hm.barred f rfl
      rw [List.map_cons, List.takeWhile_cons]
      simp [Frame.core, hf]
  have happlied : accessing ((ns.map Frame.applied ++ outer).map Frame.core) =
      ns.map fun n => (n, .accessed) := by
    rw [accessing, List.map_append, List.takeWhile_append_of_pos (by simp [Frame.core,
      Frame.applied, Phase.isAccessed]), htop, List.append_nil, List.map_map]
    rfl
  rw [links_node_eq hP (ofProgram_of_machines hm.held) hm.cores_eq hm.expects, happlied,
    List.map_map]
  simp [Function.comp_def]

/-- Whatever is kept, the links are the same. -/
theorem links_eq {ψ' : Phase} {g' : Option Gathered} (hm : Seated S m x ns outer k ψ g)
    (hf : m'.frames = asking x ns outer k ψ' g') : m'.links = m.links := by
  refine links_of_nodes ?_
  rw [hm.frames, hf, map_node_asking, map_node_asking]

/-- What comes out of asking leaves the frames waiting for one another. -/
theorem aligned (hP : Program S) (hm : Seated S m x ns outer k ψ g)
    (hr : ∀ q ∈ rules, (programCustody S).rules q)
    (hn : (consult x rules m).2.next? = some φ) : Aligned S (consult x rules m).1 φ :=
  have hlead := (Custody.hands_consult (programCustody_lawful hP) x hr hm.held).1
  ⟨⟨hlead.1, hlead.2 φ hn⟩, poised_consult hP (ofProgram_of_machines hm.held) hm.cores_eq hm.expects
    x rules φ hn⟩

end Seated

/-- The rule `r` is for a chain of accessors, of which it has reached `n`; the rules `rest` come
after it. -/
structure Chosen (S : Node → Prop) (x : Node) (ns : List Node) (r : Host.Rule)
    (rest : List Host.Rule) (n : Node) : Prop where
  reach : r.reach? (x :: ns) = some r.path.length
  reached : (x :: ns)[r.path.length]? = some n
  resolves : r.Resolves
  native : ∀ q ∈ r :: rest, (programCustody S).rules q

theorem Chosen.le_length (hr : Chosen S x ns r rest n) : r.path.length ≤ ns.length :=
  Nat.le_of_lt_succ (List.getElem?_eq_some_iff.1 hr.reached).1

/-- The frames while the argument after `vs` is evaluated for the rule `r` and the accessor `n`. -/
def awaiting (x : Node) (ns : List Node) (outer : List Frame) (r : Host.Rule)
    (rest : List Host.Rule) (n : Node) (vs : List Value) : List Frame :=
  asking x ns outer r.path.length (.asking r.path.length (r :: rest))
    (some ⟨(r.ending.asked n).length, vs⟩)

theorem awaiting_eq_cons (x : Node) (ns : List Node) (outer : List Frame) (r : Host.Rule)
    (rest : List Host.Rule) (n : Node) (vs : List Value) :
    ∃ g₀ fs, awaiting x ns outer r rest n vs =
      { node := x, phase := .asking r.path.length (r :: rest), gathered := g₀ } :: fs := by
  obtain ⟨g₀, fs, h⟩ := asking_eq_cons x ns outer r.path.length
    (some ⟨(r.ending.asked n).length, vs⟩)
  exact ⟨g₀, fs, h _⟩

/-- A frame that asks does not wait for what it is applied to. -/
theorem barred_awaiting (x : Node) (ns : List Node) (outer : List Frame) (r : Host.Rule)
    (rest : List Host.Rule) (n : Node) (vs : List Value) :
    Barred (awaiting x ns outer r rest n vs) := by
  obtain ⟨g₀, gs, hcons⟩ := awaiting_eq_cons x ns outer r rest n vs
  rw [hcons]
  intro b hb
  obtain rfl := Option.some.inj hb
  rfl

/-- The frame asks for the rule `r`, which has reached `n`: the values `vs` have been gathered, and
the arguments `later` are still to be evaluated. -/
structure Gathering (S : Node → Prop) (m : Machine) (x : Node) (ns : List Node) (outer : List Frame)
    (r : Host.Rule) (n : Node) (ψ : Phase) (g : Option Gathered) (vs : List Value)
    (later : List Node) : Prop where
  seated : Seated S m x ns outer r.path.length ψ g
  kept : g.getD ⟨(r.ending.asked n).length, []⟩ = ⟨(r.ending.asked n).length, vs⟩
  bound : vs.length ≤ (r.ending.asked n).length
  later : (r.ending.asked n).drop vs.length = later

theorem Gathering.reach (hP : Program S) (hr : Chosen S x ns r rest n)
    (hm : Gathering S m x ns outer r n ψ g vs as) :
    r.reach? (m.links.map (·.node)) = some r.path.length := by
  rw [hm.seated.links_node hP]
  exact hr.reach

/-- The next argument for the rule is looked up, and what has been gathered is noted. -/
theorem Gathering.prepare (hr : Chosen S x ns r rest n)
    (hm : Gathering S m x ns outer r n ψ g vs as) :
    ∃ g', m.prepare r r.path.length =
        (vs, as.head?, m.withFrames (asking x ns outer r.path.length ψ g')) ∧
      (as ≠ [] → g' = some ⟨(r.ending.asked n).length, vs⟩) := by
  obtain ⟨hm, hg, hv, rfl⟩ := hm
  rw [List.head?_drop]
  obtain ⟨e, he, rfl, rfl, hset⟩ := getElem?_asking hr.reached outer ψ g
  rw [← hm.frames] at he hset
  cases harity : r.ending.arity? with
  | none =>
    have hasked : r.ending.asked e.node = [] := by
      rw [Host.Ending.asked, harity]
      rfl
    rw [hasked] at hv ⊢
    obtain rfl := List.length_eq_zero_iff.1 (Nat.le_zero.1 hv)
    refine ⟨e.gathered, ?_, by simp⟩
    rw [← hm.frames]
    simp only [Machine.prepare, harity]
    rfl
  | some arity =>
    have hasked : r.ending.asked e.node = e.node.arguments.take arity := by
      rw [Host.Ending.asked, harity]
      rfl
    have hwanted : (r.ending.asked e.node).length = min arity e.node.arguments.length := by
      rw [hasked, List.length_take]
    have hfor : e.gatheredFor arity = ⟨(r.ending.asked e.node).length, vs⟩ := by
      rw [← hg, hwanted]
      rfl
    have htake : e.node.arguments.take (r.ending.asked e.node).length = r.ending.asked e.node := by
      rw [hwanted, hasked, ← List.take_eq_take_min]
    refine ⟨some ⟨(r.ending.asked e.node).length, vs⟩, ?_, fun _ => rfl⟩
    rw [prepare_eq harity he hfor, htake, hset]
    rfl

/-! ## The next argument -/

/-- **The next argument is asked for.** -/
theorem Gathering.consult_next (hP : Program S) (hr : Chosen S x ns r rest n)
    (hm : Gathering S m x ns outer r n ψ g vs (a :: as)) :
    consult x (r :: rest) m =
      (m.withFrames (awaiting x ns outer r rest n vs), .running (.enter a)) := by
  obtain ⟨g', hprep, hg'⟩ := hm.prepare hr
  obtain rfl := hg' (List.cons_ne_nil a as)
  obtain ⟨g₀, gs, hcons⟩ := asking_eq_cons x ns outer r.path.length
    (some ⟨(r.ending.asked n).length, vs⟩)
  rw [consult_ask (hm.reach hP hr) hprep, awaiting, hcons, hcons]
  rfl

/-- The value of the argument goes to the frame that asked for it. -/
theorem step_of_awaiting (hf : m.frames = awaiting x ns outer r rest n vs) (v : Value) :
    m.step (.give v) = m.receiveArgument x r.path.length (r :: rest) v := by
  obtain ⟨g₀, gs, hcons⟩ := awaiting_eq_cons x ns outer r rest n vs
  rw [hcons] at hf
  rw [step, hf]
  rfl

theorem addArgument_of_awaiting (hf : m.frames = awaiting x ns outer r rest n vs) (v : Value) :
    m.addArgument r.path.length v = m.withFrames (awaiting x ns outer r rest n (vs ++ [v])) := by
  rw [addArgument, hf, awaiting, asking, List.modify_modify_eq]
  rfl

/-- What is below a frame that asks waits for it. -/
theorem Aligned.seated (hf : m.frames = awaiting x ns outer r rest n vs) (hbar : Barred outer)
    (ha : Aligned S m φ) :
    Seated S m x ns outer r.path.length (.asking r.path.length (r :: rest))
      (some ⟨(r.ending.asked n).length, vs⟩) := by
  obtain ⟨g₀, gs, hcons⟩ := awaiting_eq_cons x ns outer r rest n vs
  have hcores := map_core_asking x ns outer r.path.length (.asking r.path.length (r :: rest))
    (some ⟨(r.ending.asked n).length, vs⟩)
  have hgs : gs.map Frame.core = (ns.map Frame.applied ++ outer).map Frame.core := by
    rw [← awaiting, hcons, List.map_cons] at hcores
    exact (List.cons.inj hcores).2
  exact ⟨hf, rfl, hbar, ha.held.1, hgs ▸ ha.poised.expects (hf.trans hcons)⟩

/-- **An argument has come back**: the frame asks again, with one value more. -/
theorem step_of_argument (hf : m.frames = awaiting x ns outer r rest n vs) (hbar : Barred outer)
    (ha : Aligned S m (.give v)) (hlater : (r.ending.asked n).drop vs.length = a :: as)
    (hplain : (m.cells.deref v).isAbrupt = false) :
    m.step (.give v) = consult x (r :: rest)
        (m.withFrames (awaiting x ns outer r rest n (vs ++ [m.cells.deref v]))) ∧
      Gathering S (m.withFrames (awaiting x ns outer r rest n (vs ++ [m.cells.deref v]))) x ns outer
        r n (.asking r.path.length (r :: rest))
        (some ⟨(r.ending.asked n).length, vs ++ [m.cells.deref v]⟩)
        (vs ++ [m.cells.deref v]) as := by
  have hadd := addArgument_of_awaiting hf (m.cells.deref v)
  have hheld := Custody.machines_addArgument ha.held.1 r.path.length (ha.held.1.deref ha.held.2)
  rw [hadd] at hheld
  have hnext : (r.ending.asked n).drop (vs.length + 1) = as := by
    rw [← List.tail_drop, hlater]
    rfl
  have hbound : vs.length + 1 ≤ (r.ending.asked n).length := by
    have := congrArg List.length hlater
    rw [List.length_drop, List.length_cons] at this
    omega
  refine ⟨?_, ⟨rfl, rfl, hbar, hheld, (ha.seated hf hbar).expects⟩, rfl, ?_, ?_⟩
  · rw [step_of_awaiting hf, receiveArgument, if_neg (by simp [hplain]), hadd]
  · simpa using hbound
  · simpa using hnext

/-- **An argument that is abrupt** becomes the result in place of an answer. -/
theorem resolved_of_abrupt (hP : Program S) (hr : Chosen S x ns r rest n)
    (hf : m.frames = awaiting x ns outer r rest n vs) (hbar : Barred outer)
    (ha : Aligned S m (.give v)) (habrupt : (m.cells.deref v).isAbrupt = true) :
    Resolved ns r.path.length outer (m.step (.give v)) m (m.cells.deref v) := by
  rw [step_of_awaiting hf, receiveArgument, if_pos habrupt]
  exact resolved_setResult hf rfl ((ha.seated hf hbar).links_node hP) hr.le_length _ _

/-- **An argument is evaluated**, and the machine is left where it was except for the value. -/
theorem Gathering.evaluated (hP : Program S) (hr : Chosen S x ns r rest n)
    (hm : Gathering S m x ns outer r n ψ g vs (a :: as))
    (hv : Evaluates (m.withFrames (awaiting x ns outer r rest n vs)) a v m₁) :
    Arrives m.frames.length [a] (consult x (r :: rest) m) m₁ (.give v) ∧
      m₁.frames = awaiting x ns outer r rest n vs ∧ Aligned S m₁ (.give v) := by
  have hnext := hm.consult_next hP hr
  have haligned : Aligned S (m.withFrames (awaiting x ns outer r rest n vs)) (.enter a) := by
    have := hm.seated.aligned (φ := .enter a) hP hr.native (by rw [hnext]; rfl)
    rwa [hnext] at this
  obtain ⟨hcourse, hframes, haligned₁⟩ := hv.course hP (barred_awaiting _ _ _ _ _ _ _) haligned
  have hlen : (m.withFrames (awaiting x ns outer r rest n vs)).frames.length = m.frames.length := by
    rw [withFrames_frames, awaiting, hm.seated.frames, length_asking, length_asking]
  rw [hlen] at hcourse
  rw [hnext]
  exact ⟨(Arrives.refl _ _ _).trans hcourse, hframes, haligned₁⟩

/-- **An argument has been gathered**: the frame asks again, and the next one is looked up. -/
theorem Gathering.gathered (hP : Program S) (hr : Chosen S x ns r rest n)
    (hm : Gathering S m x ns outer r n ψ g vs (a :: as))
    (hv : Evaluates (m.withFrames (awaiting x ns outer r rest n vs)) a v m₁)
    (hplain : (m₁.cells.deref v).isAbrupt = false) :
    Gathering S (m₁.withFrames (awaiting x ns outer r rest n (vs ++ [m₁.cells.deref v]))) x ns outer
        r n (.asking r.path.length (r :: rest))
        (some ⟨(r.ending.asked n).length, vs ++ [m₁.cells.deref v]⟩) (vs ++ [m₁.cells.deref v]) as ∧
      ∀ {bs m' φ'}, Arrives m.frames.length bs (consult x (r :: rest)
          (m₁.withFrames (awaiting x ns outer r rest n (vs ++ [m₁.cells.deref v])))) m' φ' →
        Arrives m.frames.length (a :: bs) (consult x (r :: rest) m) m' φ' := by
  obtain ⟨harrives, hframes, haligned⟩ := hm.evaluated hP hr hv
  obtain ⟨hstep, hm₁⟩ := step_of_argument hframes hm.seated.barred haligned hm.later hplain
  exact ⟨hm₁, fun hs => harrives.trans (Arrives.course (hstep ▸ hs))⟩

/-- An argument that is abrupt settles the accessors up to the one reached. -/
theorem Gathering.refused (hP : Program S) (hr : Chosen S x ns r rest n)
    (hm : Gathering S m x ns outer r n ψ g vs (a :: as))
    (hv : Evaluates (m.withFrames (awaiting x ns outer r rest n vs)) a v m₁)
    (habrupt : (m₁.cells.deref v).isAbrupt = true) :
    Settles m.frames.length [a] ns r.path.length outer (consult x (r :: rest) m) m₁
      (m₁.cells.deref v) := by
  obtain ⟨harrives, hframes, haligned⟩ := hm.evaluated hP hr hv
  have hs := resolved_of_abrupt hP hr hframes hm.seated.barred haligned habrupt
  exact (hs.settles m.frames.length).after [a] fun h => harrives.trans (Arrives.course h)

/-! ## All arguments -/

/-- The machine is `m` when `vs` has been gathered, evaluates the nodes `as` in order, each on top
of the frames `stack`, gathers their values and is then `m'`. -/
inductive Collects (stack : List Value → List Frame) :
    Machine → List Value → List Node → List Value → Machine → Prop
  | done (m : Machine) (vs : List Value) : Collects stack m vs [] vs m
  | next {m m₁ m' : Machine} {a : Node} {v : Value} {as : List Node} {vs ws : List Value} :
      Evaluates (m.withFrames (stack vs)) a v m₁ → (m₁.cells.deref v).isAbrupt = false →
      Collects stack m₁ (vs ++ [m₁.cells.deref v]) as ws m' →
      Collects stack m vs (a :: as) ws m'

/-- **While arguments are gathered** nothing else is entered, and the same frame asks again. -/
theorem Gathering.collects {later : List Node} (hP : Program S) (hr : Chosen S x ns r rest n)
    (hm : Gathering S (m.withFrames (asking x ns outer r.path.length ψ g)) x ns outer r n ψ g vs
      (as ++ later))
    (hc : Collects (awaiting x ns outer r rest n) m vs as ws m') :
    ∃ ψ' g', Gathering S (m'.withFrames (asking x ns outer r.path.length ψ' g')) x ns outer r n
        ψ' g' ws later ∧
      ∀ {bs m₁ φ}, Arrives ((ns.map Frame.applied ++ outer).length + 1) bs
          (consult x (r :: rest) (m'.withFrames (asking x ns outer r.path.length ψ' g'))) m₁ φ →
        Arrives ((ns.map Frame.applied ++ outer).length + 1) (as ++ bs)
          (consult x (r :: rest) (m.withFrames (asking x ns outer r.path.length ψ g))) m₁ φ := by
  induction hc generalizing ψ g with
  | done => exact ⟨ψ, g, hm, id⟩
  | next heval hplain _ ih =>
    obtain ⟨hm₁, hback⟩ := hm.gathered hP hr heval hplain
    rw [hm.seated.length_eq] at hback
    obtain ⟨ψ', g', hm', hback'⟩ := ih hm₁
    exact ⟨ψ', g', hm', fun hs => hback (hback' hs)⟩

/-! ## The answer -/

/-- The handler of the rule `r` is called once, with the request `q`, and sets `v` as the value of
the accessor `n`. -/
inductive Answered (m : Machine) (r : Host.Rule) (q : Host.Request) (n : Node) :
    Value → Machine → Prop
  | value {v : Value} {record : Host.Record} : r.handler q m.record = (.value v, record) →
      Answered m r q n v { m with record, calls := ⟨r, q⟩ :: m.calls }
  | anew {v : Value} {record : Host.Record} : r.handler q m.record = (.anew v, record) →
      Answered m r q n (v.renewed m.next)
        { m with record, calls := ⟨r, q⟩ :: m.calls, next := m.next + 1 }
  | fail {message : String} {record : Host.Record} :
      r.handler q m.record = (.fail message, record) →
      Answered m r q n (fault { m with record, calls := ⟨r, q⟩ :: m.calls } n message).1
        (fault { m with record, calls := ⟨r, q⟩ :: m.calls } n message).2

/-- The frames have no part in what the handler sets. -/
theorem Answered.of_withFrames {fs : List Frame} {q : Host.Request}
    (ha : Answered (m.withFrames fs) r q n v m₁) :
    ∃ m', Answered m r q n v m' ∧ ∀ gs, m₁.withFrames gs = m'.withFrames gs := by
  cases ha with
  | value hq => exact ⟨_, .value hq, fun _ => rfl⟩
  | anew hq => exact ⟨_, .anew hq, fun _ => rfl⟩
  | fail hq => exact ⟨_, .fail hq, fun _ => rfl⟩

/-- A handler that resolves sets a value. -/
theorem answer_of_resolves {fs : List Frame} {e : Frame} (hr : r.Resolves) (he : fs[k]? = some e)
    (m : Machine) (vs : List Value) :
    ∃ w m', Answered m r ⟨vs, (m.withFrames fs).links.take (k + 1)⟩ e.node w m' ∧
      (m.withFrames fs).answer r k vs = (some w, (m'.withFrames fs).setResult k w) := by
  have hres := hr ⟨vs, (m.withFrames fs).links.take (k + 1)⟩ m.record
  rcases hq : r.handler ⟨vs, (m.withFrames fs).links.take (k + 1)⟩ m.record with ⟨a, record⟩
  have hq' : r.handler ⟨vs, (m.withFrames fs).links.take (k + 1)⟩ (m.withFrames fs).record =
      (a, record) := hq
  rw [hq] at hres
  cases a with
  | value v =>
    refine ⟨_, _, .value hq, ?_⟩
    simp only [answer, hq']
    rfl
  | anew v =>
    refine ⟨_, _, .anew hq, ?_⟩
    simp only [answer, hq']
    rfl
  | fail message =>
    refine ⟨_, _, .fail hq, ?_⟩
    simp only [answer, hq', setFault, withFrames_frames, he]
    rfl
  | failAndPass | decline => simp [Host.Answer.resolves] at hres

/-- **The handler is called** when all its arguments are there, and its answer settles the accessors
up to the one reached. -/
theorem Gathering.consult_last (hP : Program S) (hr : Chosen S x ns r rest n)
    (hm : Gathering S m x ns outer r n ψ g vs []) :
    ∃ w m', Answered m r ⟨vs, m.links.take (r.path.length + 1)⟩ n w m' ∧
      Resolved ns r.path.length outer (consult x (r :: rest) m) m' w := by
  obtain ⟨g', hprep, -⟩ := hm.prepare hr
  obtain ⟨e, he, rfl, -, -⟩ := getElem?_asking hr.reached outer ψ g'
  obtain ⟨w, m', ha, hanswer⟩ := answer_of_resolves hr.resolves he m vs
  have hlinks : ∀ m₀ : Machine,
      (m₀.withFrames (asking x ns outer r.path.length ψ g')).links = m.links := fun _ =>
    hm.seated.links_eq rfl
  have hnodes := (congrArg (List.map (·.node)) (hlinks m')).trans (hm.seated.links_node hP)
  rw [hlinks] at ha
  refine ⟨w, m', ha, ?_⟩
  rw [consult_answer (hm.reach hP hr) hprep hanswer]
  exact resolved_setResult rfl hm.seated.bare hnodes hr.le_length w w

end Machine

end Steppable
