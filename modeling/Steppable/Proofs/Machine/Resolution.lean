import Steppable.Proofs.Machine.Waiting

/-!
# Results and questions

A host that always resolves what it is asked about gives its answer to the accessor reached and to
every accessor between; these frames then end one after the other, so outside of that no frame has a
result (`Results`). A name that waits for an argument of its host stands at the first rule that
reaches, with the next argument still to come (`Question`).

So when an evaluation is stopped, no frame has a result to end with and every question that is put
again leads to the same argument: to take up the evaluation changes nothing
(`resumption_eq_of_calm`).
-/

namespace Steppable

/-! ## Hosts that resolve -/

/-- Whether the answer settles the accessor it is given for. -/
def Host.Answer.resolves : Host.Answer → Bool
  | .value _ | .anew _ | .fail _ => true
  | .failAndPass _ | .decline => false

/-- The handler always settles the accessor that the rule has reached. -/
def Host.Rule.Resolves (r : Host.Rule) : Prop :=
  ∀ q record, (r.handler q record).1.resolves = true

theorem Host.resolves_members (v : Value) : ∀ r ∈ Host.members v, r.Resolves := by
  have htext : ∀ x as, (Host.numberText x as).resolves = true := by
    intro x as
    unfold Host.numberText
    cases as with
    | nil => rfl
    | cons a as =>
      dsimp only
      split <;> rfl
  intro r hr q record
  cases v with
  | number x =>
    simp only [Host.members, List.mem_singleton] at hr
    subst hr
    exact htext x q.arguments
  | string s =>
    simp only [Host.members, List.mem_cons, List.not_mem_nil, or_false] at hr
    rcases hr with rfl | rfl | rfl <;> rfl
  | boolean b =>
    simp only [Host.members, List.mem_singleton] at hr
    subst hr
    rfl
  | date ms =>
    simp only [Host.members, List.mem_singleton] at hr
    subst hr
    rfl
  | error e =>
    simp only [Host.members, List.mem_singleton] at hr
    subst hr
    rfl
  | undefined | null | function | signal | reference => simp [Host.members] at hr

theorem Host.resolves_standard : ∀ r ∈ Host.standard, r.Resolves := by
  intro r hr q record
  simp only [Host.standard, List.mem_cons, List.not_mem_nil, or_false] at hr
  rcases hr with rfl | rfl | rfl | rfl
  · rfl
  · rfl
  · rfl
  · show (Host.dateOf q.arguments).resolves = true
    unfold Host.dateOf
    split <;> rfl

/-! ## Hosts that do not change their mind -/

/-- What the handler remembers has no part in the rules that the host goes by. -/
def Host.Rule.Respects (host : Host) (r : Host.Rule) : Prop :=
  ∀ q record, host.rules (r.handler q record).2 = host.rules record

/-- The host goes by the same rules whatever its handlers have done. -/
def Host.Steady (host : Host) : Prop :=
  ∀ r ∈ host, r.Respects host

theorem Host.steady_always (rules : List Host.Rule) : Host.Steady rules :=
  fun _ _ _ _ => rfl

/-- The members of values remember nothing. -/
theorem Host.respects_members (host : Host) (v : Value) :
    ∀ r ∈ Host.members v, r.Respects host := by
  intro r hr q record
  cases v with
  | number | boolean | date | error =>
    simp only [Host.members, List.mem_singleton] at hr
    subst hr
    rfl
  | string =>
    simp only [Host.members, List.mem_cons, List.not_mem_nil, or_false] at hr
    rcases hr with rfl | rfl | rfl <;> rfl
  | undefined | null | function | signal | reference => simp [Host.members] at hr

/-! ## The accessors at the top of a stack -/

/-- Stacks that differ only in the accessors at the top that wait for what they are applied to are
alike in all that such accessors have no part in. -/
theorem accessed_induction {P : List Frame → List Frame → Prop} (same : ∀ fs, P fs fs)
    (accessed : ∀ {f g fs gs}, f.phase = .accessed → g.core = f.core → P gs fs →
      P (g :: gs) (f :: fs))
    {fs gs : List Frame} {k : Nat} (hc : gs.map Frame.core = fs.map Frame.core)
    (hk : k ≤ (accessing (fs.map Frame.core)).length) (hd : gs.drop k = fs.drop k) : P gs fs := by
  induction k generalizing fs gs with
  | zero =>
    rw [List.drop_zero, List.drop_zero] at hd
    exact hd ▸ same fs
  | succ k ih =>
    cases fs with
    | nil => simp [accessing] at hk
    | cons f fs =>
      cases gs with
      | nil => simp at hc
      | cons g gs =>
        obtain ⟨hfg, hc⟩ := List.cons.inj hc
        have hφ : f.phase = .accessed := by
          by_cases ha : f.phase.isAccessed = true
          · exact Phase.isAccessed_iff.1 ha
          · simp [accessing, Frame.core, ha] at hk
        have hk' : k ≤ (accessing (fs.map Frame.core)).length := by
          simpa [accessing, Frame.core, hφ, Phase.isAccessed] using hk
        exact accessed hφ hfg (ih hc hk' (by simpa using hd))

/-- What a host does to the accessors of the chain it is asked about leaves the top frame in place. -/
theorem frames_of_chain {f : Frame} {gs outer : List Frame} {k : Nat}
    (hc : gs.map Frame.core = (f :: outer).map Frame.core)
    (hd : gs.drop (k + 1) = (f :: outer).drop (k + 1)) :
    ∃ f₁ outer₁, gs = f₁ :: outer₁ ∧ f₁.core = f.core ∧
      outer₁.map Frame.core = outer.map Frame.core ∧ outer₁.drop k = outer.drop k := by
  cases gs with
  | nil => simp at hc
  | cons f₁ outer₁ =>
    obtain ⟨hf, hc⟩ := List.cons.inj hc
    exact ⟨f₁, outer₁, rfl, hf, hc, by simpa using hd⟩

/-- The phase of the top frame has no part in what has been gathered. -/
theorem exists_getElem?_phase {f g : Frame} {outer : List Frame} {k : Nat} (ψ : Phase)
    (h : (f :: outer)[k]? = some g) :
    ∃ g', ({ f with phase := ψ } :: outer)[k]? = some g' ∧ g'.node = g.node ∧
      g'.gathered = g.gathered := by
  cases k with
  | zero =>
    obtain rfl := Option.some.inj h
    exact ⟨_, rfl, rfl, rfl⟩
  | succ k => exact ⟨g, h, rfl, rfl⟩

/-! ## Results along a chain -/

/-- The frame with the result `v`. -/
def Frame.withResult (v : Value) (f : Frame) : Frame :=
  { f with result := some v }

theorem isOperandOf_of_lt_length {fs : List Frame} {k : Nat} {f g : Frame}
    (hk : k + 1 < (accessorChain fs).length) (hf : fs[k]? = some f) (hg : fs[k + 1]? = some g) :
    f.isOperandOf g = true := by
  induction fs generalizing k with
  | nil => simp at hf
  | cons e fs ih =>
    cases fs with
    | nil => simp at hg
    | cons e' fs =>
      rw [accessorChain] at hk
      split at hk
      · rename_i hop
        cases k with
        | zero =>
          obtain rfl := Option.some.inj hf
          obtain rfl := Option.some.inj hg
          exact hop
        | succ k => exact ih (by simpa using hk) (by simpa using hf) (by simpa using hg)
      · simp at hk

/-- A chain of accessors stands at the top of the stack. -/
theorem prefix_accessorChain (fs : List Frame) : accessorChain fs <+: fs := by
  induction fs with
  | nil => exact List.prefix_rfl
  | cons f fs ih =>
    cases fs with
    | nil => exact List.prefix_rfl
    | cons g fs =>
      rw [accessorChain]
      split
      · exact List.cons_prefix_cons.2 ⟨rfl, ih⟩
      · simp

theorem length_accessorChain_le (fs : List Frame) : (accessorChain fs).length ≤ fs.length :=
  (prefix_accessorChain fs).length_le

/-- Within a chain without results a result spreads to every frame inside. -/
theorem spreadResult_take {fs : List Frame} {k : Nat} {o : Frame} (v : Value)
    (hk : k < (accessorChain fs).length) (ho : fs[k]? = some o)
    (hr : ∀ f ∈ fs.take k, f.result = none) :
    spreadResult v o (fs.take k).reverse = ((fs.take k).map (Frame.withResult v)).reverse := by
  induction k generalizing o with
  | zero => rfl
  | succ k ih =>
    have hlt : k < fs.length := by
      have := length_accessorChain_le fs
      omega
    have hf : fs[k]? = some fs[k] := List.getElem?_eq_getElem hlt
    have htake : fs.take (k + 1) = fs.take k ++ [fs[k]] := by simp
    rw [htake] at hr ⊢
    have hnone : fs[k].result = none := hr _ (List.mem_append_right _ (List.mem_singleton_self _))
    have hinner := ih (by omega) hf fun f hm => hr f (List.mem_append_left _ hm)
    rw [List.map_append, List.reverse_append, List.reverse_append, ← hinner]
    simp only [List.reverse_singleton, List.singleton_append, spreadResult,
      isOperandOf_of_lt_length hk hf ho, hnone]
    rfl

/-- **A result given within a chain** is given to all frames up to the one reached. -/
theorem setResult_eq {fs : List Frame} {k : Nat} (v : Value) (hk : k < (accessorChain fs).length)
    (hr : ∀ f ∈ fs.take k, f.result = none) :
    setResult v k fs = (fs.take (k + 1)).map (Frame.withResult v) ++ fs.drop (k + 1) := by
  have hlt : k < fs.length := Nat.lt_of_lt_of_le hk (length_accessorChain_le fs)
  have hdrop : fs.drop k = fs[k] :: fs.drop (k + 1) := by simp
  have htake : fs.take (k + 1) = fs.take k ++ [fs[k]] := by simp
  rw [setResult, hdrop]
  dsimp only
  rw [spreadResult_take v hk (List.getElem?_eq_getElem hlt) hr, List.reverse_reverse, htake,
    List.map_append]
  simp [Frame.withResult]

/-- No frame has a result; while a value is on its way, accessors at the top may have it too. -/
def Results (fs : List Frame) : Focus → Prop
  | .give v => ∃ as bs, fs = as ++ bs ∧
      (∀ f ∈ as, f.phase = .accessed ∧ f.result = some v) ∧ ∀ f ∈ bs, f.result = none
  | _ => ∀ f ∈ fs, f.result = none

theorem results_give_of_none {fs : List Frame} {v : Value} (h : ∀ f ∈ fs, f.result = none) :
    Results fs (.give v) :=
  ⟨[], fs, rfl, by simp, h⟩

/-! ## Questions -/

/-- The top frame asks the first of the rules `offered` that reaches, and the argument after those
that have been gathered is still to be evaluated. -/
def Question (offered : List Host.Rule) (fs : List Frame) (k : Nat) (rules : List Host.Rule) :
    Prop :=
  ∃ passed r rest arity f g,
    rules = r :: rest ∧ offered = passed ++ rules ∧
    (∀ q ∈ passed, q.reach? ((accessorChain fs).map Frame.node) = none) ∧
    r.reach? ((accessorChain fs).map Frame.node) = some k ∧
    r.ending.arity? = some arity ∧ fs[k]? = some f ∧ f.gathered = some g ∧
    g.values.length < (f.node.arguments.take g.wanted).length

/-- Every frame that asks asks rules that resolve and do not change what the host goes by, and every
name puts its question well to the rules `offered`. -/
def Questions (host : Host) (offered : List Host.Rule) : List Frame → Prop
  | [] => True
  | f :: outer =>
    (∀ k rules, f.phase = .asking k rules → (∀ r ∈ rules, r.Resolves ∧ r.Respects host) ∧
      (f.node.isUnbound = true → Question offered (f :: outer) k rules)) ∧
      Questions host offered outer

variable {host : Host} {offered : List Host.Rule} {f : Frame} {fs gs : List Frame} {k : Nat}

theorem questions_cons (h : Questions host offered fs)
    (hq : ∀ k rules, f.phase ≠ .asking k rules) : Questions host offered (f :: fs) :=
  ⟨fun k rules hφ => (hq k rules hφ).elim, h⟩

theorem Questions.of_append (h : Questions host offered (fs ++ gs)) :
    Questions host offered gs := by
  induction fs with
  | nil => exact h
  | cons f fs ih => exact ih h.2

/-- Changes in the accessors at the top that wait for what they are applied to concern no question. -/
theorem Questions.of_drop (h : Questions host offered fs)
    (hc : gs.map Frame.core = fs.map Frame.core)
    (hk : k ≤ (accessing (fs.map Frame.core)).length) (hd : gs.drop k = fs.drop k) :
    Questions host offered gs := by
  refine accessed_induction
    (P := fun gs fs => Questions host offered fs → Questions host offered gs)
    (fun _ h => h) (fun {_ g _ _} hf hfg ih h => ?_) hc hk hd h
  have hg : g.phase = .accessed := (congrArg Prod.snd hfg).trans hf
  exact questions_cons (ih h.2) (by simp [hg])

namespace Machine

variable {m m₁ : Machine} {n x : Node} {r : Host.Rule} {rules : List Host.Rule} {v w : Value}
  {outer : List Frame} {cs : List (Node × Phase)} {φ : Phase} {S : Node → Prop}

/-! ## Asking a host that resolves -/

/-- A rule reaches only accessors on the stack. -/
theorem lt_length_of_reach {k : Nat} (h : r.reach? (m.links.map (·.node)) = some k) :
    k < m.frames.length := by
  have h := Host.reach?_lt h
  rw [map_node_links, List.length_map] at h
  exact Nat.lt_of_lt_of_le h (length_accessorChain_le m.frames)

/-- A host that resolves lets the first rule decide that reaches, if there is one. -/
theorem consult_of_resolves (n : Node) (m : Machine) (hr : ∀ r ∈ rules, r.Resolves) :
    consult n rules m = m.finishFault n (unknownAccessor n) ∨
      ∃ passed r rest k, rules = passed ++ r :: rest ∧
        (∀ q ∈ passed, q.reach? (m.links.map (·.node)) = none) ∧
        r.reach? (m.links.map (·.node)) = some k ∧
        ((∃ as a m₁, m.prepare r k = (as, some a, m₁) ∧
          consult n rules m = m₁.await (.asking k (r :: rest)) a) ∨
        ∃ as m₁ w m₂, m.prepare r k = (as, none, m₁) ∧ m₁.answer r k as = (some w, m₂) ∧
          consult n rules m = m₂.finishResolved w) := by
  induction rules with
  | nil => exact .inl rfl
  | cons r rules ih =>
    cases hk : r.reach? (m.links.map (·.node)) with
    | none =>
      rw [consult_skip hk]
      rcases ih fun q hq => hr q (by simp [hq]) with h | ⟨passed, r', rest, k, rfl, hp, hk', h⟩
      · exact .inl h
      · refine .inr ⟨r :: passed, r', rest, k, rfl, fun q hq => ?_, hk', h⟩
        rcases List.mem_cons.1 hq with rfl | hq
        · exact hk
        · exact hp q hq
    | some k =>
      refine .inr ⟨[], r, rules, k, rfl, by simp, hk, ?_⟩
      rcases hp : m.prepare r k with ⟨as, missing, m₁⟩
      cases missing with
      | some a => exact .inl ⟨as, a, m₁, rfl, consult_ask hk hp⟩
      | none =>
        rcases ha : m₁.answer r k as with ⟨w, m₂⟩
        cases w with
        | some w => exact .inr ⟨as, m₁, w, m₂, rfl, ha, consult_answer hk hp ha⟩
        | none =>
          -- The handler would have passed.
          exfalso
          have hres := hr r (by simp) ⟨as, m₁.links.take (k + 1)⟩ m₁.record
          unfold answer at ha
          dsimp only at ha
          split at ha
          · simp at ha
          · simp at ha
          · simp at ha
          · rename_i h
            simp [h, Host.Answer.resolves] at hres
          · rename_i h
            simp [h, Host.Answer.resolves] at hres

/-- An answer that resolves becomes the result of the accessor reached. -/
theorem frames_answer {as : List Value} (hk : k < m.frames.length)
    (ha : m.answer r k as = (some w, m₁)) :
    m₁.frames = Steppable.setResult w k m.frames ∧ m₁.host = m.host := by
  unfold answer at ha
  dsimp only at ha
  split at ha
  · obtain ⟨hw, rfl⟩ := Prod.mk.inj ha
    obtain rfl := Option.some.inj hw
    exact ⟨rfl, rfl⟩
  · obtain ⟨hw, rfl⟩ := Prod.mk.inj ha
    obtain rfl := Option.some.inj hw
    exact ⟨rfl, rfl⟩
  · obtain ⟨hw, rfl⟩ := Prod.mk.inj ha
    obtain rfl := Option.some.inj hw
    simp only [setFault, List.getElem?_eq_getElem hk]
    exact ⟨rfl, rfl⟩
  · simp at ha
  · simp at ha

/-- A handler that does not change what the host goes by leaves the rules that it goes by now. -/
theorem rules_answer (hr : r.Respects m.host) (k : Nat) (as : List Value) :
    (m.answer r k as).2.rules = m.rules := by
  have hfault : ∀ (m : Machine) (message : String), (m.setFault k message).2.rules = m.rules := by
    intro m message
    unfold setFault
    split <;> rfl
  have hrules := hr ⟨as, m.links.take (k + 1)⟩ m.record
  unfold answer
  dsimp only
  split
  · exact hrules
  · exact hrules
  · exact (hfault _ _).trans hrules
  · exact (hfault _ _).trans hrules
  · exact hrules

/-- What is prepared for a rule is noted in the frame of the accessor reached only. -/
theorem frames_prepare (m : Machine) (r : Host.Rule) (k : Nat) :
    ∃ fs, (m.prepare r k).2.2 = { m with frames := fs } ∧
      fs.map Frame.core = m.frames.map Frame.core ∧ fs.drop (k + 1) = m.frames.drop (k + 1) ∧
      ((∀ f ∈ m.frames, f.result = none) → ∀ f ∈ fs, f.result = none) := by
  unfold prepare gather
  split
  · split
    · exact ⟨m.frames, rfl, rfl, rfl, id⟩
    · rename_i f hf
      refine ⟨_, rfl, map_core_set hf rfl, List.drop_set_of_lt (Nat.lt_succ_self k), fun h g hg => ?_⟩
      rcases List.mem_or_eq_of_mem_set hg with hg | rfl
      · exact h g hg
      · exact h f (List.mem_of_getElem? hf)
  · exact ⟨m.frames, rfl, rfl, rfl, id⟩

/-- What is prepared for a rule that takes arguments: those there are, the next one, and the note of
both in the frame of the accessor reached. -/
theorem prepare_eq {arity wanted : Nat} {vs : List Value} {e : Frame}
    (harity : r.ending.arity? = some arity) (he : m.frames[k]? = some e)
    (hg : e.gatheredFor arity = ⟨wanted, vs⟩) :
    m.prepare r k = (vs, (e.node.arguments.take wanted)[vs.length]?,
      { m with frames := m.frames.set k { e with gathered := some ⟨wanted, vs⟩ } }) := by
  simp only [prepare, harity, gather, he, hg]

/-- What has been gathered already is kept. -/
theorem prepare_kept {arity : Nat} {e : Frame} {g : Gathered}
    (harity : r.ending.arity? = some arity) (he : m.frames[k]? = some e)
    (hg : e.gathered = some g) :
    m.prepare r k = (g.values, (e.node.arguments.take g.wanted)[g.values.length]?, m) := by
  have hfor : e.gatheredFor arity = ⟨g.wanted, g.values⟩ := by simp [Frame.gatheredFor, hg]
  have hset : m.frames.set k { e with gathered := some g } = m.frames := by
    obtain ⟨hlt, rfl⟩ := List.getElem?_eq_some_iff.1 he
    rw [← hg]
    exact List.set_getElem_self hlt
  rw [prepare_eq harity he hfor, hset]

/-- A rule that waits for an argument has noted what it has gathered. -/
theorem gathered_of_prepare {as : List Value} {a : Node}
    (h : m.prepare r k = (as, some a, m₁)) :
    ∃ arity f g, r.ending.arity? = some arity ∧ m₁.frames[k]? = some f ∧ f.gathered = some g ∧
      g.values.length < (f.node.arguments.take g.wanted).length := by
  unfold prepare at h
  split at h
  · rename_i arity ha
    unfold gather at h
    split at h
    · simp at h
    · rename_i f hf
      obtain ⟨-, h⟩ := Prod.mk.inj h
      obtain ⟨ha', rfl⟩ := Prod.mk.inj h
      have hlt : k < m.frames.length := (List.getElem?_eq_some_iff.1 hf).1
      refine ⟨arity, { f with gathered := some (f.gatheredFor arity) }, f.gatheredFor arity, ha,
        ?_, rfl, (List.getElem?_eq_some_iff.1 ha').1⟩
      simp [List.getElem?_set_self hlt]
  · simp at h

/-! ## Calm machines -/

/-- No frame is left with a result, and every question is put well. -/
structure Calm (m : Machine) (φ : Focus) : Prop where
  results : Results m.frames φ
  questions : Questions m.host m.rules m.frames

/-- A step that ends so leaves a calm machine. -/
def CalmAfter (r : Machine × Progress) : Prop :=
  ∀ φ', r.2.next? = some φ' → Calm r.1 φ'

theorem calm_finish (hf : m.frames = f :: outer) (hr : Results outer (.give v))
    (hq : Questions m.host m.rules outer) : CalmAfter (m.finish v) := by
  intro φ' hn
  rw [finish_snd] at hn
  obtain rfl := Option.some.inj hn
  simp only [finish, hf]
  exact ⟨hr, hq⟩

theorem calm_await {ψ : Phase} (hf : m.frames = f :: outer) (hr : ∀ g ∈ m.frames, g.result = none)
    (hq : Questions m.host m.rules ({ f with phase := ψ } :: outer)) : CalmAfter (m.await ψ n) := by
  intro φ' hn
  rw [await_snd] at hn
  obtain rfl := Option.some.inj hn
  simp only [await, hf]
  refine ⟨fun g hg => ?_, hq⟩
  rcases List.mem_cons.1 hg with rfl | hg
  · exact hr f (by simp [hf])
  · exact hr g (by simp [hf, hg])

theorem phase_of_mem_take (hk : k ≤ (accessing (fs.map Frame.core)).length)
    (h : f ∈ fs.take k) : f.phase = .accessed := by
  induction k generalizing fs with
  | zero => simp at h
  | succ k ih =>
    cases fs with
    | nil => simp at h
    | cons g fs =>
      by_cases ha : g.phase.isAccessed = true
      · have hg := Phase.isAccessed_iff.1 ha
        rw [List.take_succ_cons, List.mem_cons] at h
        rcases h with rfl | h
        · exact hg
        · exact ih (by simpa [accessing, Frame.core, hg, Phase.isAccessed] using hk) h
      · simp [accessing, Frame.core, ha] at hk

/-- When an accessor at `k` has got its result, so have those above it, and the top frame ends. -/
theorem calm_finishResolved (hf : m.frames = f :: outer) (hr : ∀ g ∈ m.frames, g.result = none)
    (hq : Questions m.host m.rules outer) (hc : k ≤ (accessing (outer.map Frame.core)).length)
    (hk : k < (accessorChain m.frames).length)
    (h₁ : m₁.frames = Steppable.setResult w k m.frames) (hh : m₁.host = m.host)
    (ho : m₁.rules = m.rules) (u : Value) : CalmAfter (m₁.finishResolved u) := by
  have hlen : k ≤ outer.length := by
    have := length_accessorChain_le m.frames
    rw [hf, List.length_cons] at this
    rw [hf] at hk
    omega
  have hcore : ((outer.take k).map (Frame.withResult w) ++ outer.drop k).map Frame.core =
      outer.map Frame.core := by
    have hw : Frame.core ∘ Frame.withResult w = Frame.core := rfl
    rw [List.map_append, List.map_map, hw, ← List.map_append, List.take_append_drop]
  have hres : m₁.frames = Frame.withResult w f ::
      ((outer.take k).map (Frame.withResult w) ++ outer.drop k) := by
    rw [h₁, setResult_eq w hk fun g hg => hr g (List.mem_of_mem_take hg), hf]
    simp
  unfold finishResolved
  rw [hres]
  refine calm_finish hres ⟨_, _, rfl, fun g hg => ?_, fun g hg => ?_⟩ ?_
  · obtain ⟨e, he, rfl⟩ := List.mem_map.1 hg
    exact ⟨phase_of_mem_take (f := e) hc he, rfl⟩
  · exact hr g (by simp [hf, List.mem_of_mem_drop hg])
  · rw [hh, ho]
    refine hq.of_drop hcore hc ?_
    rw [List.drop_append_of_le_length (by simp [hlen])]
    simp

theorem calm_consult (hP : Program S) (hS : OfProgram S m.cores) (hf : m.frames = f :: outer)
    (he : Expects (outer.map Frame.core) f.node) (hr : ∀ g ∈ m.frames, g.result = none)
    (hq : Questions m.host m.rules outer) (hrules : ∀ r ∈ rules, r.Resolves ∧ r.Respects m.host)
    (hhost : f.node.isUnbound = true → ∃ passed, m.rules = passed ++ rules ∧
      ∀ q ∈ passed, q.reach? (m.links.map (·.node)) = none) (n : Node) :
    CalmAfter (consult n rules m) := by
  have hlinks := map_node_links m
  have hnodes := links_node_eq hP hS (cores_of_frames hf) he
  rcases consult_of_resolves n m (fun r hr => (hrules r hr).1) with
    h | ⟨passed, r, rest, k, rfl, hp, hk, h⟩
  · rw [h]
    exact calm_finish (m := (m.fault n _).2) hf
      (results_give_of_none fun g hg => hr g (by simp [hf, hg])) hq
  · have hlt : k < (accessorChain m.frames).length := by
      have := Host.reach?_lt hk
      rwa [hlinks, List.length_map] at this
    have hc := le_accessing_of_reach hP hS hf he hk
    obtain ⟨fs, hfs, hcore, hdrop, hnone⟩ := frames_prepare m r k
    rw [hf] at hcore hdrop
    obtain ⟨f₁, outer₁, rfl, hf₁, hcore, hdrop⟩ := frames_of_chain hcore hdrop
    have hq₁ : Questions m.host m.rules outer₁ := hq.of_drop hcore hc hdrop
    have hnode : ∀ ψ, (accessorChain ({ f₁ with phase := ψ } :: outer₁)).map Frame.node =
        m.links.map (·.node) := by
      intro ψ
      rw [hlinks]
      refine map_node_accessorChain ?_
      rw [hf, List.map_cons, List.map_cons, map_node_of_core hcore]
      exact congrArg (· :: _) (congrArg Prod.fst hf₁)
    rcases h with ⟨as, a, m₁, hprep, h⟩ | ⟨as, m₁, w, m₂, hprep, ha, h⟩
    · rw [hprep] at hfs
      dsimp only at hfs
      subst hfs
      rw [h]
      refine calm_await (m := { m with frames := f₁ :: outer₁ }) rfl (hnone hr) ⟨?_, hq₁⟩
      intro j rules' hj
      obtain ⟨rfl, rfl⟩ := Phase.asking.inj hj
      refine ⟨fun q hm => hrules q (List.mem_append_right _ hm), fun hun => ?_⟩
      -- The rules before the one that asks do not reach, neither those tried now nor before.
      have hun' : f.node.isUnbound = true := by
        rw [← show f₁.node = f.node from congrArg Prod.fst hf₁]
        exact hun
      obtain ⟨before, hbefore, hb⟩ := hhost hun'
      obtain ⟨arity, g, gathered, har, hg, hgg, hl⟩ := gathered_of_prepare hprep
      obtain ⟨g', hg', hgn, hgg'⟩ := exists_getElem?_phase (.asking k (r :: rest)) hg
      refine ⟨before ++ passed, r, rest, arity, g', gathered, rfl,
        hbefore.trans (List.append_assoc ..).symm, ?_, ?_, har, hg', hgg'.trans hgg,
        by rw [hgn]; exact hl⟩
      · rw [hnode]
        intro q hq
        rcases List.mem_append.1 hq with hq | hq
        · exact hb q hq
        · exact hp q hq
      · rw [hnode]
        exact hk
    · rw [hprep] at hfs
      dsimp only at hfs
      subst hfs
      rw [h]
      have hlt₁ : k < (accessorChain (f₁ :: outer₁)).length := by
        have := congrArg List.length ((hnode f₁.phase).trans hlinks)
        rw [List.length_map, List.length_map] at this
        rw [show (f₁ :: outer₁) = { f₁ with phase := f₁.phase } :: outer₁ from rfl, this]
        exact hlt
      obtain ⟨h₂, hh₂⟩ := frames_answer
        (Nat.lt_of_lt_of_le hlt₁ (length_accessorChain_le (f₁ :: outer₁))) ha
      have ho : m₂.rules = m.rules := by
        have := rules_answer (m := { m with frames := f₁ :: outer₁ }) (hrules r (by simp)).2 k as
        rwa [ha] at this
      exact calm_finishResolved (m := { m with frames := f₁ :: outer₁ }) rfl (hnone hr) hq₁
        (hcore.symm ▸ hc) hlt₁ h₂ hh₂ ho w

/-! ## Steps -/

theorem calm_nextStatement {rest : List Node} (hf : m.frames = f :: outer)
    (hr : ∀ g ∈ m.frames, g.result = none) (hq : Questions m.host m.rules outer) (last : Value) :
    CalmAfter (m.nextStatement last rest) := by
  cases rest with
  | nil =>
    exact calm_finish hf (results_give_of_none fun g hg => hr g (by simp [hf, hg])) hq
  | cons s rest => exact calm_await hf hr (questions_cons hq (by simp))

theorem calm_nextArgument {callee : Closure} {done : List Value} {as : List Node}
    (hf : m.frames = f :: outer) (hr : ∀ g ∈ m.frames, g.result = none)
    (hq : Questions m.host m.rules outer) : CalmAfter (m.nextArgument callee done as) := by
  cases as with
  | nil =>
    exact calm_await (m := { m with cells := activate m.cells callee done }) hf hr
      (questions_cons hq (by simp))
  | cons a as => exact calm_await hf hr (questions_cons hq (by simp))

theorem calm_call {callee : Closure} (hf : m.frames = f :: outer)
    (hr : ∀ g ∈ m.frames, g.result = none) (hq : Questions m.host m.rules outer) :
    CalmAfter (m.call n callee) := by
  unfold call
  rw [hf]
  refine calm_nextArgument rfl (fun g hg => ?_) (questions_cons hq (by simp))
  rcases List.mem_cons.1 hg with rfl | hg
  · rfl
  · rcases List.mem_cons.1 hg with rfl | hg
    · exact hr f (by simp [hf])
    · exact hr g (by simp [hf, hg])

theorem calm_enter (h : Calm m (.enter n)) : CalmAfter (m.enter n) := by
  have he := enter_entering m n
  generalize m.enter n = r at he
  have hpush : ∀ g ∈ { node := n } :: m.frames, g.result = none := by
    intro g hg
    rcases List.mem_cons.1 hg with rfl | hg
    · rfl
    · exact h.results g hg
  cases he with
  | push =>
    split <;>
      exact fun φ' hn => Option.some.inj hn ▸ ⟨hpush, questions_cons h.questions (by simp)⟩
  | _ =>
    exact fun φ' hn => Option.some.inj hn ▸ ⟨results_give_of_none h.results, h.questions⟩

theorem Waits.ne_asking {c : Node} (h : Waits n φ c) (k : Nat) (rules : List Host.Rule) :
    φ ≠ .asking k rules := by
  cases h <;> simp

theorem calm_begin (hP : Program S) (hS : OfProgram S m.cores)
    (hh : ∀ r ∈ m.host, r.Resolves ∧ r.Respects m.host) (hf : m.frames = f :: outer)
    (he : Expects (outer.map Frame.core) f.node) (h : Calm m .begin) : CalmAfter (m.begin f.node) := by
  have hr := h.results
  have hq : Questions m.host m.rules outer := by
    have := h.questions
    rw [hf] at this
    exact this.2
  have hb := begin_beginning m f.node
  generalize m.begin f.node = r at hb
  cases hb with
  | await hw => exact calm_await hf hr (questions_cons hq (Waits.ne_asking hw))
  | ask => exact calm_consult hP hS hf he hr hq (forall_rules hh) (fun _ => ⟨[], rfl, by simp⟩) _
  | @block t ss locals g outer' hn hf' =>
    rw [hf] at hf'
    cases hf'
    refine calm_nextStatement (m := { m with
      frames := { f with phase := .statement ss } :: outer
      cells := m.cells.registerAll locals }) rfl (fun g hg => ?_) hq _
    rcases List.mem_cons.1 hg with rfl | hg
    · exact hr f (by simp [hf])
    · exact hr g (by simp [hf, hg])
  | jump | finish =>
    exact calm_finish hf (results_give_of_none fun g hg => hr g (by simp [hf, hg])) hq

theorem calm_receiveArgument (hP : Program S) (hS : OfProgram S m.cores)
    (hf : m.frames = f :: outer) (hφ : f.phase = .asking k rules)
    (he : Expects m.cores n) (hr : ∀ g ∈ m.frames, g.result = none)
    (hq : Questions m.host m.rules m.frames) (v : Value) :
    CalmAfter (m.receiveArgument f.node k rules v) := by
  have hcores := cores_of_frames hf
  rw [hcores, hφ] at he
  have hc := he.le_accessing
  have hlt : k < (accessorChain m.frames).length := by
    rw [hcores] at hS
    rw [hf, accessorChain_eq hP hS.tail he.tail, List.length_cons]
    rw [accessing, List.takeWhile_map, List.length_map] at hc
    exact Nat.lt_succ_of_le hc
  rw [hf] at hq
  unfold receiveArgument
  dsimp only
  split
  · have hframes : (m.setResult k (m.cells.deref v)).frames =
        Steppable.setResult (m.cells.deref v) k m.frames := rfl
    exact calm_finishResolved hf hr hq.2 hc hlt hframes rfl rfl _
  · -- The frame of the accessor has one argument more; the question is put to the same rules.
    have hmod : ∀ (g : Frame → Frame), (∀ e, (g e).core = e.core) →
        (∀ e, (g e).result = e.result) →
        ∃ f₁ outer₁, m.frames.modify k g = f₁ :: outer₁ ∧ f₁.core = f.core ∧
          outer₁.map Frame.core = outer.map Frame.core ∧ outer₁.drop k = outer.drop k ∧
          ∀ e ∈ f₁ :: outer₁, e.result = none := by
      intro g hg hres
      have hcore := map_core_modify g hg k m.frames
      have hdrop := List.drop_modify_of_lt g k (k + 1) m.frames (Nat.lt_succ_self k)
      have hnone : ∀ e ∈ m.frames.modify k g, e.result = none := by
        intro e hm
        obtain ⟨i, hi⟩ := List.mem_iff_getElem?.1 hm
        rw [List.getElem?_modify] at hi
        obtain ⟨e', he', rfl⟩ := Option.map_eq_some_iff.1 hi
        have := hr e' (List.mem_of_getElem? he')
        split
        · rw [hres, this]
        · exact this
      obtain ⟨f₁, outer₁, hm, hf₁, hcore, hdrop⟩ :=
        frames_of_chain (hcore.trans (congrArg _ hf)) (hdrop.trans (congrArg _ hf))
      exact ⟨f₁, outer₁, hm, hf₁, hcore, hdrop, hm ▸ hnone⟩
    have ha := alike_addArgument m k (m.cells.deref v)
    obtain ⟨f₁, outer₁, hfr, hf₁, hcore, hdrop, hnone⟩ := hmod (fun e =>
      { e with gathered := e.gathered.map fun g => { g with values := g.values ++ [m.cells.deref v] } })
      (fun _ => rfl) (fun _ => rfl)
    have hfr' : (m.addArgument k (m.cells.deref v)).frames = f₁ :: outer₁ := hfr
    have hn₁ : f₁.node = f.node := congrArg Prod.fst hf₁
    refine calm_consult hP (ha.cores_eq ▸ hS) hfr' ?_ (hfr' ▸ hnone)
      (hq.2.of_drop hcore hc hdrop) (hq.1 k rules hφ).1 (fun hun => ?_) _
    · rw [hcore, hn₁]
      exact he.tail
    · obtain ⟨passed, r, rest, arity, g, gathered, -, hhost, hp, -⟩ := (hq.1 k rules hφ).2 (hn₁ ▸ hun)
      refine ⟨passed, hhost, ?_⟩
      rwa [ha.links_node, map_node_links, hf]

/-- A frame that has the result that arrives ends with it. -/
theorem receive_of_result (hφ : f.phase = .accessed) (hr : f.result = some v) :
    m.receive f v = m.finish v := by
  cases ha : v.isAbrupt with
  | true => simp [receive, hφ, ha]
  | false => simp [receive, receivePlain, hφ, ha, hr]

theorem calm_receive (hP : Program S) (hS : OfProgram S m.cores) (hf : m.frames = f :: outer)
    (he : Expects m.cores n) (h : Calm m (.give v)) : CalmAfter (m.receive f v) := by
  obtain ⟨as, bs, hfs, has, hbs⟩ := h.results
  have hq := h.questions
  cases as with
  | cons g as =>
    -- The top frame has got its result from the host.
    rw [hf, List.cons_append, List.cons.injEq] at hfs
    obtain ⟨rfl, rfl⟩ := hfs
    obtain ⟨hφ, hres⟩ := has f (by simp)
    rw [hf] at hq
    rw [receive_of_result hφ hres]
    exact calm_finish hf ⟨as, bs, rfl, fun e he => has e (by simp [he]), hbs⟩ hq.2
  | nil =>
    obtain rfl : m.frames = bs := hfs
    have hfin : ∀ u, Results outer (.give u) := fun u =>
      results_give_of_none fun g hg => hbs g (by simp [hf, hg])
    have hqo : Questions m.host m.rules outer := by
      rw [hf] at hq
      exact hq.2
    have het : Expects (outer.map Frame.core) f.node := by
      rw [cores_of_frames hf] at he
      exact he.tail
    have hre := receive_reaction m f v
    generalize m.receive f v = r at hre
    cases hre with
    | pass | abrupt | yield | result | unwrap => exact calm_finish hf (hfin _) hqo
    | fault culprit message =>
      exact calm_finish (m := (m.fault culprit message).2) hf (hfin _) hqo
    | @write cell x w =>
      exact calm_finish (m := { m with cells := m.cells.set cell x }) hf (hfin _) hqo
    | await _ hw => exact calm_await hf hbs (questions_cons hqo (Waits.ne_asking hw))
    | statement => exact calm_nextStatement hf hbs hqo _
    | call => exact calm_call hf hbs hqo
    | members hφ _ _ =>
      refine calm_consult hP hS hf het hbs hqo (fun r hr => ⟨Host.resolves_members _ r hr,
        Host.respects_members _ _ r hr⟩) (fun hun => ?_) _
      -- A name is not applied to anything.
      rw [cores_of_frames hf, hφ] at he
      have hl := he.left_of_accessed
      cases hn : f.node <;> simp_all [Node.isUnbound, Node.left?]
    | argument => exact calm_nextArgument hf hbs hqo
    | ask hφ => exact calm_receiveArgument hP hS hf hφ he hbs hq v

/-- **A step leaves a calm machine.** -/
theorem Calm.step (hP : Program S) (hh : ∀ r ∈ m.host, r.Resolves ∧ r.Respects m.host)
    {φ φ' : Focus} (hS : OfProgram S m.cores) (hp : Poised m φ) (h : Calm m φ)
    (hn : (m.step φ).2.next? = some φ') : Calm (m.step φ).1 φ' := by
  cases φ with
  | enter n => exact calm_enter h φ' hn
  | begin =>
    obtain ⟨x, outer, hc, he⟩ := hp
    obtain ⟨f, fs, hf, hfc, rfl⟩ := frames_of_cores hc
    obtain ⟨rfl, -⟩ := Prod.mk.inj hfc
    have hs : m.step .begin = m.begin f.node := by simp [Machine.step, hf]
    rw [hs] at hn ⊢
    exact calm_begin hP hS hh hf he h φ' hn
  | give v =>
    obtain ⟨n, he⟩ := hp
    rw [Machine.step] at hn ⊢
    split at hn
    · rename_i f fs hf
      exact calm_receive hP hS hf he h φ' hn
    · simp [Progress.next?] at hn

/-! ## Taking up -/

/-- A question that is put again leads to the same argument. -/
theorem consult_of_question (hf : m.frames = f :: outer) (hφ : f.phase = .asking k rules)
    (h : Question m.rules m.frames k rules) (n : Node) :
    ∃ a, consult n m.rules m = (m, .running (.enter a)) := by
  obtain ⟨passed, r, rest, arity, e, g, hrules, hhost, hp, hk, har, he, hg, hl⟩ := h
  rw [← map_node_links] at hp hk
  obtain ⟨a, ha⟩ : ∃ a, (e.node.arguments.take g.wanted)[g.values.length]? = some a :=
    ⟨_, List.getElem?_eq_getElem hl⟩
  have hprep : m.prepare r k = (g.values, some a, m) := by
    rw [prepare_kept har he hg, ha]
  have hsame : { f with phase := .asking k rules } = f := by rw [← hφ]
  have hask : consult n rules m = (m, .running (.enter a)) := by
    rw [hrules, consult_ask hk hprep, ← hrules]
    simp only [await, hf, hsame]
    rw [← hf]
  refine ⟨a, ?_⟩
  rw [hhost, ← hask]
  clear hhost
  induction passed with
  | nil => rfl
  | cons q passed ih =>
    rw [List.cons_append, consult_skip (hp q (by simp))]
    exact ih fun q' hq' => hp q' (by simp [hq'])

theorem takeUp_of_question (hf : m.frames = f :: outer) (hr : f.result = none)
    (hq : ∀ k rules, f.phase = .asking k rules → f.node.isUnbound = true →
      Question m.rules m.frames k rules) :
    (m.takeUp f).1 = m ∧ ∀ v, (m.takeUp f).2 ≠ .running (.give v) := by
  unfold takeUp
  split
  · rename_i w hw
    simp [hw] at hr
  · rename_i k rules t s _ hφ hn
    obtain ⟨a, ha⟩ := consult_of_question hf hφ (hq k rules hφ (by rw [hn]; rfl)) f.node
    rw [ha]
    simp
  · simp

/-- **To take up a stopped evaluation changes nothing.** -/
theorem resumption_eq_of_calm (h : Calm m .begin) : m.resumption = (m, .begin) := by
  have hall : ∀ (inner : List Frame) (m : Machine),
      (∀ f ∈ inner, f.result = none) → Questions m.host m.rules (inner.reverse ++ m.frames) →
      takeUpAll inner m = ({ m with frames := inner.reverse ++ m.frames }, .begin) := by
    intro inner
    induction inner with
    | nil => exact fun m _ _ => rfl
    | cons f inner ih =>
      intro m hr hq
      rw [List.reverse_cons, List.append_assoc, List.singleton_append] at hq ⊢
      have hqf := hq.of_append
      obtain ⟨hm, hne⟩ := takeUp_of_question (m := { m with frames := f :: m.frames }) rfl
        (hr f (by simp)) fun k rules hφ hun => (hqf.1 k rules hφ).2 hun
      rcases takeUpAll_cons f inner m with ⟨v, m₁, ht, -⟩ | ⟨-, ht⟩
      · exact (hne v (by rw [ht])).elim
      · rw [ht, hm]
        exact ih _ (fun g hg => hr g (by simp [hg])) hq
  have hres := h.results
  have := hall m.frames.reverse { m with frames := [] }
    (fun f hf => hres f (List.mem_reverse.1 hf))
    (by rw [List.reverse_reverse, List.append_nil]; exact h.questions)
  rw [resumption, this]
  simp

end Machine

end Steppable
