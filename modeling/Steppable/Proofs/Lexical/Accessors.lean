import Steppable.Proofs.Lexical.Nodes

/-!
# Accessors and calls

An accessor is followed together with the accessors around it. What it is applied to may already
settle it: then its frame has got the result, and the interpreter has said how far the result
reaches (`follows_through`). Otherwise a function is called, whose body runs in the environment of
the function, or a rule of the host is asked, which looks at the same chain in both (`follows_ask`).
-/

namespace Steppable.Lexical

open Machine

variable {S : Node → Prop} {m m' m₁ : Machine} {φ : Focus} {fuel : Nat} {α : Type} {o : Option α}
  {Q : α → Machine → Focus → Prop} {f : Frame} {fs gs : List Frame} {ρ₀ ρ ρ' : Nat → Nat}
  {s₀ : Cells} {σ σ' : Store} {n c : Node} {Γ : Nat → Prop} {env : Env} {E : Evaluator}
  {v w : Value} {ψ : Phase}

/-! ## What an accessor is applied to -/

theorem chainOf_accessed (n : Node) (fs : List Frame) :
    chainOf ({ node := n, phase := .accessed } :: fs) = n :: chainOf fs := by
  simp [chainOf, Phase.isAccessed]

theorem clear_accessed (hn : ∀ a ∈ n.arguments, a.Scoped Γ) (h : Clear Γ fs) :
    Clear Γ ({ node := n, phase := .accessed } :: fs) := by
  intro f hf
  rcases List.mem_cons.1 (by simpa [Phase.isAccessed] using hf) with rfl | hf
  · exact ⟨rfl, hn⟩
  · exact h f hf

/-- The accessor `n` gets the value of what it is applied to, or its own. -/
theorem follows_through (hP : Program S) (hE : Simulates S fuel E) (h : Stage fs ρ₀ s₀ ρ σ m)
    (hclear : Clear Γ fs) (ha : Agrees ρ₀ env s₀ Γ) {left : Node} (hl : left.Scoped Γ)
    (has : ∀ a ∈ n.arguments, a.Scoped Γ) (hn : ∀ m : Machine, m.enter n = m.push n)
    (hb : ∀ m : Machine, m.begin n = m.await .accessed left)
    {k : Value → Run (Value × Nat)}
    (hk : ∀ ρ' σ' m' w, Stage ({ node := n, phase := .accessed } :: fs) ρ₀ s₀ ρ' σ' m' →
      w.isAbrupt = false → Keeps S m'.cells (m'.cells.deref w) →
      m'.step (.give w) = m'.receivePlain { node := n, phase := .accessed } w →
      Follows S fuel m' (.give w) (k ((m'.cells.deref w).rename ρ') σ') (Answers fs ρ₀ s₀)) :
    Follows S (fuel + 1) m (.enter n) (through E env (chainOf fs) n left k σ)
      (Answers fs ρ₀ s₀) := by
  refine follows_descend hP h hn hb fun m₁ h₁ => ?_
  have hE₁ := hE h₁.rebase (clear_accessed has hclear) hl (h₁.agrees ha)
  rw [chainOf_accessed] at hE₁
  refine hE₁.bind hP fun r σ₂ m₂ φ₂ hr => ?_
  obtain ⟨ρ₂, w, gs, rfl, hw, hans, hst⟩ := hr
  have h₂ := h₁.trans hst
  obtain ⟨v, k'⟩ := r
  dsimp only at hw hans
  subst hw
  cases k' with
  | zero =>
    obtain rfl := hans.eq_of_zero
    dsimp only
    rw [Value.isAbrupt_rename]
    split
    · rename_i hab
      have hs : m₂.step (.give w) = m₂.finish w := by
        rw [step_give h₂]
        exact if_pos hab
      exact follows_pop hP h₂ rfl hs fun m₃ h₃ => .here ⟨ρ₂, w, fs, rfl, rfl, .refl w fs, h₃⟩
    · rename_i hab
      have hs : m₂.step (.give w) = m₂.receivePlain { node := n, phase := .accessed } w := by
        rw [step_give h₂]
        exact if_neg hab
      exact follows_read h₂ fun hx => hk ρ₂ σ₂ m₂ w h₂ (by simpa using hab) hx hs
  | succ j =>
    -- The frame of `n` has got the result; it ends, and the frames below it are next.
    obtain ⟨g, gs', rfl⟩ : ∃ g gs', gs = g :: gs' := by
      cases gs with
      | nil => simpa using hans.cores
      | cons g gs' => exact ⟨g, gs', rfl⟩
    obtain ⟨hcore, hcores⟩ := List.cons.inj hans.cores
    have hφ : g.phase = .accessed := congrArg Prod.snd hcore
    have hres : g.result = some w := hans.result g (by simp)
    have hs : m₂.step (.give w) = m₂.finish w :=
      (step_give h₂ w).trans (receive_of_result hφ hres)
    refine follows_pop hP h₂ (by rw [hφ]; rfl) hs fun m₃ h₃ => .here ⟨ρ₂, w, gs', rfl, rfl, ?_, h₃⟩
    have hwithin := hans.within
    rw [chainOf_accessed] at hwithin
    exact ⟨Nat.le_of_succ_le_succ hwithin, hcores, hans.rest,
      fun f hf => hans.result f (List.mem_cons_of_mem g hf)⟩

/-! ## Calls -/

/-- The activation ends, and with it the call. -/
theorem follows_returned (hP : Program S) {ρ₁ : Nat → Nat} {s₁ : Cells} {callee : Closure}
    (h : Stage ({ node := n, phase := .running callee } :: { node := n, phase := .activation } :: fs)
      ρ₁ s₁ ρ σ m₁) (hx : Extends ρ₀ s₀ ρ₁ s₁)
    (hb : ∀ d, s₁.below (callee.captures.map (·.1) ++ callee.code.params) d = s₀.stack d)
    (hp : m₁.cells.Partitioned) (hs : m.step φ = m₁.finish w) (hw : w.rename ρ = v) :
    Follows S fuel m φ (some (v, σ)) (Done fs ρ₀ s₀) :=
  follows_leave hP h hx hb hp hs fun _ h' =>
    follows_finish hP h' rfl (step_give h' w) hw

/-- The body of a function has given its value. -/
theorem follows_return (hP : Program S) {ρ₁ : Nat → Nat} {s₁ : Cells} {callee : Closure}
    (h : Stage ({ node := n, phase := .running callee } :: { node := n, phase := .activation } :: fs)
      ρ₁ s₁ ρ σ m) (hx : Extends ρ₀ s₀ ρ₁ s₁)
    (hb : ∀ d, s₁.below (callee.captures.map (·.1) ++ callee.code.params) d = s₀.stack d) :
    Follows S fuel m (.give w) (returned (w.rename ρ) σ) (Done fs ρ₀ s₀) := by
  refine .of_fit fun hfit => ?_
  have hp : m.cells.Partitioned := hfit.sorted.held.1.cells.1.1
  have hs := step_give h w
  have hfault : ∀ culprit, m.step (.give w) = m.finishFault culprit illegalJump →
      Follows S fuel m (.give w) (Lexical.fault culprit illegalJump σ) (Done fs ρ₀ s₀) := by
    intro culprit hs
    obtain ⟨v, σ', he, hv, h'⟩ := h.fault culprit illegalJump
    rw [he]
    exact follows_returned hP h' hx hb hp hs hv
  cases w with
  | signal kind culprit v =>
    cases kind with
    | «break» => exact hfault culprit hs
    | «continue» => exact hfault culprit hs
    | «return» => exact follows_returned hP h hx hb hp hs rfl
  | _ => exact follows_returned hP h hx hb hp hs rfl

/-- The body of a function is evaluated in the environment of the function. -/
theorem follows_activate (hP : Program S) (hE : Simulates S fuel E) {callee : Closure}
    (hbody : callee.code.body.Scoped fun k =>
      idsOf (callee.captures.map (·.1)) k ∨ idsOf callee.code.params k) {vs : List Value}
    (h : Stage ({ node := n, phase := ψ } :: { node := n, phase := .activation } :: fs) ρ₀ s₀ ρ σ m₁)
    (hsound : Sound S m₁.cells) (hf : Keeps S m₁.cells (.function callee))
    (hv : ∀ v ∈ vs, Keeps S m₁.cells v ∧ v.isAbrupt = false)
    (hs : m.step φ = m₁.nextArgument callee vs []) :
    Follows S fuel m φ (activate E (callee.rename ρ) (vs.map (Value.rename ρ)) σ)
      (Done fs ρ₀ s₀) := by
  obtain ⟨env', ρ₂, values, hb, hr, hx, ha⟩ := bindAll_activate hP hsound h.reflects hf hv
  have hbelow : ∀ d, (Machine.activate m₁.cells callee vs).below
      (callee.captures.map (·.1) ++ callee.code.params) d = s₀.stack d := by
    intro d
    have hd := Cells.below_activate m₁.cells callee vs [] d
    rw [List.append_nil, Cells.below_nil] at hd
    exact hd.trans (h.stack_eq d)
  let m₂ : Machine := { m₁ with cells := Machine.activate m₁.cells callee vs }
  have h₂ : Stage ({ node := n, phase := ψ } :: { node := n, phase := .activation } :: fs) ρ₂
      (Machine.activate m₁.cells callee vs) ρ₂ { σ with values := values } m₂ :=
    ⟨h.frames, hr, h.lastFault, h.next, .refl _ _, fun _ => rfl⟩
  have hs₂ : m.step φ = m₂.await (.running callee) callee.code.body := hs
  have hrun : activate E (callee.rename ρ) (vs.map (Value.rename ρ)) σ =
      (bindAll (.ofCaptures (callee.rename ρ).captures) callee.code.params
        (vs.map (Value.rename ρ)) σ).bind fun p =>
          (alone E p.1 callee.code.body >>= returned) p.2 := rfl
  rw [hrun, hb]
  refine follows_await hP h₂ hs₂ fun m₃ h₃ _ => ?_
  refine follows_alone hP hE h₃ (chainOf_cons rfl) hbody ha fun ρ₄ σ₄ m₄ w h₄ _ => ?_
  exact follows_return hP h₄ (h.since.trans hx) hbelow

/-- The arguments of a call are evaluated in the environment of the call, and then the body. -/
theorem follows_arguments (hP : Program S) (hE : Simulates S fuel E) (ha : Agrees ρ₀ env s₀ Γ)
    {callee : Closure} (hbody : callee.code.body.Scoped fun k =>
      idsOf (callee.captures.map (·.1)) k ∨ idsOf callee.code.params k) {as : List Node}
    (has : ∀ a ∈ as, a.Scoped Γ) {vs : List Value}
    (h : Stage ({ node := n, phase := ψ } :: { node := n, phase := .activation } :: fs) ρ₀ s₀ ρ σ m₁)
    (hsound : Sound S m₁.cells) (hf : Keeps S m₁.cells (.function callee))
    (hv : ∀ v ∈ vs, Keeps S m₁.cells v ∧ v.isAbrupt = false)
    (hs : m.step φ = m₁.nextArgument callee vs as) :
    Follows S fuel m φ (inOrder E env as
      (fun us => activate E (callee.rename ρ) (vs.map (Value.rename ρ) ++ us)) σ) (Done fs ρ₀ s₀) := by
  induction as generalizing ρ σ m φ ψ vs m₁ with
  | nil =>
    have := follows_activate hP hE hbody h hsound hf hv hs
    rw [inOrder, List.append_nil]
    exact this
  | cons a as ih =>
    refine follows_await hP h hs fun m₂ h₂ hcells => ?_
    refine follows_andThen hP hE h₂ (chainOf_cons rfl) (has a (by simp)) ha ?_ ?_
    · intro ρ₃ σ₃ m₃ w h₃ hab
      have hs₃ : m₃.step (.give w) = m₃.finish w := by
        rw [step_give h₃]
        exact if_pos hab
      exact follows_pop hP h₃ rfl hs₃ fun m₄ h₄ => follows_finish hP h₄ rfl (step_give h₄ w) rfl
    · intro ρ₃ σ₃ m₃ w h₃ hx hab
      rw [hcells] at hx
      refine follows_read h₃ fun hk => .of_fit fun hfit => ?_
      have hs₃ : m₃.step (.give w) =
          m₃.nextArgument callee (vs ++ [m₃.cells.deref w]) as := by
        rw [step_give h₃]
        exact if_neg (by simp [hab])
      have hv₃ : ∀ v ∈ vs ++ [m₃.cells.deref w], Keeps S m₃.cells v ∧ v.isAbrupt = false := by
        intro v hm
        rcases List.mem_append.1 hm with hm | hm
        · exact ⟨hx.keeps (hv v hm).1, (hv v hm).2⟩
        · obtain rfl := List.mem_singleton.1 hm
          exact ⟨hk, h₃.isAbrupt_deref hfit hab⟩
      have ih₃ := ih (fun a' ha' => has a' (by simp [ha'])) h₃ hfit.sorted.held.1.cells
        (hx.keeps hf) hv₃ hs₃
      -- What the interpreter holds already has the same names.
      have hfun : callee.rename ρ₃ = callee.rename ρ := Value.function.inj (hx.rename hf)
      have hold : vs.map (Value.rename ρ₃) = vs.map (Value.rename ρ) :=
        List.map_congr_left fun v hm => hx.rename (hv v hm).1
      rw [hfun] at ih₃
      simpa [hold] using ih₃

/-- The bodies of the functions of a program use their parameters and free variables only. -/
def ClosedBodies (S : Node → Prop) : Prop :=
  ∀ t code, S (.function t code) →
    code.body.Scoped fun k => idsOf code.free k ∨ idsOf code.params k

/-- **A function is called.** -/
theorem follows_invoke (hP : Program S) (hS : ClosedBodies S) (hE : Simulates S fuel E)
    (ha : Agrees ρ₀ env s₀ Γ) {t : Tag} {left : Node} {as : List Node} (has : ∀ a ∈ as, a.Scoped Γ)
    (h : Stage ({ node := .call t left as, phase := .accessed } :: fs) ρ₀ s₀ ρ σ m)
    (hs : m.step (.give w) = m.receivePlain { node := .call t left as, phase := .accessed } w)
    {callee : Closure} (hw : m.cells.deref w = .function callee) :
    Follows S fuel m (.give w) (invoke E env (callee.rename ρ) as σ) (Done fs ρ₀ s₀) := by
  refine .of_fit fun hfit => ?_
  have hf : Keeps S m.cells (.function callee) := hw ▸ hfit.keeps
  have hshape : (shapeCustody S).Keeps m.cells (.function callee) :=
    hw ▸ hfit.shaped.1.deref hfit.shaped.2
  obtain ⟨⟨t', hcode⟩, hfree⟩ := hshape
  have hbody := hS t' callee.code hcode
  rw [← hfree] at hbody
  let m₁ : Machine := { m with frames := { node := .call t left as } ::
    { node := .call t left as, phase := .activation } :: fs }
  have h₁ : Stage ({ node := .call t left as } :: { node := .call t left as, phase := .activation } ::
      fs) ρ₀ s₀ ρ σ m₁ := ⟨rfl, h.reflects, h.lastFault, h.next, h.since, h.stack_eq⟩
  have hs₁ : m.step (.give w) = m₁.nextArgument callee [] as := by
    rw [hs]
    simp only [receivePlain, hw, Machine.call, h.frames]
    rfl
  exact follows_arguments hP hE ha hbody has h₁ hfit.sorted.held.1.cells hf (by simp) hs₁

/-! ## Hosts -/

/-- No frame has a result if the top frame has none. -/
theorem results_none (hfit : Fit S m φ) (hf : m.frames = f :: fs) (hr : f.result = none) :
    ∀ g ∈ m.frames, g.result = none := by
  have hres := hfit.orderly.calm.results
  cases φ with
  | enter n => exact hres
  | begin => exact hres
  | give w =>
    obtain ⟨as, bs, hsplit, has, hbs⟩ := hres
    cases as with
    | nil =>
      rw [hsplit]
      exact hbs
    | cons a as =>
      rw [hf] at hsplit
      obtain ⟨rfl, -⟩ := List.cons.inj hsplit
      simpa [hr] using (has f (by simp)).2

/-- The chain that a rule sees is the one of the interpreter. -/
theorem links_eq (hP : Program S) (hfit : Fit S m φ) (hφ : ∀ n, φ ≠ .enter n)
    (hf : m.frames = f :: fs) : m.links.map (·.node) = f.node :: chainOf fs := by
  have hcores := cores_of_frames hf
  have hexp : Expects (fs.map Frame.core) f.node := by
    have hp := hfit.orderly.poised
    cases φ with
    | enter n => exact (hφ n rfl).elim
    | begin =>
      obtain ⟨x, outer, hc, he⟩ := hp
      rw [hcores] at hc
      obtain ⟨hx, rfl⟩ := List.cons.inj hc
      rw [(Prod.mk.inj hx).1]
      exact he
    | give w =>
      obtain ⟨x, he⟩ := hp
      rw [hcores] at he
      exact he.tail
  rw [links_node_eq hP hfit.orderly.ofProgram hcores hexp, accessing, List.takeWhile_map, chainOf]
  simp [Frame.core, Function.comp_def]

variable {r : Host.Rule} {rules rest : List Host.Rule} {k : Nat}

theorem consult_of_none (h : (rules.findSome? fun r =>
    (r.reach? (m.links.map (·.node))).map (r, ·)) = none) (n : Node) :
    consult n rules m = m.finishFault n (unknownAccessor n) := by
  induction rules with
  | nil => rfl
  | cons q rules ih =>
    rw [List.findSome?_cons] at h
    cases hq : q.reach? (m.links.map (·.node)) with
    | none =>
      rw [hq] at h
      exact (consult_skip hq).trans (ih h)
    | some j => simp [hq] at h

theorem consult_of_some (h : (rules.findSome? fun r =>
    (r.reach? (m.links.map (·.node))).map (r, ·)) = some (r, k)) (n : Node) :
    r ∈ rules ∧ r.reach? (m.links.map (·.node)) = some k ∧
      ∃ rest, consult n rules m = consult n (r :: rest) m := by
  induction rules with
  | nil => simp at h
  | cons q rules ih =>
    rw [List.findSome?_cons] at h
    cases hq : q.reach? (m.links.map (·.node)) with
    | none =>
      rw [hq] at h
      obtain ⟨hr, hk, rest, hc⟩ := ih h
      exact ⟨List.mem_cons_of_mem q hr, hk, rest, (consult_skip hq).trans hc⟩
    | some j =>
      rw [hq] at h
      obtain ⟨rfl, rfl⟩ := Prod.mk.inj (Option.some.inj h)
      exact ⟨List.mem_cons_self, hq, rules, rfl⟩

theorem chainOf_of_core (h : gs.map Frame.core = fs.map Frame.core) : chainOf gs = chainOf fs := by
  have heq : ∀ fs : List Frame,
      chainOf fs = ((fs.map Frame.core).takeWhile (·.2.isAccessed)).map Prod.fst := by
    intro fs
    rw [chainOf, List.takeWhile_map, List.map_map]
    rfl
  rw [heq, heq, h]

/-- The frame `f` asks a host about its chain of accessors: on top of the frames `gs`, which are `fs`
apart from what is noted for the accessor at `k`, that of the frame `e`. -/
structure Asking (fs : List Frame) (k : Nat) (f : Frame) (gs : List Frame) (e : Frame) : Prop where
  bare : f.phase.isBare = true
  cores : gs.map Frame.core = fs.map Frame.core
  rest : gs.drop k = fs.drop k
  results : ∀ g ∈ f :: gs, g.result = none
  reached : (f :: gs)[k]? = some e

variable {e : Frame}

/-- Something else is noted for the accessor at `k`. -/
theorem Asking.set (h : Asking fs k f gs e) (e' : Frame) (hc : e'.core = e.core)
    (hr : e'.result = e.result) :
    ∃ f' gs', (f :: gs).set k e' = f' :: gs' ∧ f'.core = f.core ∧ Asking fs k f' gs' e' := by
  have hnone : e.result = none := h.results e (List.mem_of_getElem? h.reached)
  cases k with
  | zero =>
    obtain rfl : f = e := Option.some.inj h.reached
    refine ⟨e', gs, rfl, hc, ?_, h.cores, h.rest, fun g hg => ?_, rfl⟩
    · rw [show e'.phase = f.phase from congrArg Prod.snd hc]
      exact h.bare
    · rcases List.mem_cons.1 hg with rfl | hg
      · exact hr.trans hnone
      · exact h.results g (List.mem_cons_of_mem f hg)
  | succ j =>
    have he : gs[j]? = some e := h.reached
    have hlt : j < gs.length := (List.getElem?_eq_some_iff.1 he).1
    refine ⟨f, gs.set j e', rfl, rfl, h.bare, (map_core_set he hc).trans h.cores, ?_,
      fun g hg => ?_, List.getElem?_set_self hlt⟩
    · rw [List.drop_set_of_lt (Nat.lt_succ_self j)]
      exact h.rest
    · rcases List.mem_cons.1 hg with rfl | hg
      · exact h.results g List.mem_cons_self
      · rcases List.mem_or_eq_of_mem_set hg with hg | rfl
        · exact h.results g (List.mem_cons_of_mem f hg)
        · exact hr.trans hnone

/-- The frame waits for something else. -/
theorem Asking.await (h : Asking fs k f gs e) (hψ : ψ.isBare = true) :
    ∃ e', Asking fs k { f with phase := ψ } gs e' ∧ e'.node = e.node ∧ e'.gathered = e.gathered := by
  have hresults : ∀ g ∈ { f with phase := ψ } :: gs, g.result = none := by
    intro g hg
    rcases List.mem_cons.1 hg with rfl | hg
    · exact h.results f List.mem_cons_self
    · exact h.results g (List.mem_cons_of_mem f hg)
  cases k with
  | zero =>
    obtain rfl : f = e := Option.some.inj h.reached
    exact ⟨{ f with phase := ψ }, ⟨hψ, h.cores, h.rest, hresults, rfl⟩, rfl, rfl⟩
  | succ j => exact ⟨e, ⟨hψ, h.cores, h.rest, hresults, h.reached⟩, rfl, rfl⟩

/-- The answer for the accessor at `k`, and with it those of the accessors above, is there. -/
theorem follows_resolved (hP : Program S) (h : Stage (f :: gs) ρ₀ s₀ ρ σ m₁)
    (hq : Asking fs k f gs e) (hlinks : m₁.links.map (·.node) = n :: chainOf fs)
    (hk : k ≤ (chainOf fs).length) {u : Value}
    (hs : m.step φ = (m₁.setResult k w).finishResolved u) (hw : w.rename ρ = v) :
    Follows S fuel m φ (some (v, σ)) fun r m φ => Answers fs ρ₀ s₀ ((r.1, k), r.2) m φ := by
  have hchain : k < (accessorChain (f :: gs)).length := by
    have := congrArg List.length hlinks
    rw [map_node_links, h.frames, List.length_map, List.length_cons] at this
    omega
  have hlen : k ≤ gs.length := by
    have := length_accessorChain_le (f :: gs)
    rw [List.length_cons] at this
    omega
  have hframes : (m₁.setResult k w).frames = f.withResult w ::
      ((gs.take k).map (Frame.withResult w) ++ gs.drop k) := by
    show Steppable.setResult w k m₁.frames = _
    rw [h.frames, setResult_eq w hchain fun g hg => hq.results g (List.mem_of_mem_take hg)]
    simp
  have h₁ : Stage (f.withResult w :: ((gs.take k).map (Frame.withResult w) ++ gs.drop k)) ρ₀ s₀ ρ σ
      (m₁.setResult k w) :=
    ⟨hframes, h.reflects, h.lastFault, h.next, h.since, h.stack_eq⟩
  have hs₁ : m.step φ = (m₁.setResult k w).finish w := by
    rw [hs, finishResolved, hframes]
    rfl
  refine follows_pop hP h₁ hq.bare hs₁ fun m₂ h₂ => .here ⟨ρ, w, _, rfl, hw, ⟨hk, ?_, ?_, ?_⟩, h₂⟩
  · have hcore : Frame.core ∘ Frame.withResult w = Frame.core := rfl
    rw [List.map_append, List.map_map, hcore, ← List.map_append, List.take_append_drop]
    exact hq.cores
  · rw [List.drop_append_of_le_length (by simp [hlen])]
    simpa using hq.rest
  · intro g hg
    rw [List.take_append_of_le_length (by simp [hlen])] at hg
    obtain ⟨e, -, rfl⟩ := List.mem_map.1 (List.mem_of_mem_take hg)
    rfl

/-- A rule that has all its arguments answers. -/
theorem follows_answer (hP : Program S) (hblind : r.Blind) {vs : List Value}
    (h : Stage (f :: gs) ρ₀ s₀ ρ σ m₁) (hq : Asking fs k f gs e)
    (hlinks : m₁.links.map (·.node) = n :: chainOf fs) (hk : k ≤ (chainOf fs).length)
    (hv : ∀ v ∈ vs, v.isReference = false)
    (hs : ∀ w m₂, m₁.answer r k vs = (some w, m₂) → m.step φ = m₂.finishResolved w) :
    Follows S fuel m φ (reply e.node (r.handler ⟨vs.map (Value.rename ρ), []⟩ {}).1 σ)
      fun r m φ => Answers fs ρ₀ s₀ ((r.1, k), r.2) m φ := by
  obtain ⟨hsame, hanswer⟩ := hblind ρ vs (m₁.links.take (k + 1)) m₁.record hv
  rw [hsame]
  -- The call of the handler is noted, and its answer given to the accessor.
  let m₂ : Machine := { m₁ with
    record := (r.handler ⟨vs, m₁.links.take (k + 1)⟩ m₁.record).2
    calls := ⟨r, ⟨vs, m₁.links.take (k + 1)⟩⟩ :: m₁.calls }
  have h₂ : Stage (f :: gs) ρ₀ s₀ ρ σ m₂ :=
    ⟨h.frames, h.reflects, h.lastFault, h.next, h.since, h.stack_eq⟩
  rcases hanswer with ⟨w, hw, hdata⟩ | ⟨message, hmessage⟩
  · have ha : m₁.answer r k vs = (some w, m₂.setResult k w) := by
      simp only [answer, hw, m₂]
    rw [hw]
    exact follows_resolved hP h₂ hq hlinks hk (hs _ _ ha) (Value.rename_of_isData hdata)
  · obtain ⟨v, σ', hfault, hv', h₃⟩ := h₂.fault e.node message
    have ha : m₁.answer r k vs = (some (m₂.fault e.node message).1,
        (m₂.fault e.node message).2.setResult k (m₂.fault e.node message).1) := by
      have hframe : m₁.frames[k]? = some e := by
        rw [h.frames]
        exact hq.reached
      simp only [answer, hmessage, setFault, hframe, m₂]
    rw [hmessage, reply, hfault]
    exact follows_resolved hP h₃ hq hlinks hk (hs _ _ ha) hv'

/-- A frame gathers the arguments for the rule that it has been reached by. -/
theorem Stage.prepare {arity wanted : Nat} {vs : List Value} (h : Stage (f :: gs) ρ₀ s₀ ρ σ m)
    (hq : Asking fs k f gs e) (harity : r.ending.arity? = some arity)
    (hg : e.gatheredFor arity = ⟨wanted, vs⟩) :
    ∃ m' f' gs' e', m.prepare r k = (vs, (e.node.arguments.take wanted)[vs.length]?, m') ∧
      Alike m m' ∧ Stage (f' :: gs') ρ₀ s₀ ρ σ m' ∧ Asking fs k f' gs' e' ∧ f'.node = f.node ∧
      e'.node = e.node ∧ e'.gathered = some ⟨wanted, vs⟩ := by
  obtain ⟨f', gs', hset, hcore, hq'⟩ :=
    hq.set { e with gathered := some ⟨wanted, vs⟩ } rfl rfl
  have he : m.frames[k]? = some e := by
    rw [h.frames]
    exact hq.reached
  refine ⟨_, f', gs', _, prepare_eq harity he hg, ⟨rfl, rfl, map_core_set he rfl, rfl, rfl, rfl, rfl⟩,
    ⟨?_, h.reflects, h.lastFault, h.next, h.since, h.stack_eq⟩, hq', congrArg Prod.fst hcore, rfl, rfl⟩
  rw [← hset, ← h.frames]

/-- One more argument is there. -/
theorem Stage.addArgument {g : Gathered} (h : Stage (f :: gs) ρ₀ s₀ ρ σ m)
    (hq : Asking fs k f gs e) (hg : e.gathered = some g) (v : Value) :
    ∃ f' gs' e', Stage (f' :: gs') ρ₀ s₀ ρ σ (m.addArgument k v) ∧ Asking fs k f' gs' e' ∧
      f'.node = f.node ∧ e'.node = e.node ∧
      e'.gathered = some { g with values := g.values ++ [v] } := by
  obtain ⟨f', gs', hset, hcore, hq'⟩ :=
    hq.set { e with gathered := some { g with values := g.values ++ [v] } } rfl rfl
  refine ⟨f', gs', _, ⟨?_, h.reflects, h.lastFault, h.next, h.since, h.stack_eq⟩, hq',
    congrArg Prod.fst hcore, rfl, rfl⟩
  rw [Machine.addArgument, h.frames, ← hset]
  refine List.ext_getElem? fun i => ?_
  by_cases hi : k = i
  · obtain rfl := hi
    have hlt := (List.getElem?_eq_some_iff.1 hq.reached).1
    rw [List.getElem?_modify_eq, hq.reached, List.getElem?_set_self hlt]
    simp [hg]
  · rw [List.getElem?_modify_ne _ _ hi, List.getElem?_set_ne hi]

/-- The arguments that a rule asks for are evaluated, and then it answers. -/
theorem follows_gathering (hP : Program S) (hE : Simulates S fuel E) (ha : Agrees ρ₀ env s₀ Γ)
    (hblind : r.Blind) {arity wanted : Nat} (harity : r.ending.arity? = some arity)
    (hreach : r.reach? (n :: chainOf fs) = some k) {as : List Node} (has : ∀ a ∈ as, a.Scoped Γ)
    {vs : List Value} (h : Stage (f :: gs) ρ₀ s₀ ρ σ m₁) (hf : f.node = n)
    (hq : Asking fs k f gs e) (hlinks : m₁.links.map (·.node) = n :: chainOf fs)
    (hg : e.gatheredFor arity = ⟨wanted, vs⟩)
    (hrest : (e.node.arguments.take wanted).drop vs.length = as)
    (hv : ∀ v ∈ vs, Keeps S m₁.cells v) (hs : m.step φ = consult n (r :: rest) m₁) :
    Follows S fuel m φ (inOrder E env as (fun us =>
      reply e.node (r.handler ⟨vs.map (Value.rename ρ) ++ us, []⟩ {}).1) σ)
      fun r m φ => Answers fs ρ₀ s₀ ((r.1, k), r.2) m φ := by
  have hk : k ≤ (chainOf fs).length := Nat.le_of_lt_succ (Host.reach?_lt hreach)
  induction as generalizing ρ σ m φ vs e f gs m₁ with
  | nil =>
    obtain ⟨m₂, f₂, gs₂, e₂, hprep, hlike, h₂, hq₂, hf₂, he₂, hg₂⟩ := h.prepare hq harity hg
    have hmissing : (e.node.arguments.take wanted)[vs.length]? = none := by
      rw [List.getElem?_eq_none_iff]
      exact List.drop_eq_nil_iff.1 hrest
    rw [hmissing] at hprep
    rw [inOrder, List.append_nil, ← he₂]
    refine follows_answer hP hblind h₂ hq₂ (hlike.links_node.trans hlinks) hk
      (fun v hm => Value.isReference_of_kept (hv v hm)) fun w m₃ hanswer => ?_
    rw [hs]
    exact consult_answer (by rw [hlinks, hreach]) hprep hanswer
  | cons a as ih =>
    obtain ⟨m₂, f₂, gs₂, e₂, hprep, hlike, h₂, hq₂, hf₂, he₂, hg₂⟩ := h.prepare hq harity hg
    have hnext : (e.node.arguments.take wanted)[vs.length]? = some a := by
      rw [← List.head?_drop, hrest]
      rfl
    have hlater : (e.node.arguments.take wanted).drop (vs.length + 1) = as := by
      rw [← List.tail_drop, hrest]
      rfl
    rw [hnext] at hprep
    refine follows_await hP h₂ (hs.trans (consult_ask (by rw [hlinks, hreach]) hprep))
      fun m₃ h₃ hcells => ?_
    obtain ⟨e₃, hq₃, he₃, hg₃⟩ := hq₂.await (ψ := .asking k (r :: rest)) rfl
    have hcells₃ : m₃.cells = m₁.cells := hcells.trans hlike.cells
    have hchain : ∀ {m' : Machine} {φ' : Focus}, Fit S m' φ' → (∀ c, φ' ≠ .enter c) →
        m'.frames = { f₂ with phase := .asking k (r :: rest) } :: gs₂ →
        m'.links.map (·.node) = n :: chainOf fs := by
      intro m' φ' hfit hφ hframes
      rw [links_eq hP hfit hφ hframes, chainOf_of_core hq₂.cores]
      exact congrArg (· :: chainOf fs) (hf₂.trans hf)
    have hreceive : ∀ (m' : Machine) (w : Value),
        m'.receive { f₂ with phase := .asking k (r :: rest) } w =
          m'.receiveArgument n k (r :: rest) w := by
      intro m' w
      rw [← hf, ← hf₂]
      rfl
    refine follows_andThen hP hE h₃ (chainOf_cons rfl) (has a (by simp)) ha ?_ ?_
    · intro ρ₄ σ₄ m₄ w h₄ hab
      refine .of_fit fun hfit => ?_
      have hw : m₄.cells.deref w = w := by
        cases w with
        | reference c => simp [Value.isAbrupt, Value.isError, Value.isSignal] at hab
        | _ => rfl
      have hs₄ : m₄.step (.give w) = (m₄.setResult k w).finishResolved w := by
        rw [step_give h₄, hreceive, receiveArgument, hw]
        exact if_pos hab
      exact follows_resolved hP h₄ hq₃ (hchain hfit (by simp) h₄.frames) hk hs₄ rfl
    · intro ρ₄ σ₄ m₄ w h₄ hx hab
      rw [hcells₃] at hx
      refine follows_read h₄ fun hkeeps => .of_fit fun hfit => ?_
      have hs₄ : m₄.step (.give w) =
          consult n (r :: rest) (m₄.addArgument k (m₄.cells.deref w)) := by
        rw [step_give h₄, hreceive, receiveArgument]
        exact if_neg (by simp [h₄.isAbrupt_deref hfit hab])
      obtain ⟨f₅, gs₅, e₅, h₅, hq₅, hf₅, he₅, hg₅⟩ :=
        h₄.addArgument hq₃ (hg₃.trans hg₂) (m₄.cells.deref w)
      have hnode : e₅.node = e.node := he₅.trans (he₃.trans he₂)
      have hlinks₅ := (alike_addArgument m₄ k (m₄.cells.deref w)).links_node.trans
        (hchain hfit (by simp) h₄.frames)
      have hv₅ : ∀ v ∈ vs ++ [m₄.cells.deref w], Keeps S m₄.cells v := by
        intro v hm
        rcases List.mem_append.1 hm with hm | hm
        · exact hx.keeps (hv v hm)
        · exact List.mem_singleton.1 hm ▸ hkeeps
      have ih₅ := ih (fun a' ha' => has a' (by simp [ha'])) h₅ (hf₅.trans (hf₂.trans hf)) hq₅ hlinks₅
        (by rw [Frame.gatheredFor, hg₅]; rfl) (by rw [hnode, List.length_append]; exact hlater)
        hv₅ hs₄
      have hold : vs.map (Value.rename ρ₄) = vs.map (Value.rename ρ) :=
        List.map_congr_left fun v hm => hx.rename (hv v hm)
      rw [hnode] at ih₅
      simpa [hold] using ih₅

/-- The frame of the accessor that a rule has reached. -/
theorem exists_reached (f : Frame) (hk : k ≤ (chainOf fs).length) :
    ∃ e, (f :: fs)[k]? = some e ∧ e.node = (f.node :: chainOf fs).getD k f.node ∧
      e ∈ f :: fs.takeWhile (·.phase.isAccessed) := by
  have hlt : k < (f :: fs.takeWhile (·.phase.isAccessed)).length := by
    simpa [chainOf, Nat.lt_succ_iff] using hk
  have hchain : f.node :: chainOf fs = (f :: fs.takeWhile (·.phase.isAccessed)).map Frame.node := rfl
  have hpre : f :: fs.takeWhile (·.phase.isAccessed) <+: f :: fs :=
    List.cons_prefix_cons.2 ⟨rfl, List.takeWhile_prefix _⟩
  refine ⟨_, ?_, ?_, List.getElem_mem hlt⟩
  · rw [hpre.getElem hlt]
    exact List.getElem?_eq_getElem _
  · rw [hchain, List.getD_eq_getElem?_getD, List.getElem?_map, List.getElem?_eq_getElem hlt]
    rfl

/-- **The first rule that reaches out from the accessor of the top frame answers.** -/
theorem follows_ask (hP : Program S) (hE : Simulates S fuel E) (hclear : Clear Γ fs)
    (ha : Agrees ρ₀ env s₀ Γ) (has : ∀ a ∈ n.arguments, a.Scoped Γ) (hψ : ψ.isBare = true)
    (h : Stage ({ node := n, phase := ψ } :: fs) ρ₀ s₀ ρ σ m) (hblind : ∀ r ∈ rules, r.Blind)
    (hφ : ∀ c, φ ≠ .enter c) (hs : m.step φ = consult n rules m) :
    Follows S fuel m φ (ask E env (chainOf fs) n rules σ) (Answers fs ρ₀ s₀) := by
  refine .of_fit fun hfit => ?_
  have hlinks := links_eq hP hfit hφ h.frames
  have hresults := results_none hfit h.frames rfl
  rw [h.frames] at hresults
  unfold ask
  rw [← hlinks]
  cases hfind : rules.findSome? fun r => (r.reach? (m.links.map (·.node))).map (r, ·) with
  | none =>
    rw [consult_of_none hfind n] at hs
    refine (follows_finishFault hP h hψ hs).bind hP fun v σ' m' φ' hd => .here ?_
    exact hd.answers
  | some p =>
    obtain ⟨r, k⟩ := p
    obtain ⟨hr, hreach, rest, hc⟩ := consult_of_some hfind n
    rw [hc] at hs
    rw [hlinks] at hreach ⊢
    have hk : k ≤ (chainOf fs).length := Nat.le_of_lt_succ (Host.reach?_lt hreach)
    obtain ⟨e, he, hnode, hmem⟩ := exists_reached { node := n, phase := ψ } hk
    have hq : Asking fs k { node := n, phase := ψ } fs e := ⟨hψ, rfl, rfl, hresults, he⟩
    obtain ⟨hg, hargs⟩ : e.gathered = none ∧ ∀ a ∈ e.node.arguments, a.Scoped Γ := by
      rcases List.mem_cons.1 hmem with rfl | hmem
      · exact ⟨rfl, has⟩
      · exact hclear e hmem
    dsimp only at hnode ⊢
    rw [← hnode]
    refine Follows.bind hP (Q := fun r m φ => Answers fs ρ₀ s₀ ((r.1, k), r.2) m φ) ?_
      fun v σ' m' φ' hd => .here hd
    cases harity : r.ending.arity? with
    | none =>
      have hprep : m.prepare r k = ([], none, m) := by simp only [prepare, harity]
      have hanswer : ∀ w m₂, m.answer r k [] = (some w, m₂) → m.step φ = m₂.finishResolved w :=
        fun w m₂ hw => hs.trans (consult_answer (by rw [hlinks, hreach]) hprep hw)
      have hfollows : Follows S fuel m φ _ _ := follows_answer hP (hblind r hr) h hq hlinks hk
        (List.forall_mem_nil _) hanswer
      simpa [inOrder] using hfollows
    | some arity =>
      have hfor : e.gatheredFor arity = ⟨min arity e.node.arguments.length, []⟩ := by
        rw [Frame.gatheredFor, hg]
        rfl
      have htake : ∀ a ∈ e.node.arguments.take arity, a.Scoped Γ := fun a hm =>
        hargs a (List.mem_of_mem_take hm)
      have hgather := follows_gathering hP hE ha (hblind r hr) harity hreach htake h rfl hq hlinks hfor
        (by simp) (by simp) hs
      simpa using hgather

/-! ## All nodes -/

/-- **The machine follows the interpreter on every node.** -/
theorem follows_node (hP : Program S) (hS : ClosedBodies S) (hE : Simulates S fuel E)
    (h : Stage fs ρ₀ s₀ ρ σ m) (hclear : Clear Γ fs) (ha : Agrees ρ₀ env s₀ Γ) (hn : n.Scoped Γ) :
    Follows S (fuel + 1) m (.enter n) (node E env fuel (chainOf fs) n σ) (Answers fs ρ₀ s₀) := by
  have hmembers : ∀ (x : Node) {σ : Store} {ρ : Nat → Nat} {m : Machine} {w : Value},
      (∀ a ∈ x.arguments, a.Scoped Γ) →
      Stage ({ node := x, phase := .accessed } :: fs) ρ₀ s₀ ρ σ m →
      m.step (.give w) = consult x (Host.members (m.cells.deref w)) m →
      Follows S fuel m (.give w)
        (ask E env (chainOf fs) x (Host.members ((m.cells.deref w).rename ρ)) σ)
        (Answers fs ρ₀ s₀) := by
    intro x σ ρ m w has h hs
    rw [Value.members_rename]
    exact follows_ask hP hE hclear ha has rfl h (Host.blind_members _) (by simp) hs
  cases n with
  | name t s =>
    refine follows_push hP h (fun _ => rfl) fun m₁ h₁ => .of_fit fun hfit => ?_
    have hs : m₁.step .begin = consult (.name t s) Host.standard m₁ := by
      have hrules : m₁.rules = Host.standard := by
        rw [Machine.rules, hfit.host]
        rfl
      rw [Machine.step, h₁.frames, ← hrules]
      rfl
    exact follows_ask hP hE hclear ha (by simp [Node.arguments]) rfl h₁ Host.blind_standard
      (by simp) hs
  | member t left s =>
    have has : ∀ a ∈ (Node.member t left s).arguments, a.Scoped Γ := by simp [Node.arguments]
    refine follows_through hP hE h hclear ha (hn.of_mem rfl (by simp [Node.children])) has
      (fun _ => rfl) (fun _ => rfl) fun ρ₁ σ₁ m₁ w h₁ _ _ hs => hmembers _ has h₁ hs
  | index t left i =>
    have has : ∀ a ∈ (Node.index t left i).arguments, a.Scoped Γ := fun a hm =>
      hn.of_mem rfl (List.mem_cons_of_mem left hm)
    refine follows_through hP hE h hclear ha (hn.of_mem rfl (by simp [Node.children])) has
      (fun _ => rfl) (fun _ => rfl) fun ρ₁ σ₁ m₁ w h₁ _ _ hs => hmembers _ has h₁ hs
  | call t left as =>
    have has : ∀ a ∈ (Node.call t left as).arguments, a.Scoped Γ := fun a hm =>
      hn.of_mem rfl (List.mem_cons_of_mem left hm)
    refine follows_through hP hE h hclear ha (hn.of_mem rfl (by simp [Node.children])) has
      (fun _ => rfl) (fun _ => rfl) fun ρ₁ σ₁ m₁ w h₁ _ _ hs => ?_
    cases hw : m₁.cells.deref w with
    | function callee =>
      refine (follows_invoke hP hS hE ha has h₁ hs hw).bind hP fun v σ' m' φ' hd => .here ?_
      exact hd.answers
    | _ =>
      have hfollows := hmembers _ has h₁ (hs.trans (by simp only [receivePlain, hw]))
      rw [hw] at hfollows
      exact hfollows
  | _ =>
    refine (follows_simple hP hE h ha hn rfl).bind hP fun v σ' m' φ' hd => .here ?_
    exact hd.answers

/-- **With the same fuel the machine follows the interpreter.** -/
theorem simulates_eval (hP : Program S) (hS : ClosedBodies S) (fuel : Nat) :
    Simulates S fuel (eval fuel) := by
  induction fuel with
  | zero => exact fun _ _ _ _ => .empty
  | succ fuel ih => exact fun h hclear hn ha => follows_node hP hS ih h hclear ha hn

end Steppable.Lexical
