import Steppable.Proofs.Parser.Soundness

/-!
# The trees of sources

Between two sources a parser is idle: no function is open, and of the scopes at most the global one.
`parse_sound` says what the next source does to it. The tree is tagged with identities that were not
used before, the global declarations stay and new ones may follow, and if the source has no error
then every variable of the tree is bound in it or global.
-/

namespace Steppable.Parser

open Reading Attempt Node

variable {p p' : Parser} {n : Node}

/-- The parser is not in the middle of a source. -/
structure Idle (p : Parser) : Prop where
  coherent : p.Coherent
  functions : p.functions = []
  levels : p.scope.levels = if p.scope.options.global then [p.scope.globals] else []

/-- What a source does: from `p` on the tree `n` has been read. -/
structure Parsed (p : Parser) (n : Node) (p' : Parser) : Prop where
  idle : p'.Idle
  next : p.next ≤ p'.next
  options : p'.scope.options = p.scope.options
  tagged : n.WellTagged
  /-- A source that cannot be read at all gives a root without an identity of its own. -/
  ids : ∀ x, n.Below x → p.next ≤ x.id ∧ x.id < p'.next
  binds : ∀ x, n.Within x → ∀ d ∈ x.binds, d.id < p'.next
  opens : ∀ x, n.Within x → ∀ d ∈ x.opens, p.next ≤ d.id ∧ ∀ e ∈ p'.scope.globals, e.id ≠ d.id
  globals : ∃ new, p'.scope.globals = p.scope.globals ++ new ∧
    ∀ d ∈ new, p.next ≤ d.id ∧ d.id < p'.next
  bound : p'.failed = false → n.Scoped (idsOf p'.scope.globals)

theorem idle_new (options : Scope.Options) (next : Nat) : (Parser.new options next).Idle := by
  have hd : (Parser.new options next).declared = [] := by
    unfold declared Parser.new Scope.new
    cases options.global <;> rfl
  refine ⟨⟨fun x => ?_, fun hg => ?_, by simp [hd], by simp [hd], by simp [hd], by simp [Parser.new]⟩,
    rfl, ?_⟩
  · unfold Parser.new Scope.new Scope.chain
    cases options.global <;> simp
  · simp_all [Parser.new, Scope.new]
  · unfold Parser.new Scope.new Scope.globals
    cases options.global <;> rfl

/-- What is visible between two sources is global. -/
theorem Idle.visible (h : p.Idle) {k : Nat} (hk : p.Visible k) : idsOf p.scope.globals k := by
  rcases hk with ⟨d, hd, rfl, -⟩ | ⟨free, hf, -⟩
  · rw [declared, h.levels] at hd
    cases hg : p.scope.options.global with
    | true => simpa [hg] using idsOf_of_mem (by simpa [hg] using hd)
    | false => simp [hg] at hd
  · simp [h.functions] at hf

/-- Global declarations are declared. -/
theorem Idle.mem_declared (h : p.Idle) {e : Declaration} (he : e ∈ p.scope.globals) :
    e ∈ p.declared := by
  rw [declared, h.levels]
  cases hg : p.scope.options.global with
  | true => simpa using he
  | false => simp [Scope.globals, hg] at he

/-- A parser that has read on inside the same scopes as an idle one is idle. -/
theorem Idle.grow (h : p.Idle) {new : List Declaration} (hg : Grows p new p') (hc : p'.Coherent) :
    p'.Idle ∧ p'.scope.globals = p.scope.globals ++ new := by
  have hf : p'.functions = [] := List.length_eq_zero_iff.1 (by rw [hg.functions, h.functions]; rfl)
  have hl := hg.levels
  rw [h.levels] at hl
  cases hgl : p.scope.options.global with
  | true =>
    rw [hgl] at hl
    have hp' : p'.scope.globals = p.scope.globals ++ new := by
      rw [show p'.scope.globals = p'.scope.levels.getLastD [] by
        simp [Scope.globals, hg.options, hgl], hl]
      rfl
    exact ⟨⟨hc, hf, by rw [hg.options, hgl, hl, hp']; rfl⟩, hp'⟩
  | false =>
    rw [hgl] at hl
    have hnew : new = [] := hg.opened (by rw [h.levels, hgl]; rfl)
    refine ⟨⟨hc, hf, by rw [hg.options, hgl, hl]; rfl⟩, ?_⟩
    simp [Scope.globals, hg.options, hgl, hnew]

/-! ## Reading a source -/

theorem closeTo_of_le {s : Scope} {depth : Nat} (h : s.depth ≤ depth) : s.closeTo depth = s := by
  unfold Scope.closeTo
  cases hd : s.depth with
  | zero => rfl
  | succ fuel => rw [Scope.closeDown, if_pos h]

theorem Follows.depth_eq {q : Parser} (h : Follows p q) : q.scope.depth = p.scope.depth := by
  obtain ⟨⟨new, hg⟩, -⟩ := h
  rw [Scope.depth, Scope.depth, hg.levels]
  cases p.scope.levels <;> rfl

/-- The statements of a source; there has to be one. -/
theorem ensures_whole {fuel : Nat} {f : List Node → Reading Node} {Q : Node → Parser → Prop}
    (h : p.Coherent) (hQ : ∀ ss q, ReadsAll p.next p ss q → (f ss).Ensures q Q) :
    Reading.Ensures (do
      let ss ← statements fuel none
      let failed ← hasFailed
      let ss ← if ss.isEmpty && !failed then (return [← unexpected "expression"]) else pure ss
      f ss) p Q := by
  refine .bind (((sound fuel).statements h none).mono fun ss q hr => ?_)
  refine .bind (ensures_hasFailed ?_)
  split
  · refine .bind (.bind ((steps_unexpected hr.1.coherent).mono fun n q' hn => ensures_pure ?_))
    exact hQ _ _ (Sound.readsAll_one (hn.1.after hr.1 hr.1.next_le))
  · exact .bind (ensures_pure (hQ ss q hr))

theorem Idle.of_same (h : p.Idle) (c : Cursor) (failed : Bool) :
    Idle { p with cursor := c, failed := failed } :=
  ⟨h.coherent.of_same (Nat.le_refl _) rfl rfl rfl, h.functions, h.levels⟩

/-- A source is read inside the same scopes, and a scope of its own is closed again. -/
theorem analyse_ensures (h : p.Idle) (fuel : Nat) :
    (analyse fuel).Ensures p fun n p' =>
      (∃ new, Grows { p with failed := false } new p') ∧ p'.Coherent ∧ Built p.next p' n := by
  have hp := h.of_same p.cursor false
  unfold analyse
  refine .bind (ensures_modify ?_)
  rw [← h.functions]
  change Reading.Ensures _ { p with failed := false } fun n p' =>
    (∃ new, Grows { p with failed := false } new p') ∧ p'.Coherent ∧
      Built ({ p with failed := false } : Parser).next p' n
  generalize { p with failed := false } = p at hp ⊢
  clear h
  rename Idle p => h
  refine .bind (ensures_here fun start => .bind (ensures_get ?_))
  cases hg : p.scope.options.global with
  | true =>
    refine .bind (ensures_get (ensures_whole h.coherent fun ss q hr => ?_))
    refine .bind (ensures_modify ?_)
    dsimp only
    rw [closeTo_of_le (Nat.le_of_eq hr.1.depth_eq)]
    refine .bind (ensures_pure (.bind (ensures_get ?_)))
    exact (Sound.steps_together hr hr.1.next_le).mono fun n q' hn => ⟨hn.1.1, hn.1.2, hn.2⟩
  | false =>
    refine .bind (ensures_modify ?_)
    refine .bind (ensures_get (ensures_whole h.coherent.openScope fun ss q hr => ?_))
    refine .bind (ensures_modify ?_)
    dsimp only
    rw [closeTo_of_le (Nat.le_of_eq hr.1.depth_eq)]
    obtain ⟨⟨⟨new, hg⟩, hq⟩, hb, ha⟩ := hr
    obtain ⟨scope, hs, hg', hc, hv⟩ := close_opened h.coherent hg hq
    refine .bind (ensures_modifyGet ?_)
    simp only [hs]
    refine .bind (ensures_get ?_)
    refine (Sound.steps_closed h.coherent hb ha hg' hc
      (fun d hd => ⟨(hg.fresh d hd).1, (hg.fresh d hd).2.1⟩) hv).mono ?_
    exact fun n q' hn => ⟨⟨_, hn.1⟩, hn.2⟩

/-- **Whatever a source is, its tree is tagged with new identities, and without an error every
variable of it is bound.** -/
theorem parse_sound (h : p.Idle) (source : String) :
    Parsed p (p.parse source).1 (p.parse source).2 := by
  unfold parse
  dsimp only
  split
  · rename_i r hr
    have hi := h.of_same (Cursor.ofSource source) false
    obtain ⟨⟨new, hg⟩, hc, hb⟩ :=
      analyse_ensures (h.of_same (Cursor.ofSource source) p.failed) _ _ _ hr
    obtain ⟨hidle, hglobals⟩ := hi.grow hg hc
    refine ⟨hidle, hg.next, hg.options, hb.tagged, fun x hx => hb.ids x hx.within, hb.binds,
      fun x hx d hd => ?_, ⟨new, hglobals, fun d hd => ?_⟩,
      fun hf => (hb.bound hf).mono fun _ hk => hidle.visible hk⟩
    · obtain ⟨hnew, hne⟩ := hb.opens x hx d hd
      exact ⟨hnew, fun e he => hne e (hidle.mem_declared he)⟩
    · exact ⟨(hg.fresh d hd).1, (hg.fresh d hd).2.1⟩
  · have bare : ∀ x, ¬ Below (.invalid {} "") x := by
      rintro x ⟨c, hc, -⟩
      simp [children] at hc
    have leaf : ∀ x, Within (.invalid {} "") x → x = .invalid {} "" := by
      intro x hx
      rcases within_iff.1 hx with rfl | hb
      · rfl
      · exact (bare x hb).elim
    refine ⟨h, Nat.le_refl _, rfl, fun x hx => ?_, fun x hx => (bare x hx).elim,
      fun x hx d hd => ?_, fun x hx d hd => ?_, ⟨[], by simp, by simp⟩,
      fun _ => .neutral rfl (by simp [children])⟩
    · obtain rfl := leaf x hx
      exact ⟨fun y hy => (bare y hy).elim, .inl (by simp [children]), by simp⟩
    · obtain rfl := leaf x hx
      simp [Node.binds] at hd
    · obtain rfl := leaf x hx
      simp [Node.opens] at hd

/-- A parser that has read some sources. Identities that others have used in between are left out. -/
inductive Used : Parser → Prop
  | new (options : Scope.Options) (next : Nat) : Used (Parser.new options next)
  | parse {p : Parser} (source : String) : Used p → Used (p.parse source).2
  | skip {p : Parser} {next : Nat} : Used p → p.next ≤ next → Used { p with next := next }

theorem Used.idle (h : Used p) : p.Idle := by
  induction h with
  | new options next => exact idle_new options next
  | parse source _ ih => exact (parse_sound ih source).idle
  | skip _ hn ih => exact ⟨ih.coherent.of_same hn rfl rfl rfl, ih.functions, ih.levels⟩

end Steppable.Parser

namespace Steppable

/-! ## Several sources -/

/-- Trees that have been read one after the other, by one parser or by several; `next` is the next
unused identity. -/
inductive ReadInTurn : List Node → Nat → Prop
  | none (next : Nat) : ReadInTurn [] next
  | read {ts : List Node} {next : Nat} {p : Parser} (source : String) :
      ReadInTurn ts next → p.Used → next ≤ p.next →
      ReadInTurn (ts ++ [(p.parse source).1]) (p.parse source).2.next

variable {ts : List Node} {next : Nat}

theorem ReadInTurn.wellTagged (h : ReadInTurn ts next) : ∀ t ∈ ts, t.WellTagged := by
  induction h with
  | none => simp
  | @read ts next p source _ hp _ ih =>
    intro t ht
    rcases List.mem_append.1 ht with ht | ht
    · exact ih t ht
    · obtain rfl := List.mem_singleton.1 ht
      exact (Parser.parse_sound hp.idle source).tagged

theorem ReadInTurn.id_lt (h : ReadInTurn ts next) :
    ∀ t ∈ ts, ∀ x, t.Below x → x.id < next := by
  induction h with
  | none => simp
  | @read ts next p source _ hp hn ih =>
    intro t ht x hx
    have hs := Parser.parse_sound hp.idle source
    rcases List.mem_append.1 ht with ht | ht
    · exact Nat.lt_of_lt_of_le (ih t ht x hx) (Nat.le_trans hn hs.next)
    · obtain rfl := List.mem_singleton.1 ht
      exact (hs.ids x hx).2

/-- **Trees that are read in turn form a program.** -/
theorem ReadInTurn.program (h : ReadInTurn ts next) : Program (nodesOf ts) := by
  refine program_of_apart h.wellTagged ?_
  induction h with
  | none => simp
  | @read ts next p source hr hp hn ih =>
    have hs := Parser.parse_sound hp.idle source
    -- What has been read before has smaller identities than the new tree.
    have hnew : ∀ t ∈ ts, ∀ x y, t.Below x → (p.parse source).1.Below y → x.id < y.id :=
      fun t ht x y hx hy =>
        Nat.lt_of_lt_of_le (hr.id_lt t ht x hx) (Nat.le_trans hn (hs.ids y hy).1)
    intro t ht u hu htu x y hx hy
    rcases List.mem_append.1 ht with ht | ht <;> rcases List.mem_append.1 hu with hu | hu
    · exact ih t ht u hu htu x y hx hy
    · obtain rfl := List.mem_singleton.1 hu
      exact Nat.ne_of_lt (hnew t ht x y hx hy)
    · obtain rfl := List.mem_singleton.1 ht
      exact (Nat.ne_of_lt (hnew u hu y x hy hx)).symm
    · exact (htu ((List.mem_singleton.1 ht).trans (List.mem_singleton.1 hu).symm)).elim

end Steppable
