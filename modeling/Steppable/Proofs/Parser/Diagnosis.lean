import Steppable.Console.Script
import Steppable.Proofs.Parser.Acceptance
import Steppable.Proofs.Parser.Progress

/-!
# No error is lost

A source is never read halfway without a word. Reading goes on behind a first error, drops parts that
were begun and returns others in place of what was wanted, so an error could be noted and not be
shown, or the end of a source be left unread. `errors_reported` says that it is not so: an error is
noted if and only if the tree shows one, and without an error the whole text has been cut into tokens
and every token has been passed. So a source with an error is reported and not evaluated.
-/

namespace Steppable

variable {α : Type} {p q : Parser} {n : Node} {ss : List Node}

/-- What a reader gives satisfies whatever is ensured of it. -/
theorem Reading.Yields.and {x : Reading α} {Q Q' : α → Parser → Prop} (h : x.Yields p Q)
    (h' : x.Ensures p Q') : x.Yields p fun a q => Q a q ∧ Q' a q := by
  obtain ⟨a, q, hx, ha⟩ := h
  exact ⟨a, q, hx, ha, h' a q hx⟩

theorem Node.invalids_ne_nil_iff : n.invalids ≠ [] ↔ n.Faulty := by
  have h := Node.invalids_isEmpty_iff (n := n)
  rw [List.isEmpty_iff] at h
  exact ⟨fun hne => Classical.not_not.1 fun hf => hne (h.2 hf), fun hf hn => h.1 hn hf⟩

namespace Parser

open Reading Node

/-! ## The statements of a source -/

/-- Without a closing token the statements go on to an error or to the end of the input. -/
theorem ensures_end (fuel : Nat) (p : Parser) : (statements fuel none).Ensures p fun _ q =>
    q.failed = true ∨ q.cursor.current.kind = .endOfInput := by
  induction fuel generalizing p with
  | zero => exact ensures_outOfFuel
  | succ fuel ih =>
    rw [statements]
    refine .bind (ensures_hasFailed ?_)
    split
    · rename_i hf
      exact ensures_pure (.inl hf)
    · refine .bind (.bind (ensures_current (ensures_pure ?_)))
      split
      · rename_i he
        exact ensures_pure (.inr (by simpa [Token.Kind.isEndOfInput] using he))
      · refine .bind fun s q _ => .bind ((ih q).mono fun ss r hr => ensures_pure hr)

/-- The nodes `ss` have been read from `p` on, up to an error that they show or to the end. -/
structure Covers (p : Parser) (ss : List Node) (q : Parser) : Prop where
  passes : Passes p q
  tells : Tells p ss q
  ended : q.failed = false → q.cursor.current.kind = .endOfInput

theorem Covers.of_same {q' : Parser} (h : Covers p ss q) (hc : q'.cursor = q.cursor)
    (hf : q'.failed = q.failed) : Covers p ss q' := by
  have ho : q'.outlook = q.outlook := by rw [outlook, outlook, hc]
  exact ⟨⟨ho ▸ h.passes.outlook, fun hp => hf ▸ h.passes.failed hp⟩, h.tells.trans_nil hf,
    fun hq => hc ▸ h.ended (hf ▸ hq)⟩

theorem covers_statements {fuel : Nat} (h : Fuelled 5 fuel p) :
    (statements fuel none).Yields p fun ss => Covers p ss := by
  refine (((halting fuel).statements (.inr h) none (by simp)).and
    (ensures_and ((candid fuel).statements p none) (ensures_end fuel p))).mono ?_
  rintro ss q ⟨hp, ht, he⟩
  exact ⟨hp, ht, fun hf => he.resolve_left (by simp [hf])⟩

theorem covers_unexpected {expected : String} (h : Covers p [] q) :
    (unexpected expected).Yields q fun e r => Covers p [e] r := by
  refine .bind (yields_here fun _ => .bind (yields_kind ?_))
  refine .bind (yields_modifyGet (yields_node fun t => ?_))
  refine ⟨⟨h.passes.outlook, fun _ => rfl⟩, ?_, fun hf => by cases hf⟩
  simp [Tells, faulty_of_isInvalid (n := .invalid t _) rfl]

theorem covers_blockOf {place : Location} {locals : List Declaration} (h : Covers p ss q) :
    (blockOf place ss locals).Yields q fun n r => Covers p [n] r := by
  unfold blockOf
  split
  · exact yields_pure h
  · have hs : Covers p ss { q with next := q.next + 1 } := h.of_same rfl rfl
    exact yields_node fun t => ⟨hs.passes, h.tells.node rfl rfl, hs.ended⟩

theorem covers_closeScope (h : Covers p ss q) : closeScope.Yields q fun _ r => Covers p ss r := by
  refine yields_modifyGet ?_
  split <;> exact h.of_same rfl rfl

/-! ## Whole sources -/

/-- The scope of a source, if it has one of its own, is closed at its end. -/
theorem covers_gathered {start : Location} {top : Nat} (global : Bool) (h : Covers p ss q) :
    Reading.Yields (do
      modify fun p => { p with scope := p.scope.closeTo top }
      let locals ← if global then pure [] else closeScope
      blockOf (start.extend (← get).cursor.previous) ss locals) q fun n r => Covers p [n] r := by
  refine .bind (yields_modifyGet ?_)
  have hq : Covers p ss { q with scope := q.scope.closeTo top } := h.of_same rfl rfl
  cases global with
  | true => exact .bind (yields_pure (.bind (yields_get (covers_blockOf hq))))
  | false =>
    exact .bind ((covers_closeScope hq).mono fun _ r hr => .bind (yields_get (covers_blockOf hr)))

/-- The tree of a source covers its statements; without any it is an error. -/
theorem covers_whole {fuel : Nat} {f : List Node → Reading Node} (h : Fuelled 5 fuel p)
    (hf : ∀ ss q, Covers p ss q → (f ss).Yields q fun n r => Covers p [n] r) :
    Reading.Yields (do
      let ss ← statements fuel none
      let failed ← hasFailed
      let ss ← if ss.isEmpty && !failed then (return [← unexpected "expression"]) else pure ss
      f ss) p fun n r => Covers p [n] r := by
  refine .bind ((covers_statements h).mono fun ss q hq => .bind (yields_hasFailed ?_))
  split
  · rename_i hs
    obtain rfl : ss = [] := by simpa using (Bool.and_eq_true_iff.1 hs).1
    refine .bind (.bind ((covers_unexpected hq).mono fun e r hr => ?_))
    exact yields_pure (hf _ _ hr)
  · exact .bind (yields_pure (hf ss q hq))

theorem covers_analyse {fuel : Nat} (h : Fuelled 5 fuel p) : (analyse fuel).Yields p fun n q =>
    Covers { p with failed := false, functions := [] } [n] q := by
  unfold analyse
  refine .bind (yields_modifyGet ?_)
  have h : Fuelled 5 fuel { p with failed := false, functions := [] } := ⟨h.proper, h.enough⟩
  dsimp only
  generalize ({ p with failed := false, functions := [] } : Parser) = p at h ⊢
  refine .bind (yields_here fun start => .bind (yields_get ?_))
  cases hg : p.scope.options.global with
  | true =>
    refine .bind (yields_get (covers_whole h fun ss q hq => ?_))
    exact covers_gathered true hq
  | false =>
    refine .bind (yields_modifyGet (.bind (yields_get ?_)))
    have h : Fuelled 5 fuel { p with scope := p.scope.opened } := ⟨h.proper, h.enough⟩
    refine (covers_whole h fun ss q hq => covers_gathered false hq).mono fun n q hq => ?_
    exact ⟨⟨hq.passes.outlook, hq.passes.failed⟩, hq.tells, hq.ended⟩

theorem outlook_ofSource (source : String) :
    (Cursor.ofSource source).outlook = (Token.lex source).map Token.bare :=
  (outlook_facing source).trans (map_bare_lex source).symm

/-- The fuel of a source is enough for it. -/
theorem fuelled_source (p : Parser) (source : String) :
    Fuelled 5 (fuelFor (Cursor.ofSource source).ahead.length)
      { p with cursor := .ofSource source } := by
  have ho := outlook_facing source
  refine ⟨?_, ?_⟩
  · show Token.Proper (Cursor.ofSource source).outlook
    rw [outlook_ofSource, map_bare_lex]
    exact Token.bareTokens_proper .none source.toList
  · show 8 * (Cursor.ofSource source).outlook.length + 5 ≤ _
    rw [outlook_ofSource, map_bare_lex, length_tokensOf, fuelFor]
    omega

/-- Whatever the source is, its tree covers it. -/
theorem covers_parse (p : Parser) (source : String) :
    Covers { p with cursor := .ofSource source, failed := false, functions := [] }
      [(p.parse source).1] (p.parse source).2 := by
  obtain ⟨n, q, hrun, hq⟩ := covers_analyse (fuelled_source p source)
  rw [parse, hrun]
  exact hq

theorem failed_iff_invalids (p : Parser) (source : String) :
    (p.parse source).2.failed = true ↔ (p.parse source).1.invalids ≠ [] := by
  have htells := (covers_parse p source).tells
  rw [invalids_ne_nil_iff]
  simpa [Tells] using htells

/-- Without an error the last token has been reached, and it is the end of the input. -/
theorem parse_ended {source : String} (h : (p.parse source).1.invalids = []) :
    (p.parse source).2.cursor.current.kind = .endOfInput ∧
    (p.parse source).2.cursor.ahead = [] ∧
    ∀ t ∈ Token.lex source, t.kind.isError = false := by
  have hcovers := covers_parse p source
  have hproper := (fuelled_source p source).proper
  have hf := failed_iff_invalids p source
  generalize p.parse source = r at h hcovers hf ⊢
  obtain ⟨n, q⟩ := r
  have hend : q.cursor.current.kind = .endOfInput :=
    hcovers.ended (Bool.eq_false_iff.2 fun hq => hf.1 hq h)
  have hlast : q.cursor.ahead.map Token.bare = [] := by
    apply (hcovers.passes.proper hproper).singleton
    rw [show q.cursor.current.bare.kind = .endOfInput from hend]
    rfl
  refine ⟨hend, List.map_eq_nil_iff.1 hlast, fun t ht => ?_⟩
  have ho : q.outlook = [q.cursor.current.bare] := by
    rw [outlook, Cursor.outlook, List.map_cons, hlast]
  have hsuffix : [q.cursor.current.bare] <:+ (Token.lex source).map Token.bare := by
    rw [← ho, ← outlook_ofSource]
    exact hcovers.passes.outlook
  have hlex : Token.Proper ((Token.lex source).map Token.bare) := by
    rw [← outlook_ofSource]
    exact hproper
  exact hlex.isError hsuffix hend t.bare (List.mem_map_of_mem ht)

end Parser

/-! ## What is reported -/

open Steppable.Parser in
/-- **No error of a source is lost.** Whatever the parser has read before, an error of the source is
noted if and only if the tree shows one, so there is something to report exactly then. Without an
error the parser has come to the end of the input, and no token of the text is an error. With one the
source does not succeed and is not evaluated: nothing is printed, and the machine only has the cells
of the global variables. -/
theorem errors_reported (p : Parser) (source : String) :
    ((p.parse source).2.failed = true ↔ (p.parse source).1.invalids ≠ []) ∧
    ((p.parse source).2.failed = true ↔ Diagnostic.ofTree (p.parse source).1 ≠ []) ∧
    ((p.parse source).1.invalids = [] →
      (p.parse source).2.cursor.current.kind = .endOfInput ∧
      (p.parse source).2.cursor.ahead = [] ∧
      ∀ t ∈ Token.lex source, t.kind.isError = false) ∧
    ((p.parse source).2.failed = true → ∀ machine name step steps,
      let run := Console.runIn ⟨p, machine⟩ source name step steps
      run.1 = false ∧ run.2.1.out = "" ∧
        run.2.2 = ⟨(p.parse source).2, machine.declareGlobals (p.parse source).2.scope.globals⟩) := by
  have hfailed := failed_iff_invalids p source
  have hended := @parse_ended p source
  generalize hr : p.parse source = r at hfailed hended ⊢
  obtain ⟨n, q⟩ := r
  have hreport : Diagnostic.ofTree n ≠ [] ↔ n.invalids ≠ [] := by
    rw [Diagnostic.ofTree, ne_eq, List.map_eq_nil_iff]
  refine ⟨hfailed, hfailed.trans hreport.symm, hended, fun hq machine name step steps => ?_⟩
  have hds := hreport.2 (hfailed.1 hq)
  -- There is something to report, so the tree is not handed to the machine.
  simp [Console.runIn, Session.parse, hr]

/-- Behind the operator an operand is missing, so the source is not evaluated; the other source has
been read to its end. -/
theorem errors_reported_unfinished :
    ((Console.runIn (.new {}) "null +" "" false).1 = false ∧
      (Console.runIn (.new {}) "null +" "" false).2.1.out = "") ∧
    ((Parser.new {}).parse "null + null").2.cursor.ahead = [] := by
  have hfailed : ((Parser.new {}).parse "null +").2.failed = true := by decide +kernel
  have hclean : ((Parser.new {}).parse "null + null").1.invalids = [] := by
    rw [← List.isEmpty_iff]
    decide +kernel
  refine ⟨?_, ((errors_reported (Parser.new {}) "null + null").2.2.1 hclean).2.1⟩
  have hrun := (errors_reported (Parser.new {}) "null +").2.2.2 hfailed (Session.new {}).machine ""
    false Machine.patience
  exact ⟨hrun.1, hrun.2.1⟩

end Steppable
