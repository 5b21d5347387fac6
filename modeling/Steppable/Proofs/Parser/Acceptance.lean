import Steppable.Proofs.Parser.Printing
import Steppable.Proofs.Parser.Realisation

/-!
# The sources that are accepted

A source without declarations is read without an error if and only if the grammar derives statements
from its tokens, at least one (`accepts_iff`), and what is read has the shapes that are derived
(`statementsOf_eq`). That a tree shows no error and that none was noted is the same thing, because
every reader shows the errors that it notes.
-/

namespace Steppable

namespace Parser

open Reading Node

variable {p q : Parser} {source : String} {fuel : Nat} {ss ns : List Node}

/-- The parser that is about to read the statements of a source under the default rules. -/
def facing (source : String) : Parser :=
  { Parser.new {} with cursor := .ofSource source, scope := (Scope.new {}).opened }

/-- The statements of a source at the top level. -/
def statementsOf (source : String) : Option (List Node) :=
  ((statements (fuelFor (Cursor.ofSource source).ahead.length) none).run (facing source)).map (·.1)

/-- The tokens of a source, without their places. -/
def tokensOf (source : String) : List Token :=
  Token.bareTokens .none source.toList

theorem map_bare_lex (source : String) : (Token.lex source).map Token.bare = tokensOf source :=
  rfl

theorem outlook_facing (source : String) : (facing source).outlook = tokensOf source := by
  have hne := (Token.bareTokens_proper .none source.toList).ne_nil
  show (Cursor.start source false 0).outlook = _
  rw [← map_bare_lex]
  unfold Cursor.start
  split
  · rename_i hl
    exact (hne (by rw [← tokensOf, ← map_bare_lex, hl]; rfl)).elim
  · rename_i t ts hl
    rw [hl]
    rfl

theorem length_tokensOf (source : String) :
    (tokensOf source).length = (Cursor.ofSource source).ahead.length + 1 := by
  rw [← outlook_facing]
  simp [outlook, Cursor.outlook, facing]

theorem undeclaring_map_bare (afterDot : Bool) (ts : List Token) :
    Token.undeclaring afterDot (ts.map Token.bare) = Token.undeclaring afterDot ts := by
  induction ts generalizing afterDot with
  | nil => rfl
  | cons t ts ih =>
    simp only [List.map_cons, Token.undeclaring, ih]
    rfl

theorem facing_scope (source : String) : (facing source).scope.Empty where
  unbound x := by
    show ((∅ : Std.TreeMap String (List Scope.Entry)).getD x []).head?.map _ = none
    simp
  levels := by simp [facing, Scope.new, Scope.opened]

theorem facing_stands (source : String) : Stands (facing source) (tokensOf source) :=
  ⟨outlook_facing source, Token.bareTokens_proper .none source.toList, facing_scope source, rfl⟩

/-! ## From statements to the tree -/

/-- The tree of the statements of a source. -/
def gather (start : Location) (top : Nat) (ss : List Node) : Reading Node := do
  modify fun p => { p with scope := p.scope.closeTo top }
  let locals ← closeScope
  blockOf (start.extend (← get).cursor.previous) ss locals

/-- What is done with the statements of a source once they are read. -/
def conclude (start : Location) (top : Nat) (ss : List Node) : Reading Node := do
  if ss.isEmpty && !(← hasFailed) then
    let error ← (do return [← unexpected "expression"] : Reading (List Node))
    gather start top error
  else gather start top ss

theorem analyse_run (fuel : Nat) (source : String) :
    ∃ start, (analyse fuel).run { Parser.new {} with cursor := .ofSource source } =
      (statements fuel none >>= conclude start 1).run (facing source) :=
  ⟨_, rfl⟩

theorem treeOf_eq (source : String) : ∃ start, treeOf source =
    (((statements (fuelFor (Cursor.ofSource source).ahead.length) none >>= conclude start 1).run
      (facing source)).getD (.invalid {} "", Parser.new {})).1 := by
  obtain ⟨start, hrun⟩ := analyse_run (fuelFor (Cursor.ofSource source).ahead.length) source
  refine ⟨start, ?_⟩
  rw [← hrun, treeOf, parse]
  dsimp only
  split <;> rename_i heq <;> rw [heq] <;> rfl

theorem yields_gather {start : Location} {top : Nat} :
    (gather start top ss).Yields p fun n _ => n.Faulty ↔ ∃ s ∈ ss, s.Faulty := by
  refine .bind (yields_modifyGet (.bind (yields_modifyGet (.bind (yields_get ?_)))))
  unfold blockOf
  split
  · exact yields_pure (by simp)
  · refine yields_node fun t => ?_
    rw [faulty_iff]
    simp [isInvalid, children]

/-- The tree shows an error if a statement does, or if there is none. -/
theorem yields_conclude (start : Location) (top : Nat) (h : ss = [] → p.failed = false) :
    (conclude start top ss).Yields p fun n _ => n.Faulty ↔ ss = [] ∨ ∃ s ∈ ss, s.Faulty := by
  refine .bind (yields_hasFailed ?_)
  cases ss with
  | nil =>
    rw [h rfl]
    refine .bind (.bind (.bind (yields_here fun _ => .bind (yields_kind ?_))))
    refine .bind (yields_modifyGet (yields_node fun t => yields_pure ?_))
    exact yields_gather.mono fun n _ hn => by simpa [hn] using faulty_of_isInvalid rfl
  | cons s ss => exact yields_gather.mono fun n _ hn => by simp [hn]

/-- Where nothing is declared the tree has the shape of its statements in braces. -/
theorem yields_conclude_shape {ts : List Token} (start : Location) (top : Nat) (h : Stands p ts)
    (hss : ss ≠ []) : (conclude start top ss).Yields p fun n _ => n.shape = grouped (shapes ss) := by
  obtain ⟨s, rest, rfl⟩ := List.exists_cons_of_ne_nil hss
  refine .bind (yields_hasFailed (.bind (yields_modifyGet ?_)))
  have hstands : Stands { p with scope := p.scope.closeTo top } ts :=
    ⟨h.outlook, h.proper, h.scope.closeTo top, h.failed⟩
  refine .bind (yields_closeScope hstands fun q hq => .bind (yields_get ?_))
  exact yields_blockOf hq rfl fun n _ hn _ => hn

/-- Errors are noted while the statements are read, and a source has at least one statement. -/
theorem accepts_iff_failed : accepts source = true ↔ ∃ ss q,
    (statements (fuelFor (Cursor.ofSource source).ahead.length) none).run (facing source) =
      some (ss, q) ∧ ss ≠ [] ∧ q.failed = false := by
  obtain ⟨start, htree⟩ := treeOf_eq source
  rw [accepts, invalids_isEmpty_iff, htree, StateT.run_bind]
  cases hst : (statements (fuelFor (Cursor.ofSource source).ahead.length) none).run (facing source) with
  | none => simp [faulty_of_isInvalid (n := .invalid {} "") rfl]
  | some r =>
    obtain ⟨ss, q⟩ := r
    have htells : Tells (facing source) ss q := (candid _).statements _ _ _ _ hst
    have hfailed : q.failed = true ↔ ∃ s ∈ ss, s.Faulty := by
      simpa [Tells, (facing_stands source).failed] using htells
    have hnil : ss = [] → q.failed = false := by
      rintro rfl
      simpa using hfailed
    obtain ⟨n, q', hn, hfaulty⟩ := yields_conclude start 1 hnil
    have hbind : (some (ss, q) >>= fun r => (conclude start 1 r.1).run r.2) = some (n, q') := hn
    simp only [hbind, Option.getD_some, hfaulty, ← hfailed, Option.some.injEq, Prod.mk.injEq]
    constructor
    · intro h
      exact ⟨ss, q, ⟨rfl, rfl⟩, fun hs => h (.inl hs), Bool.eq_false_iff.2 fun hq => h (.inr hq)⟩
    · rintro ⟨ss, q, ⟨rfl, rfl⟩, hs, hq⟩
      simp [hs, hq]

/-! ## Statements derived -/

/-- The grammar derives the statements `ss` from the tokens of the source. -/
def Spells (source : String) (ss : List Node) : Prop :=
  ∃ e, e.kind = .endOfInput ∧ Derives (.statements none) (tokensOf source) ss [e]

theorem Derives.rest_of_statements {ts rest : List Token} (h : Derives (.statements none) ts ss rest) :
    ∃ e us, rest = e :: us ∧ e.kind = .endOfInput := by
  generalize hg : Goal.statements none = g at h
  induction h with
  | ended he => exact ⟨_, _, rfl, he⟩
  | statements _ _ _ _ ih => exact ih hg
  | _ => cases hg

/-- A source that is one statement. -/
theorem spells_of_statement {n : Node} {e : Token} (he : e.kind = .endOfInput)
    (h : Derives .statement (tokensOf source) [n] [e]) : Spells source [n] := by
  refine ⟨e, he, ?_⟩
  obtain ⟨t, ts, hts, ht⟩ := h.statement_begins
  rw [hts] at h ⊢
  refine .statements (fun hk => ?_) h (.ended he)
  rw [hk] at ht
  cases ht

/-- A source that is one expression is one statement. -/
theorem spells_of_expression {n : Node} {e : Token} (he : e.kind = .endOfInput)
    (h : Derives (.expression 0) (tokensOf source) [n] [e]) : Spells source [n] :=
  spells_of_statement he (.unterminated h (by simp [he]))

/-- What is read from an accepted source is what its tokens spell. -/
theorem spells_of_accepts (hd : Token.undeclaring false (Token.lex source) = true)
    (h : accepts source = true) :
    ∃ ss, statementsOf source = some ss ∧ ss ≠ [] ∧ Spells source (shapes ss) := by
  obtain ⟨ss, q, hrun, hss, hq⟩ := accepts_iff_failed.1 h
  have hready : (facing source).Ready := by
    refine ⟨?_, ?_, facing_scope source⟩
    · rw [outlook_facing]
      exact Token.bareTokens_proper .none source.toList
    · rw [outlook_facing, ← map_bare_lex, undeclaring_map_bare]
      exact hd
  obtain ⟨hq', hder⟩ := (((recognises _).statements _ none rfl) ss q hrun hq).2 hready
  obtain ⟨e, us, hrest, he⟩ := hder.rest_of_statements
  have hus : us = [] := by
    have hp := hq'.proper
    rw [hrest] at hp
    exact hp.singleton (by rw [he]; rfl)
  rw [hrest, hus, outlook_facing] at hder
  exact ⟨ss, by rw [statementsOf, hrun]; rfl, hss, e, he, hder⟩

/-- The statements that the tokens of a source spell are read. -/
theorem run_of_spells (h : Spells source ss) : ∃ ns q ts,
    (statements (fuelFor (Cursor.ofSource source).ahead.length) none).run (facing source) =
      some (ns, q) ∧ shapes ns = ss ∧ Stands q ts := by
  obtain ⟨e, he, hder⟩ := h
  have hfuel : 8 * (tokensOf source).length + (Goal.statements none).base ≤
      8 * [e].length + fuelFor (Cursor.ofSource source).ahead.length := by
    rw [length_tokensOf, fuelFor, Goal.base, List.length_singleton]
    omega
  obtain ⟨ns, q, hrun, hns, hq⟩ := realises hder _ _ (facing_stands source) hfuel
  exact ⟨ns, q, _, hrun, hns, hq⟩

/-- A source whose tokens spell statements is accepted, and they are read. -/
theorem accepts_of_spells (h : Spells source ss) (hss : ss ≠ []) :
    accepts source = true ∧ ∃ ns, statementsOf source = some ns ∧ shapes ns = ss := by
  obtain ⟨ns, q, ts, hrun, hns, hq⟩ := run_of_spells h
  refine ⟨accepts_iff_failed.2 ⟨ns, q, hrun, ?_, hq.failed⟩, ns, ?_, hns⟩
  · rintro rfl
    exact hss hns.symm
  · rw [statementsOf, hrun]
    rfl

/-- The tree of a source is made of the statements that its tokens spell. -/
theorem treeOf_of_spells (h : Spells source ss) (hss : ss ≠ []) :
    (treeOf source).shape = grouped ss := by
  obtain ⟨ns, q, ts, hrun, rfl, hq⟩ := run_of_spells h
  obtain ⟨start, htree⟩ := treeOf_eq source
  have hns : ns ≠ [] := by
    rintro rfl
    exact hss rfl
  obtain ⟨n, q', hn, hshape⟩ := yields_conclude_shape start 1 hq hns
  have hbind : (some (ns, q) >>= fun r => (conclude start 1 r.1).run r.2) = some (n, q') := hn
  rw [htree, StateT.run_bind, hrun, hbind]
  exact hshape

/-- **The accepted sources are those whose tokens spell statements.** -/
theorem accepts_iff (hd : Token.undeclaring false (Token.lex source) = true) :
    accepts source = true ↔ ∃ ss, ss ≠ [] ∧ Spells source ss := by
  constructor
  · intro h
    obtain ⟨ss, -, hss, hsp⟩ := spells_of_accepts hd h
    exact ⟨shapes ss, by simpa [shapes_eq_map] using hss, hsp⟩
  · rintro ⟨ss, hss, hsp⟩
    exact (accepts_of_spells hsp hss).1

end Parser

end Steppable
