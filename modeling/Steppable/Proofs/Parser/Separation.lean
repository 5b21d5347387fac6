import Steppable.Proofs.Parser.Acceptance
import Steppable.Proofs.Parser.Lookahead

/-!
# Statements side by side

Two sources with a semicolon on a line between them are meant to give the statements of the first and
then those of the second: `Separated`. So it is, unless the first source may end in the body of an
`if` or a `while` and the second begins with a token that can continue an expression
(`semicolon_separates`). There the body takes the semicolon, and the expression around it takes the
second source for its continuation.
-/

namespace Steppable.Parser

open Node

variable {first second : String}

/-- The shapes of the statements that are not empty. -/
def gist (ss : List Node) : List Node :=
  (solid ss).map Node.shape

/-- The second source after the first, on lines of their own with a semicolon between them. -/
def joined (first second : String) : String :=
  first ++ "\n;\n" ++ second

/-- The statements of the two sources together are those of the first and then those of the second,
empty ones aside. -/
def Separated (first second : String) : Prop :=
  accepts (joined first second) = true ∧
    ∃ ss ts us, statementsOf first = some ss ∧ statementsOf second = some ts ∧
      statementsOf (joined first second) = some us ∧ gist us = gist ss ++ gist ts

/-- Whether the last statement of the source may end in the body of an `if` or a `while`. -/
def endsOpen (source : String) : Bool :=
  ((statementsOf source).bind List.getLast?).any endsInBody

/-- Whether the first token of the source that is no semicolon can continue an expression. -/
def beginsLikeOperator (source : String) : Bool :=
  ((Token.lex source).find? (·.kind != .semicolon)).any (continues ·.kind)

theorem isNop_shape (n : Node) : isNop n.shape = isNop n := by
  cases n <;> rfl

theorem gist_eq (ss : List Node) : gist ss = solid (shapes ss) := by
  simp [gist, solid, shapes_eq_map, List.filter_map, Function.comp_def, isNop_shape]

theorem endsInBody_shape : (n : Node) → endsInBody n.shape = endsInBody n
  | .choice _ _ _ _ b => by simp [shape, endsInBody, endsInBody_shape b]
  | .binary _ _ _ n | .unary _ _ n | .assign _ _ n | .giveBack _ n => by
    simp [shape, endsInBody, endsInBody_shape n]
  | .guarded .. | .loop .. | .constant .. | .name .. | .member .. | .index .. | .call .. | .adjust ..
  | .block .. | .declare .. | .var .. | .function .. | .jump .. | .nop .. | .invalid .. => by
    simp [shape, endsInBody]

theorem tokensOf_joined (hc : ∀ t ∈ Token.lex first true, t.isClosed = true)
    (he : ∀ t ∈ tokensOf first, t.kind.isError = false) :
    tokensOf (joined first second) =
      regrow 1 (Token.separator :: tokensOf second) (tokensOf first) := by
  have hchars : (joined first second).toList =
      first.toList ++ '\n' :: ';' :: '\n' :: second.toList := by
    simp [joined]
  obtain ⟨k, hk⟩ := Token.bareTokens_append (Nat.lt_succ_self _) hc he (';' :: '\n' :: second.toList)
  rw [tokensOf, hchars, hk, Token.bareTokens_separator, regrow, List.dropLast_eq_take]
  rfl

/-- Behind its semicolons a source that does not begin like an operator is loose. -/
theorem loose_of_spells {ss : List Node} (h : Spells second ss)
    (hb : beginsLikeOperator second = false) : Loose (Token.separator :: tokensOf second) := by
  intro t ts htr
  obtain ⟨e, he, hder⟩ := h
  have hder' : Derives (.statements none) (Token.separator :: tokensOf second) (.nop {} :: ss) [e] :=
    .statements (by simp [Token.separator]) (.nop_statement rfl) hder
  obtain ⟨_, hrest, -⟩ := hder'.trails htr
  refine ⟨?_, hrest.head_ne_else⟩
  by_cases ht : t.kind = .semicolon
  · rw [ht]
    rfl
  · obtain ⟨semis, hsemis, heq⟩ := htr
    have hfind : (tokensOf second).find? (·.kind != .semicolon) = some t := by
      have hskip : (Token.separator :: tokensOf second).find? (·.kind != .semicolon) = some t := by
        rw [heq, List.find?_append, List.find?_eq_none.2 (by simpa using hsemis)]
        simp [ht]
      exact hskip
    rw [← map_bare_lex, List.find?_map, Option.map_eq_some_iff] at hfind
    obtain ⟨u, hu, rfl⟩ := hfind
    have hu' : (Token.lex second).find? (·.kind != .semicolon) = some u := hu
    rw [beginsLikeOperator, hu'] at hb
    exact hb

theorem getLast_of_endsOpen {ss : List Node} (hss : statementsOf first = some ss)
    (h : endsOpen first = false) : ∀ n ∈ (shapes ss).getLast?, endsInBody n = false := by
  intro n hn
  rw [shapes_eq_map, List.getLast?_map, Option.mem_def, Option.map_eq_some_iff] at hn
  obtain ⟨m, hm, rfl⟩ := hn
  rw [endsOpen, hss, Option.bind_some, hm] at h
  rw [endsInBody_shape]
  exact h

/-- **A semicolon separates statements.** -/
theorem semicolon_separates (h₁ : accepts first = true) (h₂ : accepts second = true)
    (d₁ : Token.undeclaring false (Token.lex first) = true)
    (d₂ : Token.undeclaring false (Token.lex second) = true)
    (hc : ∀ t ∈ Token.lex first true, t.isClosed = true)
    (hb : endsOpen first = false ∨ beginsLikeOperator second = false) : Separated first second := by
  obtain ⟨ss, hss, -, e, he, hder⟩ := spells_of_accepts d₁ h₁
  obtain ⟨ts, hts, -, hsp⟩ := spells_of_accepts d₂ h₂
  have hloose : Loose (Token.separator :: tokensOf second) ∨
      ∀ n ∈ (shapes ss).getLast?, endsInBody n = false :=
    hb.symm.imp (loose_of_spells hsp) (getLast_of_endsOpen hss)
  obtain ⟨f, hf, hder'⟩ := hsp
  have hproper : Token.Proper (Token.separator :: tokensOf second) :=
    (Token.bareTokens_proper .none second.toList).cons rfl
  obtain ⟨vs, hvs, hne, hsolid⟩ := hder.juxtaposed he rfl hproper hder' hloose
  have herr := (Token.bareTokens_proper .none first.toList).isError hder.suffix he
  rw [← tokensOf_joined hc herr] at hvs
  obtain ⟨hacc, us, hus, hshapes⟩ := accepts_of_spells ⟨f, hf, hvs⟩ hne
  refine ⟨hacc, ss, ts, us, hss, hts, hus, ?_⟩
  rw [gist_eq, gist_eq, gist_eq, hshapes, hsolid]

/-- The body of the `if` takes the semicolon between the two sources, and that of the `while` there is
a statement of its own. -/
theorem semicolon_separates_bodies :
    endsOpen "if (true) null /* ; */" = true ∧
      Separated "if (true) null /* ; */" "; while (false) -true" :=
  ⟨by decide +kernel, semicolon_separates (by decide +kernel) (by decide +kernel) (by decide +kernel)
    (by decide +kernel) (by decide +kernel) (.inr (by decide +kernel))⟩

/-- The body of an `if` takes the semicolon after it, and the sign of the next statement is then read
as an operator. -/
theorem sign_after_body_not_separated :
    accepts "if (true) true" = true ∧ accepts "-true" = true ∧
      ¬ Separated "if (true) true" "-true" := by
  refine ⟨by decide +kernel, by decide +kernel, ?_⟩
  rintro ⟨-, ss, ts, us, hs, ht, hu, h⟩
  have hs' : (statementsOf "if (true) true").map (gist · |>.length) = some 1 := by decide +kernel
  have ht' : (statementsOf "-true").map (gist · |>.length) = some 1 := by decide +kernel
  have hu' : (statementsOf (joined "if (true) true" "-true")).map (gist · |>.length) = some 1 := by
    decide +kernel
  rw [hs, Option.map_some, Option.some.injEq] at hs'
  rw [ht, Option.map_some, Option.some.injEq] at ht'
  rw [hu, Option.map_some, Option.some.injEq, h, List.length_append, hs', ht'] at hu'
  cases hu'

end Steppable.Parser
