import Mathlib.Data.List.Basic
import Steppable.Proofs.Parser.Diagnosis
import Steppable.Proofs.Parser.Printing

/-!
# What is read behind an error

Reading is meant to end with the first error, but an error node ends it only where it is looked for:
a caller that finds an error node in place of an expression gives it back, and one that finds an
expression with an error buried in it goes on. Behind the buried error it can report a second one,
and if the token that it expects is missing, its own error takes the place of the first
(`second_error_reported`).

The parts of a node fall into three groups. Behind the *settled* ones reading goes on only if no
error has been noted: operands on the left of an operator, statements before the last one. The
*exposed* ones are only asked whether they are error nodes themselves: arguments before the last
one, the middle of a conditional expression, the condition of a statement, the body of a `do` loop.
Behind the *last* one nothing is read.

**Theorem (`errors_behind_buried`).** In every tree the settled parts show no error, and an exposed
part that shows one has it buried below its root. So there is at most one error more than there are
exposed parts with an error.

Where no exposed part has one, a source with an error has exactly one, and it is the last one that
was created: the identities given out since are those of the nodes around it (`Node.EndsAt`). It is
the first one too unless it has taken the place of another.

The invariant of the readers says this of what they return, whichever way they end (`Node.Mindful`).
That the left operand of an operator shows no error is taken from the flag of the parser, which tells
what has been shown (`Tells`).
-/

namespace Steppable

namespace Node

variable {n c l x : Node} {ns : List Node} {next : Nat}

/-! ## Parts of nodes -/

/-- The parts behind which reading goes on only if no error has been noted. -/
def settled : Node → List Node
  | member _ l _ | index _ l _ | call _ l _ | binary _ _ l _ => [l]
  | assign _ target _ => [target]
  | adjust _ change operand => if change.before then [] else [operand]
  | choice _ ternary c t _ => if ternary then [c] else [c, t]
  | block _ ss _ => ss.dropLast
  | function _ code => [code.body]
  | _ => []

/-- The parts behind which reading goes on unless they are error nodes themselves. -/
def exposed : Node → List Node
  | call _ _ as => as.dropLast
  | choice _ true _ t _ => [t]
  | guarded _ c _ | loop _ false c _ => [c]
  | loop _ true _ body => [body]
  | _ => []

/-- The part behind which nothing is read, if there is one. -/
def last? : Node → Option Node
  | index _ _ i => some i
  | call _ _ as => as.getLast?
  | binary _ _ _ r => some r
  | unary _ _ operand => some operand
  | assign _ _ v | giveBack _ v => some v
  | adjust _ change operand => if change.before then some operand else none
  | choice _ _ _ _ f => some f
  | guarded _ _ body | loop _ false _ body => some body
  | loop _ true c _ => some c
  | block _ ss _ => ss.getLast?
  | _ => none

theorem dropLast_append_getLast? (ns : List Node) : ns.dropLast ++ ns.getLast?.toList = ns := by
  cases h : ns.getLast? with
  | none => simp [List.getLast?_eq_none_iff.1 h]
  | some n => exact List.dropLast_append_getLast? n h

/-- Every part of a node is settled, exposed or the last one. -/
theorem children_perm (n : Node) :
    n.children.Perm (n.settled ++ (n.exposed ++ n.last?.toList)) := by
  cases n with
  | call _ l as => simp [children, settled, exposed, last?, dropLast_append_getLast?]
  | block _ ss _ => simp [children, settled, exposed, last?, dropLast_append_getLast?]
  | adjust _ change _ => cases h : change.before <;> simp [children, settled, exposed, last?, h]
  | choice _ ternary _ _ _ => cases ternary <;> simp [children, settled, exposed, last?]
  | loop _ bodyFirst c body =>
    cases bodyFirst with
    | false => simp [children, settled, exposed, last?]
    | true => simpa [children, settled, exposed, last?] using List.Perm.swap body c []
  | _ => simp [children, settled, exposed, last?]

/-- What has been read behind a part of the node `n` has been read in spite of a buried error only.
-/
structure Heeds (n : Node) : Prop where
  settled : ∀ c ∈ n.settled, ¬ c.Faulty
  exposed : ∀ c ∈ n.exposed, c.isInvalid = false

/-- All nodes of the tree heed the errors. -/
def Heedful (n : Node) : Prop :=
  ∀ x, n.Within x → x.Heeds

theorem heedful_iff : n.Heedful ↔ n.Heeds ∧ ∀ c ∈ n.children, c.Heedful := by
  constructor
  · exact fun h => ⟨h n (.refl n), fun c hc x hx => h x (.step hc hx)⟩
  · rintro ⟨hn, hcs⟩ x hx
    rcases within_iff.1 hx with rfl | ⟨c, hc, hx⟩
    · exact hn
    · exact hcs c hc x hx

theorem heedful_leaf (hs : n.settled = []) (hc : n.children = []) : n.Heedful := by
  have hp := (children_perm n).symm
  rw [hc] at hp
  have he : n.exposed = [] := by
    have := hp.eq_nil
    simp_all
  exact heedful_iff.2 ⟨⟨by simp [hs], by simp [he]⟩, by simp [hc]⟩

/-! ## Counting errors -/

/-- The parts in the tree behind which reading has gone on although they show an error. -/
def passed (n : Node) : List Node :=
  n.nodes.flatMap fun x => x.exposed.filter fun c => !c.invalids.isEmpty

theorem invalids_eq (h : n.isInvalid = false) : n.invalids = n.children.flatMap invalids := by
  rw [invalids, nodes_eq, List.filter_cons_of_neg (by simp [h]), List.filter_flatMap]
  rfl

theorem passed_eq (n : Node) :
    n.passed = (n.exposed.filter fun c => !c.invalids.isEmpty) ++ n.children.flatMap passed := by
  rw [passed, nodes_eq, List.flatMap_cons, List.flatMap_assoc]
  rfl

theorem invalids_of_clean (h : ¬ n.Faulty) : n.invalids = [] :=
  List.isEmpty_iff.1 (invalids_isEmpty_iff.2 h)

theorem length_flatMap_invalids_le (ns : List Node)
    (h : ∀ c ∈ ns, c.invalids.length ≤ c.passed.length + 1) :
    (ns.flatMap invalids).length ≤
      (ns.filter fun c => !c.invalids.isEmpty).length + (ns.flatMap passed).length := by
  induction ns with
  | nil => simp
  | cons n ns ih =>
    have hn := h n (by simp)
    have ih := ih fun c hc => h c (by simp [hc])
    rw [List.flatMap_cons, List.flatMap_cons, List.length_append, List.length_append,
      List.filter_cons]
    cases he : n.invalids.isEmpty with
    | true =>
      have h0 : n.invalids.length = 0 := by simp [List.isEmpty_iff.1 he]
      simp only [Bool.not_true, Bool.false_eq_true, if_false]
      omega
    | false =>
      simp only [Bool.not_false, if_true, List.length_cons]
      omega

/-- Every error but one stands in a part behind which reading has gone on. -/
theorem Heedful.length_invalids_le {n : Node} (h : n.Heedful) :
    n.invalids.length ≤ n.passed.length + 1 := by
  obtain ⟨hn, hcs⟩ := heedful_iff.1 h
  cases hi : n.isInvalid with
  | true =>
    have hc : n.children = [] := by cases n <;> simp_all [isInvalid, children]
    have hle : n.invalids.length ≤ n.nodes.length := List.length_filter_le _ _
    rw [nodes_eq, hc] at hle
    exact Nat.le_trans hle (Nat.le_add_left 1 _)
  | false =>
    have ih : ∀ c ∈ n.children, c.invalids.length ≤ c.passed.length + 1 := fun c hc =>
      have := sizeOf_child hc
      (hcs c hc).length_invalids_le
    have hp := children_perm n
    have hs : n.settled.flatMap invalids = [] :=
      List.flatMap_eq_nil_iff.2 fun c hc => invalids_of_clean (hn.settled c hc)
    have he := length_flatMap_invalids_le n.exposed fun c hc =>
      ih c (hp.mem_iff.2 (by simp [hc]))
    have hl : (n.last?.toList.flatMap invalids).length ≤
        (n.last?.toList.flatMap passed).length + 1 := by
      cases hl : n.last? with
      | none => simp
      | some c => simpa using ih c (hp.mem_iff.2 (by simp [hl]))
    have hinv := (hp.flatMap_right invalids).length_eq
    have hpas := (hp.flatMap_right passed).length_eq
    rw [invalids_eq hi, passed_eq]
    simp only [List.flatMap_append, List.length_append, hs, List.length_nil] at hinv hpas ⊢
    omega
termination_by sizeOf n

/-! ## The last error -/

/-- Behind the error `e` of the tree nothing has been read: the identities between its own and
`next` are those of nodes around it. -/
def EndsAt (n e : Node) (next : Nat) : Prop :=
  ∀ k, e.id < k → k < next → ∃ x, n.Within x ∧ x.Within e ∧ x.id = k

/-- If reading has not gone on behind an exposed part, nothing has been read behind an error that the
tree shows. -/
def BreaksOff (n : Node) (next : Nat) : Prop :=
  n.Faulty → n.passed = [] → ∃ e ∈ n.invalids, n.EndsAt e next

theorem breaksOff_of_clean (h : ¬ n.Faulty) : n.BreaksOff next :=
  fun hf => (h hf).elim

/-- An error is followed by nothing when it is created. -/
theorem breaksOff_invalid (t : Tag) (message : String) :
    (invalid t message).BreaksOff (t.id + 1) := by
  intro _ _
  refine ⟨invalid t message, List.mem_filter.2 ⟨mem_nodes_iff.2 (.refl _), rfl⟩,
    fun k hk hnext => ?_⟩
  have hk : t.id < k := hk
  omega

theorem clean_of_passed (h : n.passed = []) (hc : c ∈ n.exposed) : ¬ c.Faulty := by
  rw [passed_eq, List.append_eq_nil_iff, List.filter_eq_nil_iff] at h
  have := h.1 c hc
  rwa [Bool.not_eq_true, Bool.not_eq_false', invalids_isEmpty_iff] at this

/-- A node is created right behind its last part, so it is around the error of that part. -/
theorem Heeds.breaksOff (h : n.Heeds) (hi : n.isInvalid = false)
    (hlast : ∀ c ∈ n.last?, c.BreaksOff n.id) : n.BreaksOff (n.id + 1) := by
  intro hf hp
  obtain ⟨c, hc, hcf⟩ := (faulty_iff.1 hf).resolve_left (by simp [hi])
  have hpassed : c.passed = [] := by
    rw [passed_eq, List.append_eq_nil_iff, List.flatMap_eq_nil_iff] at hp
    exact hp.2 c hc
  have hcl : c ∈ n.last? := by
    have hm := (children_perm n).mem_iff.1 hc
    rw [List.mem_append, List.mem_append] at hm
    rcases hm with hm | hm | hm
    · exact (h.settled c hm hcf).elim
    · exact (clean_of_passed hp hm hcf).elim
    · exact Option.mem_toList.1 hm
  obtain ⟨e, he, hends⟩ := hlast c hcl hcf hpassed
  have hce : c.Within e := mem_nodes_iff.1 (List.mem_filter.1 he).1
  refine ⟨e, ?_, fun k hk hnext => ?_⟩
  · rw [invalids_eq hi]
    exact List.mem_flatMap.2 ⟨c, hc, he⟩
  · rcases Nat.lt_succ_iff_lt_or_eq.1 hnext with hlt | rfl
    · obtain ⟨x, hcx, hxe, hx⟩ := hends k hk hlt
      exact ⟨x, .step hc hcx, hxe, hx⟩
    · exact ⟨n, .refl n, .step hc hce, rfl⟩

theorem BreaksOff.last (h : c.BreaksOff next) : ∀ d ∈ some c, d.BreaksOff next :=
  fun _ hd => Option.mem_some_iff.1 hd ▸ h

/-! ## What readers give back -/

/-- The tree has been read when `next` is the next identity: it heeds its errors and breaks off at
one. -/
structure Mindful (n : Node) (next : Nat) : Prop where
  heedful : n.Heedful
  breaksOff : n.BreaksOff next

theorem mindful_leaf (hs : n.settled = []) (hc : n.children = []) (hi : n.isInvalid = false) :
    n.Mindful next :=
  ⟨heedful_leaf hs hc, breaksOff_of_clean (by rw [faulty_iff, hi, hc]; simp)⟩

theorem mindful_invalid (t : Tag) (message : String) : (invalid t message).Mindful (t.id + 1) :=
  ⟨heedful_leaf rfl rfl, breaksOff_invalid t message⟩

/-- A node that is created behind its last part. -/
theorem mindful_node (h : n.Heeds) (hc : ∀ c ∈ n.children, c.Heedful) (hi : n.isInvalid = false)
    (hlast : ∀ c ∈ n.last?, c.BreaksOff n.id) : n.Mindful (n.id + 1) :=
  ⟨heedful_iff.2 ⟨h, hc⟩, h.breaksOff hi hlast⟩

/-- An operation on `l` whose other parts are not settled. -/
theorem mindful_operation (hf : ¬ l.Faulty) (hl : l.Heedful) (hs : n.settled = [l])
    (he : ∀ c ∈ n.exposed, c.isInvalid = false) (hc : ∀ c ∈ n.children, c = l ∨ c.Heedful)
    (hi : n.isInvalid = false) (hlast : ∀ c ∈ n.last?, c.BreaksOff n.id) :
    n.Mindful (n.id + 1) :=
  mindful_node ⟨by simpa [hs] using hf, he⟩ (fun c h => (hc c h).elim (· ▸ hl) fun h => h) hi hlast

/-- The nodes have been read one behind the other, none behind one that shows an error, when `next`
is the next identity. -/
structure Sequence (ns : List Node) (next : Nat) : Prop where
  heedful : ∀ n ∈ ns, n.Heedful
  clean : ∀ n ∈ ns.dropLast, ¬ n.Faulty
  breaksOff : ∀ n ∈ ns.getLast?, n.BreaksOff next

theorem sequence_nil : Sequence [] next :=
  ⟨by simp, by simp, by simp⟩

theorem sequence_one (h : n.Mindful next) : Sequence [n] next :=
  ⟨by simpa using h.heedful, by simp, h.breaksOff.last⟩

/-- If `n` shows an error, nothing has been read behind it. -/
theorem Sequence.cons (hn : n.Heedful) (hf : n.Faulty → ns = [] ∧ n.BreaksOff next)
    (h : Sequence ns next) : Sequence (n :: ns) next := by
  cases ns with
  | nil => exact sequence_one ⟨hn, fun hfn => (hf hfn).2 hfn⟩
  | cons m ns =>
    refine ⟨List.forall_mem_cons.2 ⟨hn, h.heedful⟩, fun x hx => ?_, by simpa using h.breaksOff⟩
    rw [List.dropLast_cons_of_ne_nil (List.cons_ne_nil m ns)] at hx
    rcases List.mem_cons.1 hx with rfl | hx
    · exact fun hfx => List.cons_ne_nil m ns (hf hfx).1
    · exact h.clean x hx

/-- Arguments that have been read when `next` is the next identity. -/
structure Listed (as : List Node) (next : Nat) : Prop where
  valid : ∀ a ∈ as, a.Heedful ∧ a.isInvalid = false
  breaksOff : ∀ a ∈ as.getLast?, a.BreaksOff next

end Node

theorem Attempt.Ensures.and {α : Type} {p : Parser} {x : Attempt α} {E E' : Node → Parser → Prop}
    {Q Q' : α → Parser → Prop} (h : x.Ensures p E Q) (h' : x.Ensures p E' Q') :
    x.Ensures p (fun n q => E n q ∧ E' n q) fun a q => Q a q ∧ Q' a q := by
  intro o q hx
  have ho := h o q hx
  have ho' := h' o q hx
  cases o with
  | error n => exact ⟨ho, ho'⟩
  | ok a => exact ⟨ho, ho'⟩

namespace Parser

open Reading Attempt Node

variable {p q r : Parser} {n left : Node} {ns : List Node}

/-- What a reader gives back that ends with `q`. -/
def Careful (n : Node) (q : Parser) : Prop :=
  n.Mindful q.next

/-! ## Steps of readers -/

section Steps

variable {α : Type} {k : Token.Kind} {Q : α → Parser → Prop}

theorem careful_errorAt {place : Location} {message : String} :
    (errorAt place message).Ensures p Careful :=
  ensures_errorAt (mindful_invalid _ message)

theorem careful_unexpected {expected : String} : (unexpected expected).Ensures p Careful :=
  ensures_unexpected fun _ message => mindful_invalid _ message

theorem careful_expect {Q : PUnit → Parser → Prop} (hQ : ∀ c, Q ⟨⟩ { p with cursor := c }) :
    (expect k).Ensures p Careful Q :=
  ensures_expect hQ fun _ _ message => mindful_invalid _ message

theorem careful_takeNameOr {what : String} {Q : String → Parser → Prop}
    (hQ : ∀ s c, Q s { p with cursor := c }) : (takeNameOr what).Ensures p Careful Q :=
  ensures_takeNameOr hQ fun _ _ message => mindful_invalid _ message

theorem careful_spanned {start : Location} {build : Tag → Node} {E : Node → Parser → Prop}
    (h : ∀ place, (build ⟨q.next, place⟩).Mindful (q.next + 1)) :
    Attempt.Ensures (do Reading.node (← spanFrom start) build) q E Careful :=
  .bind (ensures_lift (ensures_spanFrom fun place => ensures_lift (ensures_node (h place))))

theorem careful_declare {s : String} {place : Location} :
    (Attempt.declare s place).Ensures p Careful fun _ _ => True := by
  unfold Attempt.declare
  refine .bind (ensures_lift (ensures_fresh (.bind (ensures_get ?_))))
  dsimp only
  split
  · exact ensures_fail careful_errorAt
  · exact .bind (ensures_lift (ensures_modify (Attempt.ensures_pure trivial)))

theorem careful_nameNode {s : String} {place : Location} :
    (nameNode s place).Ensures p Careful := by
  unfold nameNode
  refine .bind (ensures_get ?_)
  split
  · exact .bind (ensures_modify (ensures_node (mindful_leaf rfl rfl rfl)))
  · exact ensures_node (mindful_leaf rfl rfl rfl)

theorem careful_blockOf {place : Location} {locals : List Declaration}
    (h : Sequence ns q.next) : (blockOf place ns locals).Ensures q Careful := by
  unfold blockOf
  split
  · exact ensures_pure ⟨h.heedful _ (by simp), h.breaksOff _ (by simp)⟩
  · exact ensures_node
      (mindful_node ⟨h.clean, by simp [Node.exposed]⟩ h.heedful rfl h.breaksOff)

/-- To close a scope is to give out no identity. -/
theorem ensures_closeScope {Q : List Declaration → Parser → Prop}
    (h : ∀ ds s, Q ds { q with scope := s }) : closeScope.Ensures q Q := by
  refine ensures_modifyGet ?_
  split
  · exact h _ _
  · exact h [] q.scope

end Steps

/-! ## The grammar -/

/-- With the given fuel every reader of the grammar heeds the errors in what it returns and breaks
off at the last one, whichever way it ends. A reader that continues the node `left` needs to know
what that one has shown. -/
structure Attentive (fuel : Nat) : Prop where
  expression : ∀ p power, (expression fuel power).Ensures p Careful
  operations : ∀ {p q left}, Tells p [left] q → Careful left q → ∀ power,
    (operations fuel power left).Ensures q Careful
  operand : ∀ p power, (operand fuel power).Ensures p Careful Careful
  operation : ∀ {left}, ¬ left.Faulty → left.Heedful → ∀ p,
    (operation fuel left).Ensures p Careful Careful
  arguments : ∀ p, (arguments fuel).Ensures p Careful fun as q => Listed as q.next
  argumentList : ∀ p,
    (argumentList fuel).Ensures p Careful fun as q => as ≠ [] ∧ Listed as q.next
  named : ∀ p place s, (named fuel place s).Ensures p Careful Careful
  condition : ∀ p,
    (condition fuel).Ensures p Careful fun n q => Careful n q ∧ n.isInvalid = false
  ifStatement : ∀ p place, (ifStatement fuel place).Ensures p Careful Careful
  whileStatement : ∀ p place, (whileStatement fuel place).Ensures p Careful Careful
  doStatement : ∀ p place, (doStatement fuel place).Ensures p Careful Careful
  declarators : ∀ p, (declarators fuel).Ensures p Careful fun ns q => Sequence ns q.next
  function : ∀ p place, (function fuel place).Ensures p Careful Careful
  functionParts : ∀ p, (functionParts fuel).Ensures p Careful fun parts _ =>
    parts.2.Heedful ∧ ¬ parts.2.Faulty
  parameters : ∀ p, (parameters fuel).Ensures p Careful fun _ _ => True
  returnStatement : ∀ p place, (returnStatement fuel place).Ensures p Careful Careful
  block : ∀ p place, (block fuel place).Ensures p Careful
  statement : ∀ p, (statement fuel).Ensures p Careful
  statements : ∀ p closing,
    (statements fuel closing).Ensures p fun ns q => Sequence ns q.next

theorem attentive_zero : Attentive 0 where
  expression _ _ := ensures_outOfFuel
  operations _ _ _ := ensures_outOfFuel
  operand _ _ := ensures_lift ensures_outOfFuel
  operation _ _ _ := ensures_lift ensures_outOfFuel
  arguments _ := ensures_lift ensures_outOfFuel
  argumentList _ := ensures_lift ensures_outOfFuel
  named _ _ _ := ensures_lift ensures_outOfFuel
  condition _ := ensures_lift ensures_outOfFuel
  ifStatement _ _ := ensures_lift ensures_outOfFuel
  whileStatement _ _ := ensures_lift ensures_outOfFuel
  doStatement _ _ := ensures_lift ensures_outOfFuel
  declarators _ := ensures_lift ensures_outOfFuel
  function _ _ := ensures_lift ensures_outOfFuel
  functionParts _ := ensures_lift ensures_outOfFuel
  parameters _ := ensures_lift ensures_outOfFuel
  returnStatement _ _ := ensures_lift ensures_outOfFuel
  block _ _ := ensures_outOfFuel
  statement _ := ensures_outOfFuel
  statements _ _ := ensures_outOfFuel

/-- Where an error has been noted no statement follows. -/
theorem statements_of_failed {fuel : Nat} {closing : Option Token.Kind} (h : p.failed = true) :
    (Parser.statements fuel closing).Ensures p fun ns q => ns = [] ∧ q = p := by
  cases fuel with
  | zero => exact ensures_outOfFuel
  | succ fuel =>
    unfold Parser.statements
    refine .bind (ensures_hasFailed ?_)
    rw [if_pos h]
    exact ensures_pure ⟨rfl, rfl⟩

namespace Attentive

variable {fuel power : Nat} {place : Location} (ih : Attentive fuel)
include ih

/-! ### Expressions -/

theorem expression_succ (p : Parser) :
    (Parser.expression (fuel + 1) power).Ensures p Careful := by
  rw [Parser.expression]
  refine .bind (ensures_kind fun k => ?_)
  split
  · exact careful_unexpected
  · refine .bind (ensures_orError (((ih.operand p power).and ((candid fuel).operand p power)).mono
      (fun n q hn => ?_) fun n q hn => ?_))
    · exact ih.operations hn.2.tells hn.1 power
    · exact ih.operations hn.2 hn.1 power

theorem operations_succ (h : Tells p [left] q) (hl : Careful left q) :
    (Parser.operations (fuel + 1) power left).Ensures q Careful := by
  rw [Parser.operations]
  refine .bind (ensures_kind fun k => .bind (ensures_hasFailed ?_))
  split
  · rename_i hc
    -- An operation is only read where no error has been noted, so the operand shows none.
    have hq : q.failed = false := by simp_all
    have hpl : p.failed = false ∧ ¬ left.Faulty := by
      simpa [Tells, hq, not_or] using h
    refine .bind (ensures_orError
      (((ih.operation hpl.2 hl.heedful q).and ((candid fuel).operation hpl.2 q)).mono
        (fun n r hn => ?_) fun n r hn => ?_))
    · exact ih.operations (p := q) hn.2.ended.tells hn.1 power
    · exact ih.operations hn.2 hn.1 power
  · exact ensures_pure hl

/-- An expression that may not be an error node. -/
theorem valid_expression {α : Type} {Q : α → Parser → Prop} {f : Node → Attempt α}
    (hQ : ∀ n r, Careful n r → n.isInvalid = false → (f n).Ensures r Careful Q) :
    Attempt.Ensures (do f (← valid (← Parser.expression fuel power))) q Careful Q :=
  .bind (ensures_lift ((ih.expression q power).mono fun n r hr =>
    .bind (ensures_valid (fun hn => hQ n r hr hn) fun _ => hr)))

theorem operand_succ (p : Parser) :
    (Parser.operand (fuel + 1) power).Ensures p Careful Careful := by
  rw [Parser.operand]
  refine .bind (ensures_lift (ensures_here fun place => .bind (ensures_get ?_)))
  dsimp only
  have literal : ∀ v : Value, Attempt.Ensures (do forward; Reading.node place (.constant · v)) p
      Careful Careful := fun v =>
    .bind (ensures_lift (ensures_forward fun c => ensures_lift (ensures_node
      (mindful_leaf rfl rfl rfl))))
  have adjusted : ∀ increases, Attempt.Ensures (do
      forward
      let n ← valid (← Parser.expression fuel unaryPower)
      if n.isAssignable then Reading.node (← spanFrom place) (.adjust · ⟨increases, true⟩ n)
      else fail (errorAt n.place notAdjustable)) p Careful Careful := by
    intro increases
    refine .bind (ensures_lift (ensures_forward fun c => ?_))
    refine ih.valid_expression fun n q hn _ => ?_
    split
    · exact careful_spanned fun _ => mindful_node ⟨by simp [settled], by simp [exposed]⟩
        (by simpa [children] using hn.heedful) rfl hn.breaksOff.last
    · exact ensures_fail careful_errorAt
  split
  · exact literal _
  · exact literal _
  · exact ensures_fail careful_errorAt
  · exact adjusted _
  · exact adjusted _
  · exact ih.named p place _
  · refine .bind (ensures_lift (ensures_forward fun c => ?_))
    refine ih.valid_expression fun n q hn _ => ?_
    exact .bind (careful_expect fun c => Attempt.ensures_pure hn)
  · refine .bind (ensures_lift (ensures_forward fun c => ?_))
    exact ensures_lift (ih.block _ place)
  · split
    · refine .bind (ensures_lift (ensures_forward fun c => ?_))
      refine .bind (ensures_lift ((ih.expression _ unaryPower).mono fun n q hn => ?_))
      exact careful_spanned fun _ => mindful_node ⟨by simp [settled], by simp [exposed]⟩
        (by simpa [children] using hn.heedful) rfl hn.breaksOff.last
    · split
      · exact ensures_lift (ensures_node (mindful_leaf rfl rfl rfl))
      · exact ensures_fail careful_unexpected

theorem operation_succ (hf : ¬ left.Faulty) (hl : left.Heedful) (p : Parser) :
    (Parser.operation (fuel + 1) left).Ensures p Careful Careful := by
  rw [Parser.operation]
  refine .bind (ensures_lift (ensures_kind fun k => ?_))
  have adjusted : ∀ increases, Attempt.Ensures (do
      if left.isAssignable then
        forward
        Reading.node (← spanFrom left.place) (.adjust · ⟨increases, false⟩ left)
      else fail (errorAt left.place notAdjustable)) p Careful Careful := by
    intro increases
    split
    · refine .bind (ensures_lift (ensures_forward fun c => ?_))
      exact careful_spanned fun _ => mindful_operation hf hl rfl (by simp [exposed])
        (by simp [children]) rfl (by simp [last?])
    · exact ensures_fail careful_errorAt
  split
  case h_1 op =>
    refine .bind (ensures_lift (ensures_forward fun c => ?_))
    refine .bind (ensures_lift ((ih.expression _ _).mono fun n q hn => ?_))
    exact ensures_lift (ensures_node (mindful_operation hf hl rfl (by simp [exposed])
      (by simp [children, hn.heedful]) rfl hn.breaksOff.last))
  case h_2 =>
    refine .bind (ensures_lift (ensures_forward fun c => ?_))
    refine .bind (careful_takeNameOr fun s c => ?_)
    exact careful_spanned fun _ => mindful_operation hf hl rfl (by simp [exposed])
      (by simp [children]) rfl (by simp [last?])
  case h_3 =>
    refine .bind (ensures_lift (ensures_forward fun c => ?_))
    refine ih.valid_expression fun n q hn _ => ?_
    refine .bind (careful_expect fun c => ?_)
    exact careful_spanned fun _ => mindful_operation hf hl rfl (by simp [exposed])
      (by simp [children, hn.heedful]) rfl hn.breaksOff.last
  case h_4 =>
    refine .bind (ensures_lift (ensures_forward fun c => ?_))
    refine .bind ((ih.arguments _).mono (fun _ _ hn => hn) fun as q has => ?_)
    exact careful_spanned fun _ => mindful_operation hf hl rfl
      (fun a ha => (has.valid a (List.dropLast_subset as ha)).2)
      (fun a ha => (List.mem_cons.1 ha).imp id fun ha => (has.valid a ha).1) rfl has.breaksOff
  case h_5 =>
    refine .bind (ensures_lift (ensures_forward fun c => ?_))
    refine ih.valid_expression fun a q ha hv => ?_
    refine .bind (careful_expect fun c => ?_)
    refine .bind (ensures_lift ((ih.expression _ _).mono fun b r hb => ?_))
    exact ensures_lift (ensures_node (mindful_operation hf hl rfl (by simp [exposed, hv])
      (by simp [children, ha.heedful, hb.heedful]) rfl hb.breaksOff.last))
  case h_6 =>
    split
    · refine .bind (ensures_lift (ensures_forward fun c => ?_))
      refine .bind (ensures_lift ((ih.expression _ _).mono fun v q hv => ?_))
      exact ensures_lift (ensures_node (mindful_operation hf hl rfl (by simp [exposed])
        (by simp [children, hv.heedful]) rfl hv.breaksOff.last))
    · exact ensures_fail careful_errorAt
  case h_7 op =>
    split
    · refine .bind (ensures_lift (ensures_forward fun c => ?_))
      refine .bind (ensures_lift ((ih.expression _ _).mono fun v q hv => ?_))
      refine .bind (ensures_lift (ensures_node (ensures_lift (ensures_node ?_))))
      have hb : ∀ place, (Node.binary ⟨q.next, place⟩ (.arith op) left v).Mindful (q.next + 1) :=
        fun place => mindful_operation hf hl rfl (by simp [exposed])
          (by simp [children, hv.heedful]) rfl hv.breaksOff.last
      exact mindful_operation hf hl rfl (by simp [exposed])
        (by simp [children, (hb _).heedful]) rfl (hb _).breaksOff.last
    · exact ensures_fail careful_errorAt
  case h_8 => exact adjusted _
  case h_9 => exact adjusted _
  case h_10 => exact ensures_fail careful_unexpected

theorem arguments_succ (p : Parser) :
    (Parser.arguments (fuel + 1)).Ensures p Careful fun as q => Listed as q.next := by
  rw [Parser.arguments]
  refine .bind (ensures_lift (ensures_accept fun b c => ?_))
  split
  · exact Attempt.ensures_pure ⟨by simp, by simp⟩
  · refine .bind ((ih.argumentList _).mono (fun _ _ hn => hn) fun as q has => ?_)
    exact .bind (careful_expect fun c => Attempt.ensures_pure has.2)

theorem argumentList_succ (p : Parser) : (Parser.argumentList (fuel + 1)).Ensures p Careful
    fun as q => as ≠ [] ∧ Listed as q.next := by
  rw [Parser.argumentList]
  refine ih.valid_expression fun a q ha hv => ?_
  refine .bind (ensures_lift (ensures_accept fun b c => ?_))
  split
  · refine .bind ((ih.argumentList _).mono (fun _ _ hn => hn) fun as r has => ?_)
    obtain ⟨hne, has⟩ := has
    refine Attempt.ensures_pure ⟨List.cons_ne_nil a as,
      List.forall_mem_cons.2 ⟨⟨ha.heedful, hv⟩, has.valid⟩, ?_⟩
    obtain ⟨b, bs, rfl⟩ := List.exists_cons_of_ne_nil hne
    simpa using has.breaksOff
  · exact Attempt.ensures_pure
      ⟨List.cons_ne_nil a [], by simpa using ⟨ha.heedful, hv⟩, ha.breaksOff.last⟩

/-! ### Statements -/

theorem condition_succ (p : Parser) : (Parser.condition (fuel + 1)).Ensures p Careful
    fun n q => Careful n q ∧ n.isInvalid = false := by
  rw [Parser.condition]
  refine .bind (careful_expect fun c => ?_)
  refine ih.valid_expression fun n q hn hv => ?_
  exact .bind (careful_expect fun c => Attempt.ensures_pure ⟨hn, hv⟩)

theorem ifStatement_succ (p : Parser) :
    (Parser.ifStatement (fuel + 1) place).Ensures p Careful Careful := by
  rw [Parser.ifStatement]
  refine .bind (ensures_lift (ensures_forward fun c => ?_))
  refine .bind (((ih.condition _).and ((candid fuel).condition _)).mono (fun _ _ hn => hn.1)
    fun c q hc => ?_)
  refine .bind (ensures_lift ((ensures_and (ih.statement q) ((candid fuel).statement q)).mono
    fun a r ha => ?_))
  refine .bind (ensures_lift (Reading.Ensures.mono
    (Q := fun otherwise r' => (otherwise = true → r.failed = false) ∧ r'.next = r.next) ?_
    fun otherwise r' hr' => ?_))
  · refine .bind (ensures_hasFailed ?_)
    split
    · exact ensures_pure (by simp)
    · rename_i hr
      exact ensures_acceptName fun _ _ => ⟨fun _ => by simpa using hr, rfl⟩
  · split
    · rename_i ho
      -- The other branch is only read where neither the condition nor the first one shows an error.
      have hclean : ¬ c.Faulty ∧ ¬ a.Faulty := by
        have htold := hc.2.append ha.2
        simp_all [Tells]
      refine .bind (ensures_lift ((ih.statement r').mono fun b r'' hb => ?_))
      exact careful_spanned fun _ => mindful_node ⟨by simpa [settled] using hclean,
        by simp [exposed]⟩ (by simp [children, hc.1.1.heedful, ha.1.heedful, hb.heedful]) rfl
        hb.breaksOff.last
    · have halast : a.BreaksOff r'.next := hr'.2 ▸ ha.1.breaksOff
      exact careful_spanned fun _ => mindful_node ⟨by simp [settled],
        by simpa [exposed] using hc.1.2⟩ (by simp [children, hc.1.1.heedful, ha.1.heedful]) rfl
        halast.last

theorem whileStatement_succ (p : Parser) :
    (Parser.whileStatement (fuel + 1) place).Ensures p Careful Careful := by
  rw [Parser.whileStatement]
  refine .bind (ensures_lift (ensures_forward fun c => ?_))
  refine .bind ((ih.condition _).mono (fun _ _ hn => hn) fun c q hc => ?_)
  refine .bind (ensures_lift ((ih.statement q).mono fun b r hb => ?_))
  exact careful_spanned fun _ => mindful_node ⟨by simp [settled],
    by simpa [exposed] using hc.2⟩ (by simp [children, hc.1.heedful, hb.heedful]) rfl
    hb.breaksOff.last

theorem doStatement_succ (p : Parser) :
    (Parser.doStatement (fuel + 1) place).Ensures p Careful Careful := by
  rw [Parser.doStatement]
  refine .bind (ensures_lift (ensures_forward fun c => ?_))
  refine .bind (ensures_lift ((ih.statement _).mono fun b q hb => ?_))
  refine .bind (ensures_valid (fun hv => ?_) fun _ => hb)
  refine .bind (ensures_lift (ensures_acceptName fun found c => ?_))
  split
  · refine .bind ((ih.condition _).mono (fun _ _ hn => hn) fun c r hc => ?_)
    exact careful_spanned fun _ => mindful_node ⟨by simp [settled],
      by simpa [exposed] using hv⟩ (by simp [children, hc.1.heedful, hb.heedful]) rfl
      hc.1.breaksOff.last
  · exact ensures_fail careful_unexpected

theorem returnStatement_succ (p : Parser) :
    (Parser.returnStatement (fuel + 1) place).Ensures p Careful Careful := by
  rw [Parser.returnStatement]
  refine .bind (ensures_lift (ensures_forward fun c => ?_))
  refine .bind (ensures_lift (ensures_kind fun k => ?_))
  split
  · exact careful_spanned fun _ => mindful_leaf rfl rfl rfl
  · exact careful_spanned fun _ => mindful_leaf rfl rfl rfl
  · exact careful_spanned fun _ => mindful_leaf rfl rfl rfl
  · refine ih.valid_expression fun v q hv _ => ?_
    exact careful_spanned fun _ => mindful_node ⟨by simp [settled], by simp [exposed]⟩
      (by simpa [children] using hv.heedful) rfl hv.breaksOff.last

theorem statement_succ (p : Parser) : (Parser.statement (fuel + 1)).Ensures p Careful := by
  rw [Parser.statement]
  refine .bind ((ih.expression p 0).mono fun n q hn => ?_)
  exact .bind (ensures_accept fun _ _ => ensures_pure hn)

theorem statements_succ (p : Parser) (closing : Option Token.Kind) :
    (Parser.statements (fuel + 1) closing).Ensures p fun ns q => Sequence ns q.next := by
  unfold Parser.statements
  refine .bind (ensures_hasFailed ?_)
  split
  · exact ensures_pure sequence_nil
  · refine .bind fun closed q _ => ?_
    dsimp only
    split
    · exact ensures_pure sequence_nil
    · have hread := ensures_and (ih.statement q) ((candid fuel).statement q)
      refine .bind (hread.mono fun n r hn => ?_)
      refine .bind ((ensures_and (ih.statements r closing) fun ns r' hr hf =>
        statements_of_failed hf ns r' hr).mono fun ns r' hns => ensures_pure ?_)
      refine hns.1.cons hn.1.heedful fun hf => ?_
      obtain ⟨hnil, rfl⟩ := hns.2 (hn.2.2 (.inr ⟨n, by simp, hf⟩))
      exact ⟨hnil, hn.1.breaksOff⟩

/-! ### Declarations, functions and blocks -/

theorem declarators_succ (p : Parser) : (Parser.declarators (fuel + 1)).Ensures p Careful
    fun ns q => Sequence ns q.next := by
  rw [Parser.declarators]
  refine .bind (ensures_lift (ensures_here fun place => ?_))
  refine .bind (careful_takeNameOr fun s c => ?_)
  refine .bind (careful_declare.mono (fun _ _ hn => hn) fun d q _ => ?_)
  refine .bind (ensures_lift (ensures_node ?_))
  have ht : (Node.declare ⟨q.next, place⟩ d).Heedful := heedful_leaf rfl rfl
  have hf : ¬ (Node.declare ⟨q.next, place⟩ d).Faulty := by
    rw [faulty_iff]
    simp [isInvalid, children]
  refine .bind (ensures_lift (Reading.Ensures.mono
    (Q := fun n r => Careful n r ∧ (n.Faulty → r.failed = true)) ?_ fun n r hn => ?_))
  · refine .bind (ensures_accept fun b c => ?_)
    split
    · refine .bind ((ensures_and (ih.expression _ _) ((candid fuel).expression _ _)).mono
        fun v r hv => ensures_node ⟨?_, fun hfn => ?_⟩)
      · exact mindful_operation hf ht rfl (by simp [exposed]) (by simp [children, hv.1.heedful])
          rfl hv.1.breaksOff.last
      · refine hv.2.2 (.inr ⟨v, by simp, ?_⟩)
        simpa [faulty_iff (n := .assign ..), isInvalid, children, hf] using hfn
    · exact ensures_pure ⟨⟨ht, breaksOff_of_clean hf⟩, fun h => (hf h).elim⟩
  · refine .bind (ensures_lift (Reading.Ensures.mono
      (Q := fun more r' => (more = true → r.failed = false) ∧ r'.next = r.next) ?_
      fun more r' hr' => ?_))
    · refine .bind (ensures_hasFailed ?_)
      split
      · exact ensures_pure (by simp)
      · rename_i hr
        exact ensures_accept fun _ _ => ⟨fun _ => by simpa using hr, rfl⟩
    · split
      · rename_i hm
        refine .bind ((ih.declarators r').mono (fun _ _ hn => hn) fun ns r'' hns => ?_)
        refine Attempt.ensures_pure (hns.cons hn.1.heedful fun hfn => ?_)
        exact absurd (hn.2 hfn) (by simp [hr'.1 hm])
      · refine Attempt.ensures_pure (sequence_one ?_)
        rw [hr'.2]
        exact hn.1

theorem parameters_succ (p : Parser) :
    (Parser.parameters (fuel + 1)).Ensures p Careful fun _ _ => True := by
  rw [Parser.parameters]
  refine .bind (ensures_lift (ensures_here fun place => ?_))
  refine .bind (careful_takeNameOr fun s c => ?_)
  refine .bind (careful_declare.mono (fun _ _ hn => hn) fun d q _ => ?_)
  refine .bind (ensures_lift (ensures_accept fun b c => ?_))
  split
  · refine .bind ((ih.parameters _).mono (fun _ _ hn => hn) fun ds r _ => ?_)
    exact Attempt.ensures_pure trivial
  · exact Attempt.ensures_pure trivial

theorem block_succ (p : Parser) : (Parser.block (fuel + 1) place).Ensures p Careful := by
  rw [Parser.block]
  refine .bind (ensures_modify ?_)
  refine .bind ((ih.statements _ _).mono fun ss q hss => ?_)
  refine .bind (ensures_closeScope fun _ _ => ?_)
  exact .bind (ensures_spanFrom fun _ => careful_blockOf hss)

theorem functionParts_succ (p : Parser) : (Parser.functionParts (fuel + 1)).Ensures p Careful
    fun parts _ => parts.2.Heedful ∧ ¬ parts.2.Faulty := by
  rw [Parser.functionParts]
  refine .bind (careful_expect fun c => ?_)
  refine .bind (Attempt.Ensures.mono (E := Careful) (Q := fun _ _ => True) ?_
    (fun _ _ hn => hn) fun params q _ => ?_)
  · refine .bind (ensures_lift (ensures_accept fun b c => ?_))
    split
    · exact Attempt.ensures_pure trivial
    · refine .bind ((ih.parameters _).mono (fun _ _ hn => hn) fun ps q _ => ?_)
      exact .bind (careful_expect fun c => Attempt.ensures_pure trivial)
  · refine .bind (ensures_lift (ensures_here fun place => ?_))
    refine .bind (careful_expect fun c => ?_)
    refine .bind (ensures_lift ((ensures_and (ih.block _ place) ((candid fuel).block _ place)).mono
      fun body r hb => ?_))
    refine .bind (ensures_lift (ensures_hasFailed ?_))
    split
    · exact ensures_throw hb.1
    · rename_i hr
      exact Attempt.ensures_pure
        ⟨hb.1.heedful, fun hf => hr (hb.2.2 (.inr ⟨body, by simp, hf⟩))⟩

theorem function_succ (p : Parser) :
    (Parser.function (fuel + 1) place).Ensures p Careful Careful := by
  rw [Parser.function]
  refine .bind (ensures_lift (ensures_forward fun c => ?_))
  refine .bind (Attempt.Ensures.mono (E := Careful) (Q := fun _ _ => True) ?_
    (fun _ _ hn => hn) fun own q _ => ?_)
  · refine .bind (ensures_lift (ensures_takeName fun s c => ?_))
    cases s with
    | none => exact Attempt.ensures_pure trivial
    | some s =>
      refine .bind (ensures_get ?_)
      exact .bind (careful_declare.mono (fun _ _ hn => hn) fun d q _ =>
        Attempt.ensures_pure trivial)
  · refine .bind (ensures_lift (ensures_modify (.bind (ensures_lift (ensures_modify ?_)))))
    refine .bind (ensures_outcome
      ((ih.functionParts _).mono (fun n r hn => ?_) fun parts r hb => ?_))
    · refine .bind (ensures_lift (ensures_modifyGet (.bind (ensures_lift
        (ensures_closeScope fun _ _ => ?_)))))
      exact ensures_throw hn
    · refine .bind (ensures_lift (ensures_modifyGet (.bind (ensures_lift
        (ensures_closeScope fun _ _ => ?_)))))
      exact careful_spanned fun _ => mindful_node ⟨by simpa [settled] using hb.2,
        by simp [exposed]⟩ (by simpa [children] using hb.1) rfl (by simp [last?])

theorem named_succ (p : Parser) (s : String) :
    (Parser.named (fuel + 1) place s).Ensures p Careful Careful := by
  unfold Parser.named
  have leaf : ∀ build : Tag → Node, (∀ t next, (build t).Mindful next) →
      Attempt.Ensures (do forward; Reading.node place build) p Careful Careful := fun build hb =>
    .bind (ensures_lift (ensures_forward fun c => ensures_lift (ensures_node (hb _ _))))
  split
  · exact leaf _ fun _ _ => mindful_leaf rfl rfl rfl
  · split
    · exact ih.ifStatement p place
    · exact ih.whileStatement p place
    · exact ih.doStatement p place
    · refine .bind (ensures_lift (ensures_forward fun c => ?_))
      refine .bind ((ih.declarators _).mono (fun _ _ hn => hn) fun ds q hds => ?_)
      exact .bind (ensures_lift (ensures_spanFrom fun _ => ensures_lift (careful_blockOf hds)))
    · exact ih.function p place
    · exact leaf _ fun _ _ => mindful_leaf rfl rfl rfl
    · exact leaf _ fun _ _ => mindful_leaf rfl rfl rfl
    · exact ih.returnStatement p place
    · exact ensures_fail careful_errorAt
    · refine .bind (ensures_lift (ensures_forward fun c => ?_))
      exact ensures_lift careful_nameNode

theorem succ : Attentive (fuel + 1) where
  expression p _ := ih.expression_succ p
  operations h hl _ := ih.operations_succ h hl
  operand p _ := ih.operand_succ p
  operation hf hl p := ih.operation_succ hf hl p
  arguments p := ih.arguments_succ p
  argumentList p := ih.argumentList_succ p
  named p _ s := ih.named_succ p s
  condition p := ih.condition_succ p
  ifStatement p _ := ih.ifStatement_succ p
  whileStatement p _ := ih.whileStatement_succ p
  doStatement p _ := ih.doStatement_succ p
  declarators p := ih.declarators_succ p
  function p _ := ih.function_succ p
  functionParts p := ih.functionParts_succ p
  parameters p := ih.parameters_succ p
  returnStatement p _ := ih.returnStatement_succ p
  block p _ := ih.block_succ p
  statement p := ih.statement_succ p
  statements p closing := ih.statements_succ p closing

end Attentive

theorem attentive (fuel : Nat) : Attentive fuel := by
  induction fuel with
  | zero => exact attentive_zero
  | succ fuel ih => exact ih.succ

/-! ## Whole sources -/

/-- The statements of a source and the block of them. -/
theorem careful_gathered {start : Location} {top : Nat} (global : Bool) (h : Sequence ns q.next) :
    Reading.Ensures (do
      modify fun p => { p with scope := p.scope.closeTo top }
      let locals ← if global then pure [] else closeScope
      blockOf (start.extend (← get).cursor.previous) ns locals) q Careful := by
  refine .bind (ensures_modify ?_)
  cases global with
  | true => exact .bind (ensures_pure (.bind (ensures_get (careful_blockOf h))))
  | false => exact .bind (ensures_closeScope fun _ _ => .bind (ensures_get (careful_blockOf h)))

theorem careful_whole {fuel : Nat} {f : List Node → Reading Node}
    (hf : ∀ ss q, Sequence ss q.next → (f ss).Ensures q Careful) :
    Reading.Ensures (do
      let ss ← statements fuel none
      let failed ← hasFailed
      let ss ← if ss.isEmpty && !failed then (return [← unexpected "expression"]) else pure ss
      f ss) p Careful := by
  refine .bind (((attentive fuel).statements p none).mono fun ss q hss => ?_)
  refine .bind (ensures_hasFailed ?_)
  split
  · refine .bind (.bind (careful_unexpected.mono fun e r he => ensures_pure ?_))
    exact hf _ _ (sequence_one he)
  · exact .bind (ensures_pure (hf _ _ hss))

theorem careful_analyse (fuel : Nat) (p : Parser) : (analyse fuel).Ensures p Careful := by
  unfold analyse
  refine .bind (ensures_modify (.bind (ensures_here fun start => .bind (ensures_get ?_))))
  dsimp only
  cases p.scope.options.global with
  | true => exact .bind (ensures_get (careful_whole fun ss q hss => careful_gathered true hss))
  | false =>
    refine .bind (ensures_modify (.bind (ensures_get ?_)))
    exact careful_whole fun ss q hss => careful_gathered false hss

theorem careful_parse (p : Parser) (source : String) :
    Careful (p.parse source).1 (p.parse source).2 := by
  obtain ⟨n, q, hrun, -⟩ := covers_analyse (fuelled_source p source)
  rw [parse, hrun]
  exact careful_analyse _ _ n q hrun

end Parser

/-! ## What is reported -/

/-- **Behind an error reading goes on only if the error is buried.** In the tree of every source a
settled part shows no error, and an exposed part that shows one has it below its root. There is at
most one error more than exposed parts that show one. Where no exposed part does, a source with an
error has exactly one, and it is the last one that was created: every identity given out since is
that of a node around it. -/
theorem errors_behind_buried (p : Parser) (source : String) :
    (∀ x, (p.parse source).1.Within x →
      (∀ c ∈ x.settled, c.invalids = []) ∧ ∀ c ∈ x.exposed, c.isInvalid = false) ∧
    (p.parse source).1.invalids.length ≤ (p.parse source).1.passed.length + 1 ∧
    ((p.parse source).2.failed = true → (p.parse source).1.passed = [] →
      ∃ e, (p.parse source).1.invalids = [e] ∧
        (p.parse source).1.EndsAt e (p.parse source).2.next) := by
  have hmind := Parser.careful_parse p source
  have hle := hmind.heedful.length_invalids_le
  refine ⟨fun x hx => ?_, hle, fun hf hpassed => ?_⟩
  · have hx := hmind.heedful x hx
    exact ⟨fun c hc => Node.invalids_of_clean (hx.settled c hc), hx.exposed⟩
  · have hne := (Parser.failed_iff_invalids p source).1 hf
    obtain ⟨e, he, hends⟩ := hmind.breaksOff (Node.invalids_ne_nil_iff.1 hne) hpassed
    rw [hpassed] at hle
    have hone := Nat.le_antisymm hle (List.length_pos_of_ne_nil hne)
    obtain ⟨e', he'⟩ := List.length_eq_one_iff.1 hone
    obtain rfl := List.mem_singleton.1 (he' ▸ he)
    exact ⟨e, he', hends⟩

open Steppable.Parser in
/-- An operand is missing inside a block that is the last part of the statement, and what follows it
is not read: only the operation and the statement are created behind the error. -/
theorem errors_behind_buried_body :
    ∃ e, (treeOf "if (null) { true && ; - }").invalids = [e] ∧ e.id = 3 ∧
      (treeOf "if (null) { true && ; - }").EndsAt e 6 := by
  have hids : (treeOf "if (null) { true && ; - }").invalids.map Node.id = [3] ∧
      ((Parser.new {}).parse "if (null) { true && ; - }").2.next = 6 := by decide +kernel
  obtain ⟨e, he, hends⟩ := (errors_behind_buried (.new {}) "if (null) { true && ; - }").2.2
    (by decide +kernel) (by rw [← List.isEmpty_iff]; decide +kernel)
  rw [hids.2] at hends
  have hid := hids.1
  rw [treeOf, he] at hid
  exact ⟨e, he, List.cons.inj hid |>.1, hends⟩

open Steppable.Parser in
/-- An error can be followed by another one, and it can be replaced by one: in `if (-) -` two
operands are missing and both are reported, and in `(-` the missing operand is not reported but the
parenthesis behind it is. -/
theorem second_error_reported :
    ¬ (∀ source, (((Parser.new {}).parse source).2.failed = true →
      (treeOf source).invalids.length = 1)) ∧
    (Diagnostic.ofTree (treeOf "-")).map (·.message) =
      ["Expected expression but found end of input."] ∧
    (Diagnostic.ofTree (treeOf "(-")).map (·.message) =
      ["Expected ')' but found end of input."] := by
  refine ⟨fun h => ?_, by decide +kernel, by decide +kernel⟩
  have htwo : (treeOf "if (-) -").invalids.length = 2 := by decide +kernel
  have hone := h "if (-) -" (by decide +kernel)
  omega

end Steppable
