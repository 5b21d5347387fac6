import Steppable.Proofs.Parser.Rereading
import Steppable.Proofs.Tree.Within

/-!
# Where printing loses nothing

Parentheses are written around operators only, so a tree that is printed can be read again as another
one. Whether it is can be seen from each node and the nodes directly below it (`isArranged`): a
statement is no operand, a number does not stand before a dot, and behind an `if` or a `while` a block
has neither an empty statement nor one that begins with a parenthesis.

**Theorem (`survives_of_arranged`).** The tree of an accepted source without declarations is read again
as it was if all its nodes are arranged and there is a statement at all.

The words of such a tree need no condition: what is derived from the tokens of a text has names that are
scanned as names (`Derives.written`).

Sources that declare variables or functions are not covered. Their names are bound to declarations
with identities of their own, which the shape of a tree does not keep apart, and the grammar of
`Derives` has no rule for them.
-/

namespace Steppable

/-- Whether the value is that of a literal. -/
def Value.isLiteral : Value → Bool
  | undefined | null | boolean _ | number _ | string _ => true
  | _ => false

namespace Node

variable {n c : Node} {f g : Node → Bool}

/-! ## What holds of every node -/

/-- Every node of the tree satisfies `f`. -/
def All (f : Node → Bool) (n : Node) : Prop :=
  ∀ x, n.Within x → f x = true

theorem All.self (h : n.All f) : f n = true :=
  h n (.refl n)

theorem All.child (h : n.All f) (hc : c ∈ n.children) : c.All f :=
  fun x hx => h x (.step hc hx)

theorem all_iff : n.All f ↔ f n = true ∧ ∀ c ∈ n.children, c.All f := by
  constructor
  · exact fun h => ⟨h.self, fun c => h.child⟩
  · rintro ⟨hn, hc⟩ x hx
    cases hx with
    | refl => exact hn
    | step hm hx => exact hc _ hm x hx

theorem all_iff_nodes : n.All f ↔ n.nodes.all f = true := by
  simp [All, mem_nodes_iff]

theorem children_shape (n : Node) : n.shape.children = n.children.map shape := by
  cases n with
  | function _ code => cases code; rfl
  | call | block => simp [shape, children, shapes_eq_map]
  | _ => rfl

theorem Within.shape (h : n.Within c) : n.shape.Within c.shape := by
  induction h with
  | refl => exact .refl _
  | step hc _ ih => exact .step (by rw [children_shape]; exact List.mem_map_of_mem hc) ih

theorem all_of_shape (hf : ∀ x, f x.shape = f x) (h : n.shape.All f) : n.All f :=
  fun x hx => by
    rw [← hf]
    exact h _ hx.shape

/-! ## What can be written -/

/-- Whether the node can be written in a source without declarations: its words are scanned as what
they are, and one statement in braces stands for itself. -/
def isWritten : Node → Bool
  | constant _ v => v.isLiteral
  | name _ s => isPlainName s
  | member _ _ s => Token.isWordText s.toList && Token.kindOfName s.toList == .identifier
  | assign _ target _ => target.isAccessor
  | adjust _ _ n => n.isAccessor
  | block _ ss locals => ss.length != 1 && locals.isEmpty
  | declare .. | var .. | function .. | invalid .. => false
  | _ => true

theorem isWritten_shape (n : Node) : n.shape.isWritten = n.isWritten := by
  have isAccessor : ∀ m : Node, m.shape.isAccessor = m.isAccessor := fun m => by cases m <;> rfl
  cases n <;> simp [Node.shape, isWritten, isAccessor, shapes_eq_map]

theorem isAccessor_of_isWritten (h : n.isWritten = true) (hn : n.isAssignable = true) :
    n.isAccessor = true := by
  cases n <;> simp_all [isAssignable, isWritten]

/-! ## What is printed as it is read -/

/-- Whether the node is that of an expression, rather than of a statement or a declaration. -/
def isTerm : Node → Bool
  | constant .. | name .. | member .. | index .. | call .. | binary .. | unary .. | assign ..
  | adjust .. | var .. | function .. => true
  | choice _ ternary _ _ _ => ternary
  | _ => false

/-- Whether the node is printed so that its parts can be told apart: its operands are expressions, no
number stands before a dot, and no statement of a block is taken for a part of the one before it. A
number is written so that it is scanned as this number. -/
def isArranged : Node → Bool
  | constant _ (.number x) => !decide (x < 0) && Token.spellsNumber x (Numeric.text x).toList
  | member _ l _ => l.isTerm && !l.isNumber
  | index _ l i => l.isTerm && i.isTerm
  | call _ l as => l.isTerm && as.all isTerm
  | binary _ _ l r => l.isTerm && r.isTerm
  | unary _ _ n | adjust _ _ n | giveBack _ n => n.isTerm
  | assign _ target v => target.isTerm && v.isTerm
  | choice _ ternary c a b => c.isTerm && (!ternary || a.isTerm && b.isTerm)
  | guarded _ c _ | loop _ _ c _ => c.isTerm
  | block _ ss _ => decide (ss.IsChain Parted)
  | _ => true

/-- The node can be written, and it is printed so that its parts can be told apart. -/
def isSound (n : Node) : Bool :=
  n.isWritten && n.isArranged

theorem expression_of_sound {n : Node} (h : n.All isSound) (ht : n.isTerm = true) : n.Expression := by
  have part : ∀ c ∈ n.children, c.isTerm = true → c.Expression := fun c hc hct =>
    have := sizeOf_child hc
    expression_of_sound (h.child hc) hct
  have hn := h.self
  simp only [isSound, Bool.and_eq_true] at hn
  obtain ⟨hw, ha⟩ := hn
  cases n with
  | constant _ v =>
    cases v with
    | undefined => exact .undefined
    | null => exact .null
    | boolean => exact .boolean
    | string => exact .string
    | number x =>
      simp only [isArranged, Bool.and_eq_true, Bool.not_eq_true', decide_eq_false_iff_not] at ha
      exact .number ha.1 ha.2
    | _ => cases hw
  | name => exact .name hw
  | member _ l s =>
    simp only [isWritten, isArranged, Bool.and_eq_true, beq_iff_eq, Bool.not_eq_true'] at hw ha
    exact .member (part l (by simp [children]) ha.1) ha.2 hw.1 hw.2
  | index _ l i =>
    simp only [isArranged, Bool.and_eq_true] at ha
    exact .index (part l (by simp [children]) ha.1) (part i (by simp [children]) ha.2)
  | call _ l as =>
    simp only [isArranged, Bool.and_eq_true, List.all_eq_true] at ha
    exact .call (part l (by simp [children]) ha.1) fun a hm =>
      part a (by simp [children, hm]) (ha.2 a hm)
  | binary _ _ l r =>
    simp only [isArranged, Bool.and_eq_true] at ha
    exact .binary (part l (by simp [children]) ha.1) (part r (by simp [children]) ha.2)
  | unary _ _ m => exact .unary (part m (by simp [children]) ha)
  | assign _ target v =>
    simp only [isArranged, Bool.and_eq_true] at ha
    exact .assign (part target (by simp [children]) ha.1) hw (part v (by simp [children]) ha.2)
  | adjust _ _ m => exact .adjust (part m (by simp [children]) ha) hw
  | choice _ ternary c a b =>
    obtain rfl : ternary = true := ht
    simp only [isArranged, Bool.not_true, Bool.false_or, Bool.and_eq_true] at ha
    exact .ternary (part c (by simp [children]) ha.1) (part a (by simp [children]) ha.2.1)
      (part b (by simp [children]) ha.2.2)
  | var | function => cases hw
  | _ => cases ht
termination_by sizeOf n

theorem statement_of_sound {n : Node} (h : n.All isSound) : n.Statement := by
  by_cases ht : n.isTerm = true
  · exact .expression (expression_of_sound h ht)
  have body : ∀ c ∈ n.children, c.Statement := fun c hc =>
    have := sizeOf_child hc
    statement_of_sound (h.child hc)
  have operand : ∀ c ∈ n.children, c.isTerm = true → c.Expression := fun c hc =>
    expression_of_sound (h.child hc)
  have hn := h.self
  simp only [isSound, Bool.and_eq_true] at hn
  obtain ⟨hw, ha⟩ := hn
  cases n with
  | jump => exact .jump
  | nop => exact .nop
  | giveBack _ v => exact .giveBack (operand v (by simp [children]) ha)
  | guarded _ c b => exact .guarded (operand c (by simp [children]) ha) (body b (by simp [children]))
  | choice _ ternary c a b =>
    obtain rfl : ternary = false := by simpa [isTerm] using ht
    simp only [isArranged, Bool.not_false, Bool.true_or, Bool.and_true] at ha
    exact .choice (operand c (by simp [children]) ha) (body a (by simp [children]))
      (body b (by simp [children]))
  | loop _ _ c b => exact .loop (operand c (by simp [children]) ha) (body b (by simp [children]))
  | block _ ss locals =>
    simp only [isWritten, isArranged, Bool.and_eq_true, bne_iff_ne, List.isEmpty_iff,
      decide_eq_true_eq] at hw ha
    obtain ⟨hl, rfl⟩ := hw
    exact .block hl (fun s hs => body s (by simpa [children] using hs)) ha
  | declare | invalid => cases hw
  | _ => exact (ht rfl).elim
termination_by sizeOf n

end Node

namespace Parser

open Node Token

variable {g : Goal} {ts rest : List Token} {ns : List Node} {source : String}

/-- What the goal continues. -/
def Goal.left? : Goal → Option Node
  | .operations _ l | .operation l => some l
  | _ => none

/-- Every name among the tokens is a word that is scanned as a name. -/
def Worded (ts : List Token) : Prop :=
  ∀ t ∈ ts, t.kind = .identifier →
    isWordText t.text.toList = true ∧ kindOfName t.text.toList = .identifier

theorem Worded.tail {t : Token} (h : Worded (t :: ts)) : Worded ts :=
  fun u hu => h u (List.mem_cons_of_mem _ hu)

theorem Derives.worded (h : Derives g ts ns rest) (hts : Worded ts) : Worded rest :=
  fun t ht => hts t (h.suffix.subset ht)

theorem written_grouped {ss : List Node} (h : ∀ s ∈ ss, s.All isWritten) :
    (grouped ss).All isWritten := by
  match ss with
  | [s] => simpa [grouped] using h
  | [] | _ :: _ :: _ => grind [grouped, all_iff, isWritten, children]

/-- What is derived from the tokens of a text can be written. -/
theorem Derives.written (h : Derives g ts ns rest) (hts : Worded ts)
    (hl : ∀ l ∈ g.left?, l.All isWritten) : ∀ n ∈ ns, n.All isWritten := by
  induction h with
  | expression | more | someArguments | lastArgument | nextArgument | terminated | unterminated
  | condition | statements | parens => grind [Goal.left?, Derives.worded, Worded.tail]
  | stop | noArguments | closed | ended => grind [Goal.left?]
  | binary | index | call | ternary | unary | giveBack | guarded | choice | whileLoop | doLoop =>
    grind [Goal.left?, Derives.worded, Worded.tail, all_iff, isWritten, children]
  | assign _ ht | compound _ ht =>
    have htarget := isAccessor_of_isWritten (hl _ rfl).self ht
    grind [Goal.left?, Worded.tail, all_iff, isWritten, children]
  | postfixed _ ht =>
    have htarget := isAccessor_of_isWritten (hl _ rfl).self ht
    grind [Goal.left?, all_iff, isWritten, children]
  | prefixed _ _ ht ih =>
    have hn := ih hts.tail (by simp [Goal.left?]) _ (List.mem_singleton_self _)
    have htarget := isAccessor_of_isWritten hn.self ht
    grind [all_iff, isWritten, children]
  | breaking | continuing | bareReturn | nop | number | string =>
    grind [all_iff, isWritten, Value.isLiteral, children]
  | @member l t u _ ht hu =>
    have hword := hts u (by simp) hu
    grind [Goal.left?, all_iff, isWritten, children]
  | @constant _ v t _ _ hv =>
    have hwritten : (Node.constant {} v).isWritten = true := by
      unfold namedConstant? at hv
      split at hv <;> cases hv <;> rfl
    grind [all_iff, children]
  | @name _ t _ ht hv hk =>
    have hword := hts t (by simp) ht
    have hplain : isPlainName t.text = true := by simp [isPlainName, hword, hv, hk]
    grind [all_iff, isWritten, children]
  | braces _ _ ih => simpa using written_grouped (ih hts.tail (by simp [Goal.left?]))

/-- The tree of an accepted source can be written. -/
theorem written_of_accepts (hd : Token.undeclaring false (Token.lex source) = true)
    (h : accepts source = true) : (treeOf source).All isWritten := by
  obtain ⟨ss, -, hss, e, he, hder⟩ := spells_of_accepts hd h
  have hworded : Worded (tokensOf source) := fun t ht => word_of_identifier ht
  have hwritten := written_grouped (hder.written hworded (by simp [Goal.left?]))
  rw [← treeOf_of_spells ⟨e, he, hder⟩ (by simpa [shapes_eq_map] using hss)] at hwritten
  exact all_of_shape isWritten_shape hwritten

/-- **Where every node is arranged, printing loses nothing.** -/
theorem survives_of_arranged (hd : Token.undeclaring false (Token.lex source) = true)
    (ha : accepts source = true) (hn : isNop (treeOf source) = false)
    (h : (treeOf source).nodes.all isArranged = true) : Survives source := by
  have hwritten := written_of_accepts hd ha
  have harranged := all_iff_nodes.2 h
  have hsound : (treeOf source).All isSound := fun x hx => by
    rw [isSound, hwritten x hx, harranged x hx]
    rfl
  exact statements_reread (statement_of_sound hsound) hn

/-- Behind the body of the `while` the next statement begins with a word. -/
theorem survives_of_arranged_nested :
    Survives "while (true) \x7b if (null) break; 'a'.b \x7d return !true" :=
  survives_of_arranged (by decide +kernel) (by decide +kernel) (by decide +kernel)
    (by decide +kernel)

end Parser

end Steppable
