import Mathlib.Data.List.Forall2
import Steppable.Parser.Grammar
import Steppable.Proofs.Tree.Within
import Steppable.Tree.Replacement

/-!
# Replacing changes only what it must

Whether something below a node has been replaced is noted in a flag that is handed upwards, child by
child and statement by statement, together with the next unused identity. If one child were left out
nothing would be wrong with most trees: the node would keep its identity although it is to have
another child, or lose it for nothing, and its breakpoint with it.

**Theorem (`replaces_exactly`).** Let the nodes put in the place of chosen ones be new.

- *Kept.* A tree comes out with its identity exactly if no node of it is chosen, and then it comes
  out as it is.
- *Chosen.* A chosen node gives way to its replacement, whatever is below it.
- *Rebuilt.* Every other node is the same at the same place, but for a new identity and its children,
  which are the old ones after replacement in the same order.

The proof knows nothing of kinds of nodes: of whatever kind a node is, it is rebuilt from the list of
its children (`replace_of_unchosen`).
-/

namespace Steppable.Node

variable {choose : Node → Option (Nat → Node)} {make : Nat → Node} {n : Node} {ns cs : List Node}
  {next : Nat} {t : Tag}

/-! ## Other children -/

/-- The node with another tag and other children, as many as it has. Everything else is kept: its
kind, operator and names, its flags, its locals, its parameters and the variables that it captures.
-/
def withChildren (t : Tag) : Node → List Node → Node
  | .member _ _ s, [l] => .member t l s
  | .index .., [l, i] => .index t l i
  | .call .., l :: as => .call t l as
  | .binary _ op _ _, [l, r] => .binary t op l r
  | .unary _ op _, [m] => .unary t op m
  | .assign .., [a, v] => .assign t a v
  | .adjust _ c _, [m] => .adjust t c m
  | .choice _ ternary _ _ _, [c, a, b] => .choice t ternary c a b
  | .guarded .., [c, b] => .guarded t c b
  | .loop _ bodyFirst _ _, [c, b] => .loop t bodyFirst c b
  | .block _ _ locals, ss => .block t ss locals
  | .function _ ⟨d, params, _, free⟩, [body] => .function t ⟨d, params, body, free⟩
  | .giveBack .., [v] => .giveBack t v
  | n, _ => n

theorem withChildren_spec (h : cs.length = n.children.length) (hne : n.children ≠ []) :
    (n.withChildren t cs).tag = t ∧ (n.withChildren t cs).children = cs := by
  cases n with
  | function _ code =>
    cases code
    obtain ⟨body, rfl⟩ := List.length_eq_one_iff.1 h
    simp [withChildren, tag, children]
  | call =>
    obtain ⟨l, as, rfl⟩ := List.exists_cons_of_length_eq_add_one h
    simp [withChildren, tag, children]
  | block => simp [withChildren, tag, children]
  | member | unary | adjust | giveBack =>
    obtain ⟨a, rfl⟩ := List.length_eq_one_iff.1 h
    simp [withChildren, tag, children]
  | index | binary | assign | guarded | loop =>
    obtain ⟨a, b, rfl⟩ := List.length_eq_two.1 h
    simp [withChildren, tag, children]
  | choice =>
    obtain ⟨a, b, c, rfl⟩ := List.length_eq_three.1 h
    simp [withChildren, tag, children]
  | _ => exact (hne rfl).elim

/-! ## One node -/

theorem replace_of_chosen (h : choose n = some make) :
    n.replace choose next = ⟨make next, true, next + 1⟩ := by
  cases n with
  | function _ code => cases code; simp [replace, orChosen, h]
  | _ => simp [replace, orChosen, h]

/-- A node that is not chosen is rebuilt from the list of its children, whatever kind it is of. -/
theorem replace_of_unchosen (h : choose n = none) :
    n.replace choose next =
      let below := replaceAll choose next n.children
      n.rebuild below.changed below.next fun t => n.withChildren t below.result := by
  cases n with
  | function _ code =>
    cases code
    simp [replace, replaceAll, orChosen, rebuild₁, h, children, withChildren]
  | block => rw [replace, orChosen, h]; rfl
  | _ =>
    simp [replace, replaceAll, orChosen, rebuild, rebuild₁, rebuild₂, h, children, withChildren,
      Bool.or_assoc]

/-! ## What has changed -/

theorem le_nextAll (h : ∀ c ∈ ns, ∀ i, i ≤ (c.replace choose i).next) :
    next ≤ (replaceAll choose next ns).next := by
  induction ns generalizing next with
  | nil => exact Nat.le_refl next
  | cons c cs ih =>
    rw [List.forall_mem_cons] at h
    exact Nat.le_trans (h.1 next) (ih h.2)

theorem le_next (n : Node) (next : Nat) : next ≤ (n.replace choose next).next := by
  cases h : choose n with
  | some make =>
    rw [replace_of_chosen h]
    exact Nat.le_succ next
  | none =>
    have hc : next ≤ (replaceAll choose next n.children).next :=
      le_nextAll fun c hm i => by
        have := sizeOf_child hm
        exact le_next c i
    rw [replace_of_unchosen h]
    simp only [rebuild]
    split
    · exact Nat.le_succ_of_le hc
    · exact hc
termination_by sizeOf n

/-- Of a list each node is replaced on its own, from an identity that is still unused. -/
theorem replaceAll_each (choose : Node → Option (Nat → Node)) (ns : List Node) (next : Nat) :
    List.Forall₂ (fun c c' => ∃ i, next ≤ i ∧ c' = (c.replace choose i).result) ns
      (replaceAll choose next ns).result := by
  induction ns generalizing next with
  | nil => exact .nil
  | cons c cs ih =>
    refine .cons ⟨next, Nat.le_refl next, rfl⟩ ((ih _).imp ?_)
    rintro d _ ⟨i, hi, rfl⟩
    exact ⟨i, Nat.le_trans (le_next c next) hi, rfl⟩

theorem unchangedAll_iff
    (h : ∀ c ∈ ns, ∀ i, (c.replace choose i).changed = false ↔ ∀ x ∈ c.nodes, choose x = none) :
    (replaceAll choose next ns).changed = false ↔ ∀ x ∈ ns.flatMap nodes, choose x = none := by
  induction ns generalizing next with
  | nil => simp [replaceAll]
  | cons c cs ih =>
    rw [List.forall_mem_cons] at h
    rw [replaceAll, Bool.or_eq_false_iff, h.1, ih h.2, List.flatMap_cons, List.forall_mem_append]

/-- The flag is set exactly if a node of the tree is chosen. -/
theorem unchanged_iff (n : Node) (next : Nat) :
    (n.replace choose next).changed = false ↔ ∀ x ∈ n.nodes, choose x = none := by
  rw [nodes_eq, List.forall_mem_cons]
  cases h : choose n with
  | some make => simp [replace_of_chosen h]
  | none =>
    have hc : (replaceAll choose next n.children).changed = false ↔
        ∀ x ∈ n.children.flatMap nodes, choose x = none :=
      unchangedAll_iff fun c hm i => by
        have := sizeOf_child hm
        exact unchanged_iff c i
    rw [replace_of_unchosen h, ← hc]
    simp only [rebuild, true_and]
    split <;> simp_all
termination_by sizeOf n

/-- Where the flag is not set nothing has changed. -/
theorem result_of_unchanged (h : (n.replace choose next).changed = false) :
    (n.replace choose next).result = n := by
  cases hn : choose n with
  | some make => simp [replace_of_chosen hn] at h
  | none =>
    rw [replace_of_unchosen hn] at h ⊢
    simp only [rebuild] at h ⊢
    split <;> simp_all

/-- A node that has changed without being chosen is another one with other children. -/
theorem result_of_rebuilt (hn : choose n = none) (h : (n.replace choose next).changed = true) :
    ∃ i, next ≤ i ∧ (n.replace choose next).result =
      n.withChildren ⟨i, n.place⟩ (replaceAll choose next n.children).result := by
  rw [replace_of_unchosen hn] at h ⊢
  refine ⟨(replaceAll choose next n.children).next, le_nextAll fun c _ => le_next c, ?_⟩
  simp only [rebuild] at h ⊢
  split <;> simp_all

/-- What is put in the place of nothing has no children to be rebuilt from. -/
theorem children_ne_nil (hn : choose n = none) (h : (n.replace choose next).changed = true) :
    n.children ≠ [] := by
  intro he
  rw [replace_of_unchosen hn, he] at h
  simp [replaceAll, rebuild] at h

/-! ## The whole tree -/

/-- What becomes of `n` when nodes are replaced and `next` is the next unused identity. -/
structure Replaces (choose : Node → Option (Nat → Node)) (next : Nat) (n : Node) : Prop where
  /-- The node keeps its identity exactly if nothing of the tree is to be replaced. -/
  same : (n.replace choose next).result.id = n.id ↔ ∀ x ∈ n.nodes, choose x = none
  kept : (n.replace choose next).result.id = n.id → (n.replace choose next).result = n
  /-- What is noted for the node above is whether this one is another one now. -/
  flag : (n.replace choose next).changed = true ↔ (n.replace choose next).result.id ≠ n.id
  chosen : ∀ make, choose n = some make → (n.replace choose next).result = make next
  /-- A node that is not kept and was not chosen is a new one. It differs from the old one in its
  children alone, and they are what has become of the old ones. -/
  rebuilt : choose n = none → (n.replace choose next).result.id ≠ n.id →
    let new := (n.replace choose next).result
    next ≤ new.id ∧ new = n.withChildren ⟨new.id, n.place⟩ new.children ∧
      List.Forall₂ (fun c c' => ∃ i, next ≤ i ∧ c' = (c.replace choose i).result) n.children
        new.children

/-- **Replacing changes only what it must.** Let `next` and all identities after it be unused, and
let what replaces a chosen node be a new node. Then a node is kept exactly if none of its tree is
chosen, and what is not kept is either replaced or rebuilt around its children. -/
theorem replaces_exactly (hnew : ∀ x make i, choose x = some make → i ≤ (make i).id)
    (hused : ∀ x ∈ n.nodes, x.id < next) : Replaces choose next n := by
  have hroot : n.id < next := hused n (mem_nodes_iff.2 (.refl n))
  have hid : (n.replace choose next).changed = true → next ≤ (n.replace choose next).result.id := by
    intro h
    cases hn : choose n with
    | some make =>
      rw [replace_of_chosen hn]
      exact hnew n make next hn
    | none =>
      obtain ⟨i, hi, hr⟩ := result_of_rebuilt hn h
      have hlen := (replaceAll_each choose n.children next).length_eq
      rw [hr, id, (withChildren_spec hlen.symm (children_ne_nil hn h)).1]
      exact hi
  have hflag : (n.replace choose next).changed = true ↔
      (n.replace choose next).result.id ≠ n.id := by
    refine ⟨fun h => Nat.ne_of_gt (Nat.lt_of_lt_of_le hroot (hid h)), fun h => ?_⟩
    refine Bool.of_not_eq_false fun h' => h ?_
    rw [result_of_unchanged h']
  refine ⟨?_, ?_, hflag, fun make hn => by rw [replace_of_chosen hn], fun hn h => ?_⟩
  · rw [← unchanged_iff n next, ← Bool.not_eq_true, hflag, not_not]
  · intro h
    refine result_of_unchanged (Bool.eq_false_iff.2 fun h' => hflag.1 h' h)
  · have hch := hflag.2 h
    obtain ⟨i, hi, hr⟩ := result_of_rebuilt hn hch
    have heach := replaceAll_each choose n.children next
    have hspec := withChildren_spec (t := ⟨i, n.place⟩) heach.length_eq.symm
      (children_ne_nil hn hch)
    refine ⟨hid hch, ?_, ?_⟩
    · simp only [hr, id, hspec]
    · simpa only [hr, hspec] using heach

/-- Puts a constant in the place of every `null`. -/
def filled (v : Value) : Node → Option (Nat → Node)
  | .constant t .null => some fun i => .constant ⟨i, t.place⟩ v
  | _ => none

/-- The constant on the right of `||` is replaced, so the whole is another node. -/
theorem replaces_exactly_filled :
    let n := ((Parser.new {}).parse "(true && false) || null && true").1
    Replaces (filled (.boolean true)) 100 n ∧
      (n.replace (filled (.boolean true)) 100).changed = true := by
  refine ⟨replaces_exactly (fun x make i h => ?_) (by decide +kernel), by decide +kernel⟩
  unfold filled at h
  grind [id, tag]

end Steppable.Node
