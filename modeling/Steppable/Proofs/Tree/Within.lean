import Steppable.Proofs.Machine.Reaction

/-!
# The nodes of a tree

`Within n x` says that `x` is `n` or stands somewhere below it; the nodes that are listed for a tree
are these (`mem_nodes_iff`). The identities of a tree increase from the leaves to the root and no two
branches share one (`Tagged`); only an assignment that also computes, such as `x += 1`, has its
target in two places.

An evaluation recognises an operand by its identity. For that the trees of a program have to satisfy
what `Program` lists: what an accessor is applied to is never taken for an argument of it, for the
accessor itself or for the body of a function. Trees that are tagged and have no identities in common
form a program (`program_of_apart`).
-/

namespace Steppable

namespace Node

/-- `x` is the node `n` or stands below it. -/
inductive Within : Node → Node → Prop
  | refl (n : Node) : Within n n
  | step {n c x : Node} : c ∈ n.children → Within c x → Within n x

variable {n c x y l a b : Node} {ns : List Node}

theorem Within.trans (h : Within n c) (h' : Within c x) : Within n x := by
  induction h with
  | refl => exact h'
  | step hc _ ih => exact .step hc (ih h')

theorem within_of_mem (h : c ∈ n.children) : Within n c :=
  .step h (.refl c)

/-- `x` stands below `n`. -/
def Below (n x : Node) : Prop :=
  ∃ c ∈ n.children, Within c x

theorem within_iff : Within n x ↔ x = n ∨ Below n x := by
  constructor
  · intro h
    cases h with
    | refl => exact .inl rfl
    | step hc hx => exact .inr ⟨_, hc, hx⟩
  · rintro (rfl | ⟨c, hc, hx⟩)
    · exact .refl x
    · exact .step hc hx

theorem Below.within (h : Below n x) : Within n x :=
  within_iff.2 (.inr h)

theorem below_of_within (h : Within n c) (hx : Below c x) : Below n x := by
  rcases within_iff.1 h with rfl | ⟨d, hd, hc⟩
  · exact hx
  · exact ⟨d, hd, hc.trans hx.within⟩

/-! ## The list of nodes -/

theorem mem_visitsAll {d : Nat} {v : Nat × Node} :
    v ∈ visitsAll d ns ↔ ∃ c ∈ ns, v ∈ c.visits d := by
  induction ns with
  | nil => simp [visitsAll]
  | cons n ns ih => simp [visitsAll, ih]

theorem visits_eq (d : Nat) (n : Node) : n.visits d = (d, n) :: visitsAll (d + 1) n.children := by
  cases n with
  | function t code =>
    cases code
    simp [visits, visitsAll, children]
  | _ => simp [visits, visitsAll, children]

theorem sizeOf_child {c : Node} (h : c ∈ n.children) : sizeOf c < sizeOf n := by
  cases n with
  | function _ code => cases code; grind [children]
  | _ => grind [children, → List.sizeOf_lt_of_mem]

theorem sizeOf_below (h : n.Below c) : sizeOf c < sizeOf n := by
  obtain ⟨a, ha, hc⟩ := h
  have hle : sizeOf c ≤ sizeOf a := by
    clear ha
    induction hc with
    | refl => exact Nat.le_refl _
    | step hm _ ih => exact Nat.le_of_lt (Nat.lt_of_le_of_lt ih (sizeOf_child hm))
  exact Nat.lt_of_le_of_lt hle (sizeOf_child ha)

theorem within_of_mem_visits {n : Node} {d : Nat} {v : Nat × Node} (h : v ∈ n.visits d) :
    n.Within v.2 := by
  rw [visits_eq, List.mem_cons, mem_visitsAll] at h
  rcases h with rfl | ⟨c, hc, hv⟩
  · exact .refl n
  · have := sizeOf_child hc
    exact .step hc (within_of_mem_visits hv)
termination_by sizeOf n

theorem mem_visits_of_within (h : n.Within x) (d : Nat) : ∃ d', (d', x) ∈ n.visits d := by
  induction h generalizing d with
  | refl n => exact ⟨d, by simp [visits_eq]⟩
  | step hc _ ih =>
    obtain ⟨d', hx⟩ := ih (d + 1)
    refine ⟨d', ?_⟩
    rw [visits_eq]
    exact List.mem_cons_of_mem _ (mem_visitsAll.2 ⟨_, hc, hx⟩)

/-- The nodes listed are those within. -/
theorem mem_nodes_iff : x ∈ n.nodes ↔ n.Within x := by
  constructor
  · intro h
    obtain ⟨v, hv, rfl⟩ := List.mem_map.1 h
    exact within_of_mem_visits hv
  · intro h
    obtain ⟨d, hx⟩ := mem_visits_of_within h 1
    exact List.mem_map.2 ⟨(d, x), hx, rfl⟩

theorem map_visitsAll (d : Nat) (ns : List Node) :
    (visitsAll d ns).map (·.2) = ns.flatMap fun c => (c.visits d).map (·.2) := by
  induction ns with
  | nil => rfl
  | cons n ns ih => simp [visitsAll, ih]

theorem map_visits (n : Node) (d : Nat) : (n.visits d).map (·.2) = n.nodes := by
  rw [nodes, visits_eq, visits_eq, List.map_cons, List.map_cons, map_visitsAll, map_visitsAll]
  have hc : ∀ c ∈ n.children, (c.visits (d + 1)).map (·.2) = (c.visits (1 + 1)).map (·.2) := by
    intro c hc
    have := sizeOf_child hc
    rw [map_visits c (d + 1), map_visits c (1 + 1)]
  rw [List.flatMap_def, List.flatMap_def, List.map_congr_left hc]
termination_by sizeOf n

theorem nodes_eq (n : Node) : n.nodes = n :: n.children.flatMap nodes := by
  rw [nodes, visits_eq, List.map_cons, map_visitsAll]
  simp only [map_visits]

/-! ## Identities -/

/-- The two nodes share no identity. -/
def Apart (a b : Node) : Prop :=
  ∀ x y, Within a x → Within b y → x.id ≠ y.id

theorem Apart.symm (h : Apart a b) : Apart b a :=
  fun x y hx hy e => h y x hy hx e.symm

theorem apart_of_mem {ns : List Node} (h : ns.Pairwise Apart) (ha : a ∈ ns) (hb : b ∈ ns)
    (hne : a ≠ b) : Apart a b := by
  induction ns with
  | nil => cases ha
  | cons n ns ih =>
    rw [List.pairwise_cons] at h
    rcases List.mem_cons.1 ha with ha | ha <;> rcases List.mem_cons.1 hb with hb | hb
    · exact (hne (ha.trans hb.symm)).elim
    · exact ha ▸ h.1 b hb
    · exact hb ▸ (h.1 a ha).symm
    · exact ih h.2 ha hb

/-- An assignment that computes its value from its target. -/
def IsCompound (n : Node) : Prop :=
  ∃ t t' op l r, n = .assign t l (.binary t' op l r) ∧ Apart l r

/-- The identity of the node is above those below it, its branches share none, and a constant is
neither a function nor a variable. -/
structure Tagged (n : Node) : Prop where
  below : ∀ x, Below n x → x.id < n.id
  apart : n.children.Pairwise Apart ∨ IsCompound n
  literal : ∀ t v, n = .constant t v → v.isData = true

/-- Every node of the tree is tagged. -/
def WellTagged (n : Node) : Prop :=
  ∀ x, Within n x → Tagged x

theorem WellTagged.within (h : WellTagged n) (hx : Within n x) : WellTagged x :=
  fun y hy => h y (hx.trans hy)

theorem WellTagged.mem (h : WellTagged n) (hc : c ∈ n.children) : WellTagged c :=
  h.within (within_of_mem hc)

theorem left_mem_children (h : n.left? = some l) : l ∈ n.children := by
  cases n <;> simp_all [left?, children]

/-- The children of an accessor are what it is applied to and its arguments. -/
theorem children_of_left (h : n.left? = some l) : n.children = l :: n.arguments := by
  cases n <;> simp_all [left?, children, arguments]

/-- The node `x` is `n` or what the accessors from `n` inwards are applied to. -/
inductive Spine : Node → Node → Prop
  | refl (n : Node) : Spine n n
  | left {n l x : Node} : n.left? = some l → Spine l x → Spine n x

theorem Spine.within (h : Spine n x) : Within n x := by
  induction h with
  | refl => exact .refl _
  | left hl _ ih => exact .step (left_mem_children hl) ih

theorem Tagged.apart_of_left (h : Tagged n) (hl : n.left? = some l) (ha : a ∈ n.arguments) :
    Apart l a := by
  rcases h.apart with hp | ⟨t, t', op, l', r, rfl, -⟩
  · rw [children_of_left hl, List.pairwise_cons] at hp
    exact hp.1 a ha
  · simp [left?] at hl

/-- What an accessor inside `n` is applied to is not an argument of `n`. -/
theorem WellTagged.argument_ne (h : WellTagged n) (hs : Spine n x) (hl : x.left? = some l)
    (ha : a ∈ n.arguments) : a.id ≠ l.id := by
  have hl' : Within x l := within_of_mem (left_mem_children hl)
  cases hs with
  | refl => exact ((h n (.refl n)).apart_of_left hl ha l a (.refl l) (.refl a)).symm
  | left hm hs =>
    exact ((h n (.refl n)).apart_of_left hm ha l a (hs.within.trans hl') (.refl a)).symm

/-- Two children of a tagged node share an identity only where a compound assignment repeats its
target, so what has an identity in common with `x` is in the same branch as `x`. -/
theorem Tagged.same_branch {d x' y' : Node} (h : Tagged n) (hc : c ∈ n.children)
    (hd : d ∈ n.children) (hx : Within c x') (hy : Within d y) (hy' : Within y y')
    (hid : x'.id = y'.id) : Within c y ∨ ∃ t op l r, y = .binary t op l r := by
  by_cases hcd : c = d
  · exact .inl (hcd ▸ hy)
  · rcases h.apart with hp | ⟨t, t', op, l, r, rfl, hlr⟩
    · exact (apart_of_mem hp hc hd hcd x' y' hx (hy.trans hy') hid).elim
    · simp only [children, List.mem_cons, List.not_mem_nil, or_false] at hc hd
      rcases hc with rfl | rfl <;> rcases hd with rfl | rfl
      · exact (hcd rfl).elim
      · rcases within_iff.1 hy with rfl | ⟨e, he, hey⟩
        · exact .inr ⟨_, _, _, _, rfl⟩
        · simp only [children, List.mem_cons, List.not_mem_nil, or_false] at he
          rcases he with rfl | rfl
          · exact .inl hey
          · exact (hlr x' y' hx (hey.trans hy') hid).elim
      · exact .inl (.step (by simp [children]) hy)
      · exact (hcd rfl).elim

/-- What an accessor is applied to is not the body of a function. -/
theorem WellTagged.body_ne {t : Tag} {code : Lambda} (h : WellTagged n) (hx : Within n x)
    (hl : x.left? = some l) (hf : Within n (.function t code)) : code.body.id ≠ l.id := by
  intro hid
  have hxl : Below x l := ⟨l, left_mem_children hl, .refl l⟩
  have hfb : Below (.function t code) code.body := ⟨_, by simp [children], .refl _⟩
  induction hx with
  | refl n =>
    rcases within_iff.1 hf with rfl | ⟨c, hc, hf⟩
    · simp [left?] at hl
    · have hlc := (h n (.refl n)).same_branch (left_mem_children hl) hc (.refl l) hf hfb.within
        hid.symm
      rcases hlc with hlf | ⟨t', op, l', r, hy⟩
      · have := (h l (within_of_mem (left_mem_children hl))).below _ (below_of_within hlf hfb)
        omega
      · simp at hy
  | @step n c x hc hx ih =>
    rcases within_iff.1 hf with rfl | ⟨d, hd, hf⟩
    · simp only [children, List.mem_singleton] at hc
      subst hc
      have := (h code.body (within_of_mem (by simp [children]))).below _ (below_of_within hx hxl)
      omega
    · have hcd := (h n (.refl n)).same_branch hc hd (below_of_within hx hxl).within hf hfb.within
        hid.symm
      rcases hcd with hcf | ⟨t', op, l', r, hy⟩
      · exact ih (h.mem hc) hl hcf hxl
      · simp at hy

/-- A tree of leaves is tagged if its root has the greatest identity and no two leaves share one. -/
theorem wellTagged_of_leaves (hc : ∀ c ∈ n.children, c.children = [] ∧ c.id < n.id)
    (hp : n.children.Pairwise fun a b => a.id ≠ b.id)
    (hl : ∀ c ∈ n :: n.children, ∀ t v, c = .constant t v → v.isData = true) : WellTagged n := by
  have hbelow : ∀ c ∈ n.children, ∀ x, ¬ Below c x := by
    rintro c hm x ⟨d, hd, -⟩
    simp [(hc c hm).1] at hd
  have hleaf : ∀ c ∈ n.children, ∀ x, Within c x → x = c := fun c hm x hx =>
    (within_iff.1 hx).resolve_right (hbelow c hm x)
  intro x hx
  rcases within_iff.1 hx with rfl | ⟨c, hm, hx⟩
  · refine ⟨?_, .inl ?_, hl x List.mem_cons_self⟩
    · rintro y ⟨c, hm, hy⟩
      rw [hleaf c hm y hy]
      exact (hc c hm).2
    · refine hp.imp_of_mem fun ha hb hab y z hy hz => ?_
      rw [hleaf _ ha y hy, hleaf _ hb z hz]
      exact hab
  · obtain rfl := hleaf c hm x hx
    refine ⟨fun y hy => (hbelow x hm y hy).elim, .inl ?_, hl x (List.mem_cons_of_mem _ hm)⟩
    rw [(hc x hm).1]
    exact .nil

end Node

/-! ## Programs -/

/-- What the evaluator needs to know of the identities in a set of nodes. -/
structure Program (S : Node → Prop) : Prop where
  children : ∀ {n c : Node}, S n → c ∈ n.children → S c
  literal : ∀ {t : Tag} {v : Value}, S (.constant t v) → v.isData = true
  own : ∀ {n l : Node}, S n → n.left? = some l → l.id ≠ n.id
  argument : ∀ {n x l a : Node}, S n → n.Spine x → x.left? = some l → a ∈ n.arguments →
    a.id ≠ l.id
  body : ∀ {n l : Node} {t : Tag} {code : Lambda}, S n → n.left? = some l →
    S (.function t code) → code.body.id ≠ l.id

/-- The nodes of several trees. -/
def nodesOf (ts : List Node) (n : Node) : Prop :=
  ∃ t ∈ ts, t.Within n

/-- Tagged trees form a program if no two of them share an identity below their roots. -/
theorem program_of_apart {ts : List Node} (ht : ∀ t ∈ ts, t.WellTagged)
    (ha : ∀ t ∈ ts, ∀ u ∈ ts, t ≠ u → ∀ x y, t.Below x → u.Below y → x.id ≠ y.id) :
    Program (nodesOf ts) where
  children := fun ⟨t, hm, hn⟩ hc => ⟨t, hm, hn.trans (Node.within_of_mem hc)⟩
  literal := fun ⟨t, hm, hn⟩ => (ht t hm _ hn).literal _ _ rfl
  own := fun ⟨t, hm, hn⟩ hl =>
    Nat.ne_of_lt ((ht t hm _ hn).below _ ⟨_, Node.left_mem_children hl, .refl _⟩)
  argument := fun ⟨t, hm, hn⟩ hs hl ha => ((ht t hm).within hn).argument_ne hs hl ha
  body := by
    rintro n l tag code ⟨t, hm, hn⟩ hl ⟨u, hu, hf⟩
    by_cases htu : t = u
    · subst htu
      exact (ht t hm).body_ne hn hl hf
    · refine (ha t hm u hu htu l code.body ?_ ?_).symm
      · exact Node.below_of_within hn ⟨l, Node.left_mem_children hl, .refl l⟩
      · exact Node.below_of_within hf ⟨_, by simp [Node.children], .refl _⟩

end Steppable
