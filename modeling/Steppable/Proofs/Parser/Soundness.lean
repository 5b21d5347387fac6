import Steppable.Proofs.Parser.Coherence

/-!
# What the parser builds

Every node that the parser puts into a tree gets an identity above those of its parts, and parts that
are read one after the other have no identity in common; so the tree is tagged. As long as the source
has no error, every variable in it is visible where it stands; so the tree is scoped. Both are
`Built`, and one induction on the fuel shows that every reader of the grammar builds such nodes
(`sound`).
-/

namespace Steppable.Parser

open Reading Attempt Node

variable {p p' p₁ p₂ : Parser} {n a b c : Node} {lo lo' : Nat} {new : List Declaration}

/-! ## Nodes that have been read -/

/-- The identities in the node are from `lo` up to the next one of `p`, and what is declared inside
the node is declared nowhere else. -/
structure Placed (lo : Nat) (p : Parser) (n : Node) : Prop where
  ids : ∀ x, n.Within x → lo ≤ x.id ∧ x.id < p.next
  tagged : n.WellTagged
  binds : ∀ x, n.Within x → ∀ d ∈ x.binds, d.id < p.next
  opens : ∀ x, n.Within x → ∀ d ∈ x.opens, lo ≤ d.id ∧ ∀ e ∈ p.declared, e.id ≠ d.id

/-- The node has been read with identities from `lo` on by what is now `p`. -/
structure Built (lo : Nat) (p : Parser) (n : Node) : Prop extends Placed lo p n where
  marked : n.isInvalid = true → p.failed = true
  bound : p.failed = false → n.Scoped p.Visible

theorem mem_binds_of_opens {d : Declaration} (h : d ∈ n.opens) : d ∈ n.binds := by
  cases n <;> simp_all [Node.opens, Node.binds]

/-- More may have been read since, and declarations that are new have new identities. -/
theorem Placed.mono (h : Placed lo' p n) (hlo : lo ≤ lo') (hn : p.next ≤ p'.next)
    (hd : ∀ e ∈ p'.declared, e ∈ p.declared ∨ p.next ≤ e.id ∨ e.id < lo') : Placed lo p' n where
  ids x hx := ⟨Nat.le_trans hlo (h.ids x hx).1, Nat.lt_of_lt_of_le (h.ids x hx).2 hn⟩
  tagged := h.tagged
  binds x hx d hd := Nat.lt_of_lt_of_le (h.binds x hx d hd) hn
  opens x hx d hx' := by
    obtain ⟨hlo', hne⟩ := h.opens x hx d hx'
    refine ⟨Nat.le_trans hlo hlo', fun e he => ?_⟩
    have hlt := h.binds x hx d (mem_binds_of_opens hx')
    rcases hd e he with he | he | he
    · exact hne e he
    · omega
    · omega

theorem Grows.declared_or (h : Grows p new p') :
    ∀ e ∈ p'.declared, e ∈ p.declared ∨ p.next ≤ e.id ∨ e.id < lo := fun e he =>
  (h.mem_declared.1 he).imp_right fun hn => .inl (h.fresh e hn).1

theorem Built.grow (h : Built lo p n) (hc : p.Coherent) (hg : Grows p new p') : Built lo p' n where
  toPlaced := h.toPlaced.mono (Nat.le_refl _) hg.next hg.declared_or
  marked hn := hg.failed (h.marked hn)
  bound hf := by
    have hp : p.failed = false := by
      cases hpf : p.failed with
      | false => rfl
      | true => exact (by simp [hg.failed hpf] at hf)
    exact (h.bound hp).mono fun k hk => hg.visible hc hk

theorem Built.follow (h : Built lo p n) (hc : p.Coherent) (hf : Follows p p') : Built lo p' n := by
  obtain ⟨⟨new, hg⟩, -⟩ := hf
  exact h.grow hc hg

theorem Built.weaken (h : Built lo' p n) (hlo : lo ≤ lo') : Built lo p n :=
  ⟨h.toPlaced.mono hlo (Nat.le_refl _) fun _ => .inl, h.marked, h.bound⟩

/-- Nodes that are read one after the other have no identity in common. -/
theorem Placed.apart (ha : Placed lo p a) (hb : Placed lo' p' b) (h : p.next ≤ lo') :
    Apart a b := by
  intro x y hx hy hid
  have := (ha.ids x hx).2
  have := (hb.ids y hy).1
  omega

/-- A node with the next identity, whose parts have been read. -/
theorem built_node (hid : n.id = p.next) (hlo : lo ≤ p.next)
    (hc : ∀ c ∈ n.children, Placed lo p c) (ha : n.children.Pairwise Apart ∨ IsCompound n)
    (hl : ∀ t v, n = .constant t v → v.isData = true) (hb : ∀ d ∈ n.binds, d.id < p.next)
    (ho : ∀ d ∈ n.opens, lo ≤ d.id ∧ ∀ e ∈ p.declared, e.id ≠ d.id)
    (hm : n.isInvalid = true → p.failed = true) (hs : p.failed = false → n.Scoped p.Visible) :
    Built lo { p with next := p.next + 1 } n where
  ids x hx := by
    rcases within_iff.1 hx with rfl | ⟨c, hm, hcx⟩
    · rw [hid]
      exact ⟨hlo, Nat.lt_succ_self _⟩
    · have := (hc c hm).ids x hcx
      exact ⟨this.1, Nat.lt_succ_of_lt this.2⟩
  tagged x hx := by
    rcases within_iff.1 hx with rfl | ⟨c, hm, hcx⟩
    · refine ⟨fun y ⟨c, hm, hcy⟩ => ?_, ha, hl⟩
      rw [hid]
      exact ((hc c hm).ids y hcy).2
    · exact (hc c hm).tagged x hcx
  binds x hx d hd := by
    rcases within_iff.1 hx with rfl | ⟨c, hm, hcx⟩
    · exact Nat.lt_succ_of_lt (hb d hd)
    · exact Nat.lt_succ_of_lt ((hc c hm).binds x hcx d hd)
  opens x hx := by
    rcases within_iff.1 hx with rfl | ⟨c, hm, hcx⟩
    · exact ho
    · exact (hc c hm).opens x hcx
  marked := hm
  bound := hs

/-- A node that neither uses nor binds a declaration. -/
theorem built_neutral (hid : n.id = p.next) (hlo : lo ≤ p.next)
    (hc : ∀ c ∈ n.children, Built lo p c) (ha : n.children.Pairwise Apart ∨ IsCompound n)
    (hl : ∀ t v, n = .constant t v → v.isData = true) (hn : n.isNeutral = true)
    (hm : n.isInvalid = true → p.failed = true) : Built lo { p with next := p.next + 1 } n := by
  refine built_node hid hlo (fun c hm => (hc c hm).toPlaced) ha hl ?_ ?_ hm fun hf =>
    .neutral hn fun c hm => (hc c hm).bound hf
  · cases n <;> simp_all [isNeutral, Node.binds]
  · cases n <;> simp_all [isNeutral, Node.opens]

/-- A node without parts. -/
theorem built_leaf (hid : n.id = p.next) (hlo : lo ≤ p.next) (hc : n.children = [])
    (hl : ∀ t v, n = .constant t v → v.isData = true) (hn : n.isNeutral = true)
    (hm : n.isInvalid = true → p.failed = true) : Built lo { p with next := p.next + 1 } n :=
  built_neutral hid hlo (by simp [hc]) (.inl (by simp [hc])) hl hn hm

/-- A node with one part. -/
theorem built_one (hid : n.id = p.next) (hlo : lo ≤ p.next) (hc : n.children = [a])
    (hn : n.isNeutral = true) (ha : Built lo p a) : Built lo { p with next := p.next + 1 } n := by
  refine built_neutral hid hlo (by simpa [hc] using ha) (.inl (by simp [hc])) ?_ hn ?_
  · rintro t v rfl
    simp [children] at hc
  · cases n <;> simp_all [isInvalid, children]

/-- A node with two parts, in either order. -/
theorem built_two (hid : n.id = p.next) (hlo : lo ≤ p.next) (hc : n.children = [a, b])
    (hn : n.isNeutral = true) (ha : Built lo p a) (hb : Built lo p b) (hab : Apart a b) :
    Built lo { p with next := p.next + 1 } n := by
  refine built_neutral hid hlo (by simp [hc, ha, hb]) (.inl (by simp [hc, hab])) ?_ hn ?_
  · rintro t v rfl
    simp [children] at hc
  · cases n <;> simp_all [isInvalid, children]

/-! ## Readers of nodes -/

/-- From `p` on the node `n` has been read. -/
def Reads (lo : Nat) (p : Parser) (n : Node) (p' : Parser) : Prop :=
  Follows p p' ∧ Built lo p' n

/-- From `p` on the node `n` has been put in the place of an error. -/
def Fails (lo : Nat) (p : Parser) (n : Node) (p' : Parser) : Prop :=
  Reads lo p n p' ∧ p'.failed = true

/-- From `p` on the nodes have been read one after the other. -/
def ReadsAll (lo : Nat) (p : Parser) (ns : List Node) (p' : Parser) : Prop :=
  Follows p p' ∧ (∀ n ∈ ns, Built lo p' n) ∧ ns.Pairwise Apart

theorem Reads.after (hf : Follows p p₁) (hlo : lo ≤ lo') (h : Reads lo' p₁ n p') : Reads lo p n p' :=
  ⟨hf.trans h.1, h.2.weaken hlo⟩

theorem Fails.after (hf : Follows p p₁) (hlo : lo ≤ lo') (h : Fails lo' p₁ n p') : Fails lo p n p' :=
  ⟨h.1.after hf hlo, h.2⟩

theorem ReadsAll.after {ns : List Node} (hf : Follows p p₁) (hlo : lo ≤ lo')
    (h : ReadsAll lo' p₁ ns p') : ReadsAll lo p ns p' :=
  ⟨hf.trans h.1, fun n hn => (h.2.1 n hn).weaken hlo, h.2.2⟩

/-- A node that is made now. -/
theorem Follows.reads (hf : Follows p p₁) (hb : Built lo { p₁ with next := p₁.next + 1 } n) :
    Reads lo p n { p₁ with next := p₁.next + 1 } :=
  ⟨hf.trans hf.coherent.tick, hb⟩

/-- An error node that is made now. -/
theorem Follows.fails (hf : Follows p p₁) (hlo : lo ≤ p₁.next) (cursor : Cursor) (place : Location)
    (message : String) :
    Fails lo p (.invalid ⟨p₁.next, place⟩ message)
      { p₁ with cursor := cursor, failed := true, next := p₁.next + 1 } := by
  refine ⟨⟨hf.trans (hf.coherent.mark cursor), ?_⟩, rfl⟩
  exact built_leaf (p := { p₁ with cursor := cursor, failed := true }) rfl hlo rfl (by simp) rfl
    fun _ => rfl

theorem Coherent.refl (h : p.Coherent) : Follows p p :=
  h.follows (Nat.le_refl _) id rfl rfl rfl

theorem Follows.next_le_of (hf : Follows p p₁) (h : lo ≤ p.next) : lo ≤ p₁.next :=
  Nat.le_trans h hf.next_le

/-! ## Steps of readers

Each rule gives the parser after the step only up to what `Follows` says of it. -/

section Steps

variable {q : Parser} {E : Node → Parser → Prop} {α : Type}

theorem steps_forward {Q : PUnit → Parser → Prop} (h : q.Coherent)
    (hQ : ∀ q', Follows q q' → Q ⟨⟩ q') : forward.Ensures q Q :=
  ensures_forward fun c => hQ _ (h.move c)

theorem steps_accept {k : Token.Kind} {Q : Bool → Parser → Prop} (h : q.Coherent)
    (hQ : ∀ b q', Follows q q' → Q b q') : (accept k).Ensures q Q :=
  ensures_accept fun b c => hQ b _ (h.move c)

theorem steps_acceptName {s : String} {Q : Bool → Parser → Prop} (h : q.Coherent)
    (hQ : ∀ b q', Follows q q' → Q b q') : (acceptName s).Ensures q Q :=
  ensures_acceptName fun b c => hQ b _ (h.move c)

theorem steps_expect {k : Token.Kind} {Q : PUnit → Parser → Prop} (h : q.Coherent)
    (hE : ∀ n q', Fails q.next q n q' → E n q') (hQ : ∀ q', Follows q q' → Q ⟨⟩ q') :
    (expect k).Ensures q E Q :=
  ensures_expect (fun c => hQ _ (h.move c)) fun c place message =>
    hE _ _ (h.refl.fails (Nat.le_refl _) c place message)

theorem steps_takeNameOr {what : String} {Q : String → Parser → Prop} (h : q.Coherent)
    (hE : ∀ n q', Fails q.next q n q' → E n q') (hQ : ∀ s q', Follows q q' → Q s q') :
    (takeNameOr what).Ensures q E Q :=
  ensures_takeNameOr (fun s c => hQ s _ (h.move c)) fun c place message =>
    hE _ _ (h.refl.fails (Nat.le_refl _) c place message)

theorem steps_errorAt {place : Location} {message : String} (h : q.Coherent) :
    (errorAt place message).Ensures q (Fails q.next q) :=
  ensures_errorAt (h.refl.fails (Nat.le_refl _) q.cursor place message)

theorem steps_unexpected {expected : String} (h : q.Coherent) :
    (unexpected expected).Ensures q (Fails q.next q) :=
  ensures_unexpected fun place message => h.refl.fails (Nat.le_refl _) q.cursor place message

/-- A node that has been read is put into the tree, or ends the attempt. -/
theorem steps_valid {Q : Node → Parser → Prop} (hr : Reads lo p n q)
    (hE : Fails lo p n q → E n q) (hQ : Q n q) : (valid n).Ensures q E Q :=
  ensures_valid (fun _ => hQ) fun hn => hE ⟨hr, hr.2.marked hn⟩

/-- A node that ends where the last token passed ended. -/
theorem steps_spanned {start : Location} {build : Tag → Node} {Q : Node → Parser → Prop}
    (hQ : ∀ place, Q (build ⟨q.next, place⟩) { q with next := q.next + 1 }) :
    Attempt.Ensures (do node (← spanFrom start) build) q E Q :=
  .bind (ensures_lift (ensures_spanFrom fun place => ensures_lift (ensures_node (hQ place))))

/-- The block is one of its statements, or a new node. -/
theorem steps_blockOf {place : Location} {ss : List Node} {locals : List Declaration}
    {Q : Node → Parser → Prop} (hone : ∀ s, ss = [s] → locals = [] → Q s q)
    (hblock : Q (.block ⟨q.next, place⟩ ss locals) { q with next := q.next + 1 }) :
    (blockOf place ss locals).Ensures q Q := by
  unfold blockOf
  split
  · exact ensures_pure (hone _ rfl rfl)
  · exact ensures_node hblock

/-- A name that can be declared is. -/
theorem steps_declare {s : String} {place : Location} {Q : Declaration → Parser → Prop}
    (h : q.Coherent) (hE : ∀ n q', Fails q.next q n q' → E n q')
    (hQ : ∀ d q', Grows q [d] q' → q'.Coherent → q'.Visible d.id → Q d q') :
    (Attempt.declare s place).Ensures q E Q := by
  unfold Attempt.declare
  refine .bind (ensures_lift (ensures_fresh ?_))
  refine .bind (ensures_get ?_)
  dsimp only
  split
  · refine ensures_fail ((steps_errorAt h.tick.coherent).mono fun n q' hn => ?_)
    exact hE n q' (hn.after h.tick (Nat.le_succ _))
  · rename_i scope hs
    obtain ⟨hg, hc⟩ := follows_declare h (d := ⟨q.next, s, place⟩) rfl hs
    refine .bind (ensures_lift (ensures_modify ?_))
    refine Attempt.ensures_pure (hQ _ _ hg hc (.inl ⟨_, hg.mem_declared.2 (.inr (by simp)), rfl, ?_⟩))
    exact (hg.fresh _ (by simp)).2.2

theorem steps_nameNode {s : String} {place : Location} (h : q.Coherent) :
    (nameNode s place).Ensures q (Reads q.next q) := by
  unfold nameNode
  refine .bind (ensures_get ?_)
  split
  · rename_i d hd
    obtain ⟨hf, hv⟩ := follows_noteUse h (h.tidy.mem_of_find hd)
    refine .bind (ensures_modify (ensures_node (hf.reads ?_)))
    exact built_node rfl (Nat.le_refl _) (by simp [children]) (.inl (by simp [children])) (by simp)
      (by simp [Node.binds]) (by simp [Node.opens]) (by simp [isInvalid]) fun _ => .var hv
  · exact ensures_node (h.refl.reads (built_leaf rfl (Nat.le_refl _) rfl (by simp) rfl
      (by simp [isInvalid])))

end Steps

/-! ## The grammar -/

/-- What every reader of the grammar does with the given fuel. A reader that continues the node
`left` needs to know that it was read before. -/
structure Sound (fuel : Nat) : Prop where
  expression : ∀ {p}, p.Coherent → ∀ power, (expression fuel power).Ensures p (Reads p.next p)
  operations : ∀ {p lo left}, p.Coherent → lo ≤ p.next → Built lo p left → ∀ power,
    (operations fuel power left).Ensures p (Reads lo p)
  operand : ∀ {p}, p.Coherent → ∀ power,
    (operand fuel power).Ensures p (Fails p.next p) (Reads p.next p)
  operation : ∀ {p lo left}, p.Coherent → lo ≤ p.next → Built lo p left →
    (operation fuel left).Ensures p (Fails lo p) (Reads lo p)
  arguments : ∀ {p}, p.Coherent → (arguments fuel).Ensures p (Fails p.next p) (ReadsAll p.next p)
  argumentList : ∀ {p}, p.Coherent →
    (argumentList fuel).Ensures p (Fails p.next p) (ReadsAll p.next p)
  named : ∀ {p}, p.Coherent → ∀ place s,
    (named fuel place s).Ensures p (Fails p.next p) (Reads p.next p)
  condition : ∀ {p}, p.Coherent → (condition fuel).Ensures p (Fails p.next p) (Reads p.next p)
  ifStatement : ∀ {p}, p.Coherent → ∀ place,
    (ifStatement fuel place).Ensures p (Fails p.next p) (Reads p.next p)
  whileStatement : ∀ {p}, p.Coherent → ∀ place,
    (whileStatement fuel place).Ensures p (Fails p.next p) (Reads p.next p)
  doStatement : ∀ {p}, p.Coherent → ∀ place,
    (doStatement fuel place).Ensures p (Fails p.next p) (Reads p.next p)
  declarators : ∀ {p}, p.Coherent →
    (declarators fuel).Ensures p (Fails p.next p) (ReadsAll p.next p)
  function : ∀ {p}, p.Coherent → ∀ place,
    (function fuel place).Ensures p (Fails p.next p) (Reads p.next p)
  functionParts : ∀ {p}, p.Coherent →
    (functionParts fuel).Ensures p (Fails p.next p) fun parts p' =>
      Grows p parts.1 p' ∧ p'.Coherent ∧ Built p.next p' parts.2
  parameters : ∀ {p}, p.Coherent →
    (parameters fuel).Ensures p (Fails p.next p) fun params p' => Grows p params p' ∧ p'.Coherent
  returnStatement : ∀ {p}, p.Coherent → ∀ place,
    (returnStatement fuel place).Ensures p (Fails p.next p) (Reads p.next p)
  block : ∀ {p}, p.Coherent → ∀ place,
    (block fuel place).Ensures p fun n p' => Grows p [] p' ∧ p'.Coherent ∧ Built p.next p' n
  statement : ∀ {p}, p.Coherent → (statement fuel).Ensures p (Reads p.next p)
  statements : ∀ {p}, p.Coherent → ∀ closing,
    (statements fuel closing).Ensures p (ReadsAll p.next p)

theorem sound_zero : Sound 0 where
  expression _ _ := ensures_outOfFuel
  operations _ _ _ _ := ensures_outOfFuel
  operand _ _ := ensures_lift ensures_outOfFuel
  operation _ _ _ := ensures_lift ensures_outOfFuel
  arguments _ := ensures_lift ensures_outOfFuel
  argumentList _ := ensures_lift ensures_outOfFuel
  named _ _ _ := ensures_lift ensures_outOfFuel
  condition _ := ensures_lift ensures_outOfFuel
  ifStatement _ _ := ensures_lift ensures_outOfFuel
  whileStatement _ _ := ensures_lift ensures_outOfFuel
  doStatement _ _ := ensures_lift ensures_outOfFuel
  declarators _ := ensures_lift ensures_outOfFuel
  function _ _ := ensures_lift ensures_outOfFuel
  functionParts _ := ensures_lift ensures_outOfFuel
  parameters _ := ensures_lift ensures_outOfFuel
  returnStatement _ _ := ensures_lift ensures_outOfFuel
  block _ _ := ensures_outOfFuel
  statement _ := ensures_outOfFuel
  statements _ _ := ensures_outOfFuel

namespace Sound

variable {fuel power : Nat} {left : Node} {place : Location} (ih : Sound fuel)
include ih

/-! ### Expressions -/

theorem expression_succ (h : p.Coherent) :
    (Parser.expression (fuel + 1) power).Ensures p (Reads p.next p) := by
  rw [Parser.expression]
  refine .bind (ensures_kind fun k => ?_)
  split
  · exact (steps_unexpected h).mono fun _ _ hn => hn.1
  · refine .bind (ensures_orError ((ih.operand h power).mono ?_ ?_))
    · intro n q hn
      exact (ih.operations hn.1.1.coherent hn.1.1.next_le hn.1.2 power).mono fun _ _ hr =>
        hr.after hn.1.1 (Nat.le_refl _)
    · intro n q hn
      exact (ih.operations hn.1.coherent hn.1.next_le hn.2 power).mono fun _ _ hr =>
        hr.after hn.1 (Nat.le_refl _)

theorem operations_succ (h : p.Coherent) (hlo : lo ≤ p.next) (hl : Built lo p left) :
    (Parser.operations (fuel + 1) power left).Ensures p (Reads lo p) := by
  rw [Parser.operations]
  refine .bind (ensures_kind fun k => .bind (ensures_hasFailed ?_))
  split
  · refine .bind (ensures_orError ((ih.operation h hlo hl).mono ?_ ?_))
    · intro n q hn
      exact (ih.operations hn.1.1.coherent (hn.1.1.next_le_of hlo) hn.1.2 power).mono fun _ _ hr =>
        hr.after hn.1.1 (Nat.le_refl _)
    · intro n q hn
      exact (ih.operations hn.1.coherent (hn.1.next_le_of hlo) hn.2 power).mono fun _ _ hr =>
        hr.after hn.1 (Nat.le_refl _)
  · exact ensures_pure ⟨h.refl, hl⟩

/-- An expression that may not be an error node. -/
theorem valid_expression {α : Type} {q : Parser} {E : Node → Parser → Prop}
    {Q : α → Parser → Prop} {f : Node → Attempt α} (h : q.Coherent)
    (hE : ∀ n q', Fails q.next q n q' → E n q')
    (hQ : ∀ n q', Reads q.next q n q' → (f n).Ensures q' E Q) :
    Attempt.Ensures (do f (← valid (← Parser.expression fuel power))) q E Q :=
  .bind (ensures_lift ((ih.expression h power).mono fun n q' hr =>
    .bind (steps_valid hr (hE n q') (hQ n q' hr))))

omit ih in
/-- An error after some steps. -/
theorem fails_after {q : Parser} (hf : Follows p q) (hlo : lo ≤ p.next) :
    ∀ n q', Fails q.next q n q' → Fails lo p n q' :=
  fun _ _ hn => hn.after hf (hf.next_le_of hlo)

theorem operand_succ (h : p.Coherent) :
    (Parser.operand (fuel + 1) power).Ensures p (Fails p.next p) (Reads p.next p) := by
  rw [Parser.operand]
  refine .bind (ensures_lift (ensures_here fun place => ?_))
  refine .bind (ensures_get ?_)
  dsimp only
  have literal : ∀ v : Value, v.isData = true →
      Attempt.Ensures (do forward; node place (.constant · v)) p (Fails p.next p)
        (Reads p.next p) := fun v hv =>
    .bind (ensures_lift (steps_forward h fun q hf => ensures_lift (ensures_node (hf.reads
      (built_leaf rfl hf.next_le rfl (by simp [hv]) rfl (by simp [isInvalid]))))))
  have adjusted : ∀ change, Attempt.Ensures (do
      forward
      let n ← valid (← Parser.expression fuel unaryPower)
      if n.isAssignable then node (← spanFrom place) (.adjust · change n)
      else fail (errorAt n.place notAdjustable)) p (Fails p.next p) (Reads p.next p) := by
    intro change
    refine .bind (ensures_lift (steps_forward h fun q hf => ?_))
    refine ih.valid_expression hf.coherent (fails_after hf (Nat.le_refl _)) fun n q' hr => ?_
    have hr' := hr.after hf hf.next_le
    split
    · exact steps_spanned fun _ => hr'.1.reads (built_one rfl hr'.1.next_le rfl rfl hr'.2)
    · exact ensures_fail ((steps_errorAt hr.1.coherent).mono (fails_after hr'.1 (Nat.le_refl _)))
  split
  · exact literal _ rfl
  · exact literal _ rfl
  · exact ensures_fail (steps_errorAt h)
  · exact adjusted _
  · exact adjusted _
  · exact ih.named h place _
  · refine .bind (ensures_lift (steps_forward h fun q hf => ?_))
    refine ih.valid_expression hf.coherent (fails_after hf (Nat.le_refl _)) fun n q' hr => ?_
    have hr' := hr.after hf hf.next_le
    refine .bind (steps_expect hr.1.coherent (fails_after hr'.1 (Nat.le_refl _)) fun q'' hf' => ?_)
    exact Attempt.ensures_pure ⟨hr'.1.trans hf', hr'.2.follow hr.1.coherent hf'⟩
  · refine .bind (ensures_lift (steps_forward h fun q hf => ?_))
    refine ensures_lift ((ih.block hf.coherent place).mono fun n q' hn => ?_)
    exact Reads.after hf hf.next_le ⟨⟨⟨_, hn.1⟩, hn.2.1⟩, hn.2.2⟩
  · split
    · refine .bind (ensures_lift (steps_forward h fun q hf => ?_))
      refine .bind (ensures_lift ((ih.expression hf.coherent unaryPower).mono fun n q' hr => ?_))
      have hr' := hr.after hf hf.next_le
      exact steps_spanned fun _ => hr'.1.reads (built_one rfl hr'.1.next_le rfl rfl hr'.2)
    · split
      · exact ensures_lift (ensures_node (h.refl.reads
          (built_leaf rfl (Nat.le_refl _) rfl (by simp) rfl (by simp [isInvalid]))))
      · exact ensures_fail (steps_unexpected h)

theorem operation_succ (h : p.Coherent) (hlo : lo ≤ p.next) (hl : Built lo p left) :
    (Parser.operation (fuel + 1) left).Ensures p (Fails lo p) (Reads lo p) := by
  rw [Parser.operation]
  refine .bind (ensures_lift (ensures_kind fun k => ?_))
  have adjusted : ∀ change, Attempt.Ensures (do
      if left.isAssignable then
        forward
        node (← spanFrom left.place) (.adjust · change left)
      else fail (errorAt left.place notAdjustable)) p (Fails lo p) (Reads lo p) := by
    intro change
    split
    · refine .bind (ensures_lift (steps_forward h fun q hf => ?_))
      exact steps_spanned fun _ =>
        hf.reads (built_one rfl (hf.next_le_of hlo) rfl rfl (hl.follow h hf))
    · exact ensures_fail ((steps_errorAt h).mono (fails_after h.refl hlo))
  -- What is read on the right of `left` shares no identity with it.
  have right : ∀ {q q' : Parser} {n : Node}, Follows p q → Reads q.next q n q' →
      Follows p q' ∧ lo ≤ q'.next ∧ Built lo q' left ∧ Built lo q' n ∧ Apart left n := by
    intro q q' n hf hr
    have hf' := hf.trans hr.1
    exact ⟨hf', hf'.next_le_of hlo, hl.follow h hf', hr.2.weaken (hf.next_le_of hlo),
      hl.toPlaced.apart hr.2.toPlaced hf.next_le⟩
  split
  · refine .bind (ensures_lift (steps_forward h fun q hf => ?_))
    refine .bind (ensures_lift ((ih.expression hf.coherent _).mono fun n q' hr => ?_))
    obtain ⟨hf', hlo', hl', hn, ha⟩ := right hf hr
    exact ensures_lift (ensures_node (hf'.reads (built_two rfl hlo' rfl rfl hl' hn ha)))
  · refine .bind (ensures_lift (steps_forward h fun q hf => ?_))
    refine .bind (steps_takeNameOr hf.coherent (fails_after hf hlo) fun s q' hf' => ?_)
    have hf'' := hf.trans hf'
    exact steps_spanned fun _ =>
      hf''.reads (built_one rfl (hf''.next_le_of hlo) rfl rfl (hl.follow h hf''))
  · refine .bind (ensures_lift (steps_forward h fun q hf => ?_))
    refine ih.valid_expression hf.coherent (fails_after hf hlo) fun n q' hr => ?_
    have hf' := hf.trans hr.1
    refine .bind (steps_expect hr.1.coherent (fails_after hf' hlo) fun q'' hx => ?_)
    obtain ⟨hf'', hlo'', hl'', hn, ha⟩ := right hf ⟨hr.1.trans hx, hr.2.follow hr.1.coherent hx⟩
    exact steps_spanned fun _ => hf''.reads (built_two rfl hlo'' rfl rfl hl'' hn ha)
  · refine .bind (ensures_lift (steps_forward h fun q hf => ?_))
    refine .bind ((ih.arguments hf.coherent).mono (fails_after hf hlo) fun as q' hr => ?_)
    have hf' := hf.trans hr.1
    have hl' := hl.follow h hf'
    refine steps_spanned fun _ => hf'.reads (built_neutral rfl (hf'.next_le_of hlo) ?_ (.inl ?_)
      (by simp) rfl (by simp [isInvalid]))
    · intro c hc
      rcases List.mem_cons.1 hc with rfl | hc
      · exact hl'
      · exact (hr.2.1 c hc).weaken (hf.next_le_of hlo)
    · exact List.pairwise_cons.2 ⟨fun a ha => hl.toPlaced.apart (hr.2.1 a ha).toPlaced hf.next_le, hr.2.2⟩
  · refine .bind (ensures_lift (steps_forward h fun q hf => ?_))
    refine ih.valid_expression hf.coherent (fails_after hf hlo) fun a q₁ ha => ?_
    have hf₁ := hf.trans ha.1
    refine .bind (steps_expect ha.1.coherent (fails_after hf₁ hlo) fun q₂ hx => ?_)
    have ha' : Reads q.next q a q₂ := ⟨ha.1.trans hx, ha.2.follow ha.1.coherent hx⟩
    refine .bind (ensures_lift ((ih.expression hx.coherent _).mono fun b q₃ hb => ?_))
    obtain ⟨hf₃, hlo₃, hl₃, hb₃, hlb⟩ := right (hf.trans ha'.1) hb
    obtain ⟨-, -, -, ha₃, hla⟩ := right hf ⟨ha'.1.trans hb.1, ha'.2.follow hx.coherent hb.1⟩
    have hab : Apart a b := ha'.2.toPlaced.apart hb.2.toPlaced (Nat.le_refl _)
    refine ensures_lift (ensures_node (hf₃.reads (built_neutral rfl hlo₃ ?_ (.inl ?_) (by simp) rfl
      (by simp [isInvalid]))))
    · simp only [children, List.mem_cons, List.not_mem_nil, or_false, forall_eq_or_imp, forall_eq]
      exact ⟨hl₃, ha₃, hb₃⟩
    · simp [children, hla, hlb, hab]
  · split
    · refine .bind (ensures_lift (steps_forward h fun q hf => ?_))
      refine .bind (ensures_lift ((ih.expression hf.coherent _).mono fun n q' hr => ?_))
      obtain ⟨hf', hlo', hl', hn, ha⟩ := right hf hr
      exact ensures_lift (ensures_node (hf'.reads (built_two rfl hlo' rfl rfl hl' hn ha)))
    · exact ensures_fail ((steps_errorAt h).mono (fails_after h.refl hlo))
  · rename_i op
    split
    · refine .bind (ensures_lift (steps_forward h fun q hf => ?_))
      refine .bind (ensures_lift ((ih.expression hf.coherent _).mono fun n q' hr => ?_))
      obtain ⟨hf', hlo', hl', hn, ha⟩ := right hf hr
      refine .bind (ensures_lift (ensures_node ?_))
      -- The target stands on both sides of the new assignment.
      have hv := hf'.reads (built_two (n := .binary ⟨q'.next, left.place.extend n.place⟩ (.arith op)
        left n) rfl hlo' rfl rfl hl' hn ha)
      have hl'' := hl'.follow hf'.coherent hf'.coherent.tick
      refine ensures_lift (ensures_node (hv.1.reads (built_neutral rfl (hv.1.next_le_of hlo) ?_
        (.inr ⟨_, _, _, _, _, rfl, ha⟩) (by simp) rfl (by simp [isInvalid]))))
      simp only [children, List.mem_cons, List.not_mem_nil, or_false, forall_eq_or_imp, forall_eq]
      exact ⟨hl'', hv.2⟩
    · exact ensures_fail ((steps_errorAt h).mono (fails_after h.refl hlo))
  · exact adjusted _
  · exact adjusted _
  · exact ensures_fail ((steps_unexpected h).mono (fails_after h.refl hlo))

theorem arguments_succ (h : p.Coherent) :
    (Parser.arguments (fuel + 1)).Ensures p (Fails p.next p) (ReadsAll p.next p) := by
  rw [Parser.arguments]
  refine .bind (ensures_lift (steps_accept h fun b q hf => ?_))
  split
  · exact Attempt.ensures_pure ⟨hf, by simp, .nil⟩
  · refine .bind ((ih.argumentList hf.coherent).mono (fails_after hf (Nat.le_refl _)) ?_)
    intro as q' hr
    have hr' := hr.after hf hf.next_le
    refine .bind (steps_expect hr.1.coherent (fails_after hr'.1 (Nat.le_refl _)) fun q'' hx => ?_)
    exact Attempt.ensures_pure ⟨hr'.1.trans hx,
      fun a ha => (hr'.2.1 a ha).follow hr.1.coherent hx, hr.2.2⟩

omit ih in
/-- One more node before those that are read next. -/
theorem readsAll_cons {q q' : Parser} {ns : List Node} (hn : Reads p.next p n q)
    (hr : ReadsAll q.next q ns q') : ReadsAll p.next p (n :: ns) q' := by
  refine ⟨hn.1.trans hr.1, ?_, List.pairwise_cons.2 ⟨fun m hm => ?_, hr.2.2⟩⟩
  · intro m hm
    rcases List.mem_cons.1 hm with rfl | hm
    · exact hn.2.follow hn.1.coherent hr.1
    · exact (hr.2.1 m hm).weaken hn.1.next_le
  · exact hn.2.toPlaced.apart (hr.2.1 m hm).toPlaced (Nat.le_refl _)

omit ih in
theorem readsAll_one {q : Parser} (hn : Reads p.next p n q) : ReadsAll p.next p [n] q :=
  ⟨hn.1, by simpa using hn.2, by simp⟩

theorem argumentList_succ (h : p.Coherent) :
    (Parser.argumentList (fuel + 1)).Ensures p (Fails p.next p) (ReadsAll p.next p) := by
  rw [Parser.argumentList]
  refine ih.valid_expression h (fun _ _ hn => hn) fun a q ha => ?_
  refine .bind (ensures_lift (steps_accept ha.1.coherent fun b q' hx => ?_))
  have ha' : Reads p.next p a q' := ⟨ha.1.trans hx, ha.2.follow ha.1.coherent hx⟩
  split
  · refine .bind ((ih.argumentList hx.coherent).mono (fails_after ha'.1 (Nat.le_refl _)) ?_)
    exact fun as q'' hr => Attempt.ensures_pure (readsAll_cons ha' hr)
  · exact Attempt.ensures_pure (readsAll_one ha')

/-! ### Statements -/

theorem condition_succ (h : p.Coherent) :
    (Parser.condition (fuel + 1)).Ensures p (Fails p.next p) (Reads p.next p) := by
  rw [Parser.condition]
  refine .bind (steps_expect h (fun _ _ hn => hn) fun q hf => ?_)
  refine ih.valid_expression hf.coherent (fails_after hf (Nat.le_refl _)) fun c q' hr => ?_
  have hr' := hr.after hf hf.next_le
  refine .bind (steps_expect hr.1.coherent (fails_after hr'.1 (Nat.le_refl _)) fun q'' hx => ?_)
  exact Attempt.ensures_pure ⟨hr'.1.trans hx, hr'.2.follow hr.1.coherent hx⟩

theorem ifStatement_succ (h : p.Coherent) :
    (Parser.ifStatement (fuel + 1) place).Ensures p (Fails p.next p) (Reads p.next p) := by
  rw [Parser.ifStatement]
  refine .bind (ensures_lift (steps_forward h fun q hf => ?_))
  refine .bind ((ih.condition hf.coherent).mono (fails_after hf (Nat.le_refl _)) fun c q₁ hc => ?_)
  have hc' := hc.after hf hf.next_le
  refine .bind (ensures_lift ((ih.statement hc.1.coherent).mono fun a q₂ ha => ?_))
  have hca : Apart c a := hc.2.toPlaced.apart ha.2.toPlaced (Nat.le_refl _)
  have hf₂ := hc'.1.trans ha.1
  -- Whether there is an `else` changes only the cursor.
  refine .bind (ensures_lift (Reading.Ensures.mono
    (Q := fun _ q₃ => Follows q₂ q₃) ?_ fun otherwise q₃ hx => ?_))
  · refine .bind (ensures_hasFailed ?_)
    split
    · exact ensures_pure ha.1.coherent.refl
    · exact steps_acceptName ha.1.coherent fun _ _ hx => hx
  · have hf₃ := hf₂.trans hx
    have hc₃ := hc'.2.follow hc.1.coherent (ha.1.trans hx)
    have ha₃ := (ha.2.weaken hc'.1.next_le).follow ha.1.coherent hx
    split
    · refine .bind (ensures_lift ((ih.statement hx.coherent).mono fun b q₄ hb => ?_))
      have hf₄ := hf₃.trans hb.1
      have hcb : Apart c b := hc₃.toPlaced.apart hb.2.toPlaced (Nat.le_refl _)
      have hab : Apart a b := ha₃.toPlaced.apart hb.2.toPlaced (Nat.le_refl _)
      refine steps_spanned fun _ => hf₄.reads (built_neutral rfl hf₄.next_le ?_ (.inl ?_) (by simp)
        rfl (by simp [isInvalid]))
      · simp only [children, List.mem_cons, List.not_mem_nil, or_false, forall_eq_or_imp, forall_eq]
        exact ⟨hc₃.follow hx.coherent hb.1, ha₃.follow hx.coherent hb.1, hb.2.weaken hf₃.next_le⟩
      · simp [children, hca, hcb, hab]
    · exact steps_spanned fun _ => hf₃.reads (built_two rfl hf₃.next_le rfl rfl hc₃ ha₃ hca)

theorem whileStatement_succ (h : p.Coherent) :
    (Parser.whileStatement (fuel + 1) place).Ensures p (Fails p.next p) (Reads p.next p) := by
  rw [Parser.whileStatement]
  refine .bind (ensures_lift (steps_forward h fun q hf => ?_))
  refine .bind ((ih.condition hf.coherent).mono (fails_after hf (Nat.le_refl _)) fun c q₁ hc => ?_)
  have hc' := hc.after hf hf.next_le
  refine .bind (ensures_lift ((ih.statement hc.1.coherent).mono fun b q₂ hb => ?_))
  have hf₂ := hc'.1.trans hb.1
  exact steps_spanned fun _ => hf₂.reads (built_two rfl hf₂.next_le rfl rfl
    (hc'.2.follow hc.1.coherent hb.1) (hb.2.weaken hc'.1.next_le)
    (hc.2.toPlaced.apart hb.2.toPlaced (Nat.le_refl _)))

theorem doStatement_succ (h : p.Coherent) :
    (Parser.doStatement (fuel + 1) place).Ensures p (Fails p.next p) (Reads p.next p) := by
  rw [Parser.doStatement]
  refine .bind (ensures_lift (steps_forward h fun q hf => ?_))
  refine .bind (ensures_lift ((ih.statement hf.coherent).mono fun b q₁ hb => ?_))
  have hb' := hb.after hf hf.next_le
  refine .bind (steps_valid hb' id ?_)
  refine .bind (ensures_lift (steps_acceptName hb.1.coherent fun found q₂ hx => ?_))
  have hf₂ := hb'.1.trans hx
  have hb₂ := hb'.2.follow hb.1.coherent hx
  split
  · refine .bind ((ih.condition hx.coherent).mono (fails_after hf₂ (Nat.le_refl _))
      fun c q₃ hc => ?_)
    have hf₃ := hf₂.trans hc.1
    exact steps_spanned fun _ => hf₃.reads (built_two rfl hf₃.next_le rfl rfl
      (hc.2.weaken hf₂.next_le) (hb₂.follow hx.coherent hc.1)
      (hb₂.toPlaced.apart hc.2.toPlaced (Nat.le_refl _)).symm)
  · exact ensures_fail ((steps_unexpected hx.coherent).mono (fails_after hf₂ (Nat.le_refl _)))

theorem returnStatement_succ (h : p.Coherent) :
    (Parser.returnStatement (fuel + 1) place).Ensures p (Fails p.next p) (Reads p.next p) := by
  rw [Parser.returnStatement]
  refine .bind (ensures_lift (steps_forward h fun q hf => ?_))
  refine .bind (ensures_lift (ensures_kind fun k => ?_))
  have bare : Attempt.Ensures (do node (← spanFrom place) (.jump · .return)) q (Fails p.next p)
      (Reads p.next p) :=
    steps_spanned fun _ => hf.reads (built_leaf rfl hf.next_le rfl (by simp) rfl
      (by simp [isInvalid]))
  split
  · exact bare
  · exact bare
  · exact bare
  · refine ih.valid_expression hf.coherent (fails_after hf (Nat.le_refl _)) fun v q' hr => ?_
    have hr' := hr.after hf hf.next_le
    exact steps_spanned fun _ => hr'.1.reads (built_one rfl hr'.1.next_le rfl rfl hr'.2)

theorem statement_succ (h : p.Coherent) :
    (Parser.statement (fuel + 1)).Ensures p (Reads p.next p) := by
  rw [Parser.statement]
  refine .bind ((ih.expression h 0).mono fun n q hr => ?_)
  refine .bind (steps_accept hr.1.coherent fun _ q' hx => ?_)
  exact ensures_pure ⟨hr.1.trans hx, hr.2.follow hr.1.coherent hx⟩

theorem statements_succ (h : p.Coherent) (closing : Option Token.Kind) :
    (Parser.statements (fuel + 1) closing).Ensures p (ReadsAll p.next p) := by
  unfold Parser.statements
  refine .bind (ensures_hasFailed ?_)
  split
  · exact ensures_pure ⟨h.refl, by simp, .nil⟩
  · refine .bind (Reading.Ensures.mono (Q := fun _ q => Follows p q) ?_ fun closed q hf => ?_)
    · cases closing with
      | some k => exact steps_accept h fun _ _ hf => hf
      | none => exact .bind (ensures_kind fun _ => ensures_pure h.refl)
    · split
      · exact ensures_pure ⟨hf, by simp, .nil⟩
      · refine .bind ((ih.statement hf.coherent).mono fun n q₁ hn => ?_)
        refine .bind ((ih.statements hn.1.coherent closing).mono fun ns q₂ hr => ?_)
        exact ensures_pure (readsAll_cons (hn.after hf hf.next_le) hr)

/-! ### Declarations, functions and blocks -/

theorem declarators_succ (h : p.Coherent) :
    (Parser.declarators (fuel + 1)).Ensures p (Fails p.next p) (ReadsAll p.next p) := by
  rw [Parser.declarators]
  refine .bind (ensures_lift (ensures_here fun place => ?_))
  refine .bind (steps_takeNameOr h (fun _ _ hn => hn) fun s q hf => ?_)
  refine .bind (steps_declare hf.coherent (fails_after hf (Nat.le_refl _)) fun d q₁ hg hc hv => ?_)
  have hf₁ : Follows p q₁ := hf.trans ⟨⟨_, hg⟩, hc⟩
  refine .bind (ensures_lift (ensures_node ?_))
  have ht := hf₁.reads (n := .declare ⟨q₁.next, place⟩ d) (built_node rfl hf₁.next_le
    (by simp [children]) (.inl (by simp [children])) (by simp) (by simp [Node.binds])
    (by simp [Node.opens]) (by simp [isInvalid]) fun _ => .declare hv)
  generalize { q₁ with next := q₁.next + 1 } = q₂ at ht ⊢
  refine .bind (ensures_lift (Reading.Ensures.mono (Q := Reads p.next p) ?_ fun n q₃ hn => ?_))
  · refine .bind (steps_accept ht.1.coherent fun b q₃ hx => ?_)
    have ht₃ := ht.2.follow ht.1.coherent hx
    have hf₃ := ht.1.trans hx
    split
    · refine .bind ((ih.expression hx.coherent _).mono fun v q₄ hr => ensures_node ?_)
      have hf₄ := hf₃.trans hr.1
      exact hf₄.reads (built_two rfl hf₄.next_le rfl rfl (ht₃.follow hx.coherent hr.1)
        (hr.2.weaken hf₃.next_le) (ht₃.toPlaced.apart hr.2.toPlaced (Nat.le_refl _)))
    · exact ensures_pure ⟨hf₃, ht₃⟩
  · refine .bind (ensures_lift (Reading.Ensures.mono
      (Q := fun _ q₄ => Follows q₃ q₄) ?_ fun more q₄ hx => ?_))
    · refine .bind (ensures_hasFailed ?_)
      split
      · exact ensures_pure hn.1.coherent.refl
      · exact steps_accept hn.1.coherent fun _ _ hx => hx
    · have hn' : Reads p.next p n q₄ := ⟨hn.1.trans hx, hn.2.follow hn.1.coherent hx⟩
      split
      · refine .bind ((ih.declarators hx.coherent).mono (fails_after hn'.1 (Nat.le_refl _)) ?_)
        exact fun ns q₅ hr => Attempt.ensures_pure (readsAll_cons hn' hr)
      · exact Attempt.ensures_pure (readsAll_one hn')

theorem parameters_succ (h : p.Coherent) :
    (Parser.parameters (fuel + 1)).Ensures p (Fails p.next p) fun params p' =>
      Grows p params p' ∧ p'.Coherent := by
  rw [Parser.parameters]
  refine .bind (ensures_lift (ensures_here fun place => ?_))
  refine .bind (ensures_takeNameOr (fun s c => ?_) fun c place message =>
    h.refl.fails (Nat.le_refl _) c place message)
  have hm := h.move c
  refine .bind (steps_declare hm.coherent (fails_after hm (Nat.le_refl _)) fun d q hg hc _ => ?_)
  have hg' : Grows p [d] q := (Grows.move p c).trans hg
  refine .bind (ensures_lift (ensures_accept fun b c' => ?_))
  have hg'' : Grows p [d] { q with cursor := c' } := hg'.trans (Grows.move q c')
  have hc'' := (hc.move c').coherent
  split
  · refine .bind ((ih.parameters hc'').mono
      (fails_after ⟨⟨_, hg''⟩, hc''⟩ (Nat.le_refl _)) fun ds q' hr => ?_)
    exact Attempt.ensures_pure ⟨hg''.trans hr.1, hr.2⟩
  · exact Attempt.ensures_pure ⟨hg'', hc''⟩

omit ih in
/-- The node that stands for several statements in the scope around them. -/
theorem steps_together {q : Parser} {ss : List Node} (hr : ReadsAll lo p ss q) (hlo : lo ≤ q.next) :
    (blockOf place ss []).Ensures q (Reads lo p) := by
  refine steps_blockOf ?_ ?_
  · rintro s rfl -
    exact ⟨hr.1, hr.2.1 s (by simp)⟩
  · refine hr.1.reads (built_node rfl hlo (fun s hs => (hr.2.1 s hs).toPlaced) (.inl hr.2.2)
      (by simp) (by simp [Node.binds]) (by simp [Node.opens]) (by simp [isInvalid]) fun hf => ?_)
    exact .block fun s hs => ((hr.2.1 s hs).bound hf).mono fun _ hk => .inl hk

omit ih in
/-- The node that stands for a block whose scope has been closed again. -/
theorem steps_closed {q : Parser} {ss : List Node} {locals : List Declaration} {scope : Scope}
    (h : p.Coherent) (hr : ∀ s ∈ ss, Built p.next q s) (ha : ss.Pairwise Apart)
    (hg : Grows p [] { q with scope := scope }) (hc : Coherent { q with scope := scope })
    (hl : ∀ d ∈ locals, p.next ≤ d.id ∧ d.id < q.next)
    (hv : ∀ k, q.Visible k → Visible { q with scope := scope } k ∨ idsOf locals k) :
    (blockOf place ss locals).Ensures { q with scope := scope } fun n p' =>
      Grows p [] p' ∧ p'.Coherent ∧ Built p.next p' n := by
  -- What is declared now was declared before the block.
  have hold : ∀ e ∈ declared { q with scope := scope }, e.id < p.next := fun e he =>
    h.fresh e ((hg.mem_declared.1 he).resolve_right (by simp))
  have hplaced : ∀ s ∈ ss, Placed p.next { q with scope := scope } s := fun s hs =>
    (hr s hs).toPlaced.mono (Nat.le_refl _) (Nat.le_refl _) fun e he => .inr (.inr (hold e he))
  refine steps_blockOf ?_ ?_
  · rintro s rfl rfl
    have hs := hr s (by simp)
    refine ⟨hg, hc, hplaced s (by simp), hs.marked, fun hf => (hs.bound hf).mono ?_⟩
    intro k hk
    exact (hv k hk).resolve_right fun ⟨d, hd, _⟩ => by cases hd
  · refine ⟨hg.trans (.of_same (Nat.le_succ _) id rfl rfl rfl), hc.tick.coherent, ?_⟩
    refine built_node rfl hg.next hplaced (.inl ha) (by simp) (fun d hd => (hl d hd).2) ?_
      (by simp [isInvalid]) fun hf => .block fun s hs => ((hr s hs).bound hf).mono hv
    intro d hd
    have hle := (hl d hd).1
    refine ⟨hle, fun e he => ?_⟩
    have := hold e he
    omega

theorem block_succ (h : p.Coherent) :
    (Parser.block (fuel + 1) place).Ensures p fun n p' =>
      Grows p [] p' ∧ p'.Coherent ∧ Built p.next p' n := by
  rw [Parser.block]
  refine .bind (ensures_modify ?_)
  refine .bind ((ih.statements h.openScope _).mono fun ss q hr => ?_)
  obtain ⟨⟨⟨new, hg⟩, hq⟩, hb, ha⟩ := hr
  obtain ⟨scope, hs, hg', hc, hv⟩ := close_opened h hg hq
  refine .bind (ensures_modifyGet ?_)
  simp only [hs]
  refine .bind (ensures_spanFrom fun _ => ?_)
  exact steps_closed h hb ha hg' hc (fun d hd => ⟨(hg.fresh d hd).1, (hg.fresh d hd).2.1⟩) hv

theorem functionParts_succ (h : p.Coherent) :
    (Parser.functionParts (fuel + 1)).Ensures p (Fails p.next p) fun parts p' =>
      Grows p parts.1 p' ∧ p'.Coherent ∧ Built p.next p' parts.2 := by
  rw [Parser.functionParts]
  have failed : ∀ {q : Parser}, Follows p q → ∀ c place message,
      Fails p.next p (.invalid ⟨q.next, place⟩ message)
        { q with cursor := c, failed := true, next := q.next + 1 } :=
    fun hf c place message => hf.fails hf.next_le c place message
  refine .bind (ensures_expect (fun c => ?_) (failed h.refl))
  have hm := h.move c
  refine .bind (Attempt.Ensures.mono (E := Fails p.next p)
    (Q := fun params q => Grows p params q ∧ q.Coherent) ?_ (fun _ _ hn => hn) ?_)
  · refine .bind (ensures_lift (ensures_accept fun b c' => ?_))
    have hg : Grows p [] { p with cursor := c' } := Grows.move p c'
    have hc := (h.move c').coherent
    split
    · exact Attempt.ensures_pure ⟨hg, hc⟩
    · refine .bind ((ih.parameters hc).mono (fun _ _ hn => hn.after ⟨⟨_, hg⟩, hc⟩ (Nat.le_refl _))
        fun ps q hps => ?_)
      have hg' : Grows p ps q := hg.trans hps.1
      refine .bind (ensures_expect (fun c'' => ?_) (failed ⟨⟨_, hg'⟩, hps.2⟩))
      exact Attempt.ensures_pure
        ⟨by simpa using hg'.trans (Grows.move q c''), (hps.2.move c'').coherent⟩
  · rintro params q ⟨hg, hc⟩
    refine .bind (ensures_lift (ensures_here fun place => ?_))
    refine .bind (ensures_expect (fun c' => ?_) (failed ⟨⟨_, hg⟩, hc⟩))
    refine .bind (ensures_lift ((ih.block (hc.move c').coherent place).mono fun body q' hb => ?_))
    have hg' : Grows p params q' := by simpa using (hg.trans (Grows.move q c')).trans hb.1
    have hbody : Built p.next q' body := hb.2.2.weaken hg.next
    refine .bind (ensures_lift (ensures_hasFailed ?_))
    split
    · rename_i hf
      exact ensures_throw ⟨⟨⟨⟨_, hg'⟩, hb.2.1⟩, hbody⟩, hf⟩
    · exact Attempt.ensures_pure ⟨hg', hb.2.1, hbody⟩

theorem function_succ (h : p.Coherent) :
    (Parser.function (fuel + 1) place).Ensures p (Fails p.next p) (Reads p.next p) := by
  rw [Parser.function]
  refine .bind (ensures_lift (steps_forward h fun q hf => ?_))
  refine .bind (Attempt.Ensures.mono (E := Fails p.next p)
    (Q := fun own q₁ => Follows p q₁ ∧ ∀ d ∈ own, q₁.Visible d.id) ?_ (fun _ _ hn => hn) ?_)
  · refine .bind (ensures_lift (ensures_takeName fun s c => ?_))
    have hf' := hf.trans (hf.coherent.move c)
    cases s with
    | none => exact Attempt.ensures_pure ⟨hf', by simp⟩
    | some s =>
      refine .bind (ensures_get ?_)
      refine .bind (steps_declare hf'.coherent (fails_after hf' (Nat.le_refl _))
        fun d q' hg hc hv => ?_)
      exact Attempt.ensures_pure ⟨hf'.trans ⟨⟨_, hg⟩, hc⟩, by simpa using hv⟩
  · rintro own q₁ ⟨hf₁, hown⟩
    have hc₁ := hf₁.coherent
    refine .bind (ensures_lift (ensures_modify (.bind (ensures_lift (ensures_modify ?_)))))
    -- What is declared after the function was declared before it.
    have hold : ∀ {q' : Parser}, Grows q₁ [] q' → ∀ e ∈ q'.declared, e.id < q₁.next :=
      fun hg e he => hc₁.fresh e ((hg.mem_declared.1 he).resolve_right (by simp))
    refine .bind (ensures_outcome ((ih.functionParts hc₁.openScope.openFunction).mono ?_ ?_))
    · rintro n q₂ ⟨⟨⟨⟨new, hg⟩, hc⟩, hn⟩, hfail⟩
      obtain ⟨scope, hs, hg', hc', -⟩ := close_opened_function hc₁ hg hc
      refine .bind (ensures_lift (ensures_modifyGet (.bind (ensures_lift (ensures_modifyGet ?_)))))
      simp only [hs]
      refine ensures_throw ⟨⟨hf₁.trans ⟨⟨_, hg'⟩, hc'⟩, ?_, fun _ => hfail, fun hf => ?_⟩, hfail⟩
      · exact hn.toPlaced.mono hf₁.next_le (Nat.le_refl _)
          fun e he => .inr (.inr (hold hg' e he))
      · exact absurd hfail (by simpa using hf)
    · rintro ⟨params, body⟩ q₂ ⟨hg, hc, hb⟩
      obtain ⟨scope, hs, hg', hc', hv, hfree⟩ := close_opened_function hc₁ hg hc
      refine .bind (ensures_lift (ensures_modifyGet (.bind (ensures_lift (ensures_modifyGet ?_)))))
      simp only [hs]
      have hf₂ := hf₁.trans ⟨⟨_, hg'⟩, hc'⟩
      refine steps_spanned fun _ => hf₂.reads (built_node rfl hf₂.next_le ?_
        (.inl (by simp [children])) (by simp) ?_ ?_ (by simp [isInvalid]) fun hf => ?_)
      · intro c hc
        obtain rfl : c = body := by simpa [children] using hc
        exact hb.toPlaced.mono hf₁.next_le (Nat.le_refl _)
          fun e he => .inr (.inr (hold hg' e he))
      · intro d hd
        rcases List.mem_append.1 hd with hd | hd
        · exact (hg.fresh d hd).2.1
        · exact (hfree d hd).1
      · intro d hd
        have hle : q₁.next ≤ d.id := (hg.fresh d hd).1
        refine ⟨Nat.le_trans hf₁.next_le hle, fun e he => ?_⟩
        have := hold hg' e he
        omega
      · exact .function (fun d hd => (hfree d hd).2)
          (fun d hd => hg'.visible hc₁ (hown d hd)) ((hb.bound hf).mono hv)

theorem named_succ (h : p.Coherent) (s : String) :
    (Parser.named (fuel + 1) place s).Ensures p (Fails p.next p) (Reads p.next p) := by
  unfold Parser.named
  have leaf : ∀ build : Tag → Node, (∀ t, (build t).tag = t ∧ (build t).children = [] ∧
      (build t).isNeutral = true ∧ (build t).isInvalid = false ∧
      ∀ t' v, build t = .constant t' v → v.isData = true) →
      Attempt.Ensures (do forward; node place build) p (Fails p.next p) (Reads p.next p) := by
    intro build hb
    refine .bind (ensures_lift (steps_forward h fun q hf => ensures_lift (ensures_node ?_)))
    obtain ⟨hid, hc, hn, hi, hl⟩ := hb ⟨q.next, place⟩
    exact hf.reads (built_leaf (by rw [Node.id, hid]) hf.next_le hc hl hn (by simp [hi]))
  split
  · rename_i v hv
    refine leaf _ fun t => ⟨rfl, rfl, rfl, rfl, ?_⟩
    rintro t' v' ⟨⟩
    unfold namedConstant? at hv
    split at hv <;> cases hv <;> rfl
  · split
    · exact ih.ifStatement h place
    · exact ih.whileStatement h place
    · exact ih.doStatement h place
    · refine .bind (ensures_lift (steps_forward h fun q hf => ?_))
      refine .bind ((ih.declarators hf.coherent).mono (fails_after hf (Nat.le_refl _))
        fun ds q' hr => ?_)
      have hr' := hr.after hf hf.next_le
      refine .bind (ensures_lift (ensures_spanFrom fun _ => ensures_lift ?_))
      exact steps_together hr' hr'.1.next_le
    · exact ih.function h place
    · exact leaf _ fun t => ⟨rfl, rfl, rfl, rfl, by simp⟩
    · exact leaf _ fun t => ⟨rfl, rfl, rfl, rfl, by simp⟩
    · exact ih.returnStatement h place
    · exact ensures_fail (steps_errorAt h)
    · refine .bind (ensures_lift (steps_forward h fun q hf => ?_))
      exact ensures_lift ((steps_nameNode hf.coherent).mono fun _ _ hr => hr.after hf hf.next_le)

theorem succ : Sound (fuel + 1) where
  expression h _ := ih.expression_succ h
  operations h hlo hl _ := ih.operations_succ h hlo hl
  operand h _ := ih.operand_succ h
  operation h hlo hl := ih.operation_succ h hlo hl
  arguments h := ih.arguments_succ h
  argumentList h := ih.argumentList_succ h
  named h _ s := ih.named_succ h s
  condition h := ih.condition_succ h
  ifStatement h _ := ih.ifStatement_succ h
  whileStatement h _ := ih.whileStatement_succ h
  doStatement h _ := ih.doStatement_succ h
  declarators h := ih.declarators_succ h
  function h _ := ih.function_succ h
  functionParts h := ih.functionParts_succ h
  parameters h := ih.parameters_succ h
  returnStatement h _ := ih.returnStatement_succ h
  block h _ := ih.block_succ h
  statement h := ih.statement_succ h
  statements h closing := ih.statements_succ h closing

end Sound

/-- **Every reader of the grammar builds tagged and scoped nodes.** -/
theorem sound (fuel : Nat) : Sound fuel := by
  induction fuel with
  | zero => exact sound_zero
  | succ fuel ih => exact ih.succ

end Steppable.Parser
