import Steppable.Proofs.Parser.Soundness
import Steppable.Proofs.Tree.Binding

/-!
# What the parser knows of the names it reads

A name is looked up in a chain of entries of its own, and what a function captures is collected
while the function is still being read: a use is added to every open function that is deeper than its
declaration, and how deep that is has been noted when the name was declared. So a capture is lost, or
one too many is made, if a depth is wrong at the moment of a use, and nothing in the tree would show
it.

`Traces p ns q` says what has become of the nodes `ns` that were read between `p` and `q`: unless an
error was noted, their names are resolved in what was in scope, and each use is in the lists of those
functions around it that are deeper than its declaration (`Traced`). Each way to make a node keeps
this. The list of a function that is left then holds exactly its captures (`afterUses_body`): what is
declared inside is deeper than the function, and what was declared before is not.
-/

namespace Steppable.Parser

open Reading Attempt Node

variable {p q r : Parser} {n x : Node} {ns ms : List Node} {d : Declaration} {i : Nat}
  {new us vs free : List Declaration} {depth depth' : Declaration → Nat}

/-! ## Names in scope -/

/-- The declarations of the open scopes, the latest first. -/
def inScope (p : Parser) : List Declaration :=
  p.scope.levels.flatMap List.reverse

theorem mem_inScope : d ∈ p.inScope ↔ d ∈ p.declared := by
  simp [inScope, declared]

/-- A name is found to be the latest declaration of that name. -/
theorem Coherent.find?_eq (h : p.Coherent) (s : String) :
    p.scope.find? s = p.inScope.find? (·.name == s) := by
  rw [inScope, ← List.head?_filter, ← h.tidy s, List.head?_map, Scope.find?]

theorem Grows.inScope (h : Grows p new q) : q.inScope = new.reverse ++ p.inScope := by
  unfold Parser.inScope
  rw [h.levels]
  cases hl : p.scope.levels with
  | nil => simp [extend, h.opened hl]
  | cons ds outer => simp [extend]

theorem Grows.depthOf (h : Grows p new q) (hd : d.id < p.next) : q.depthOf d = p.depthOf d :=
  h.nesting d.id hd

theorem Follows.depthOf (h : Follows p q) (hd : d.id < p.next) : q.depthOf d = p.depthOf d := by
  obtain ⟨⟨new, hg⟩, -⟩ := h
  exact hg.depthOf hd

theorem Follows.functions (h : Follows p q) : q.functions.length = p.functions.length := by
  obtain ⟨⟨new, hg⟩, -⟩ := h
  exact hg.functions

theorem Follows.clear (h : Follows p q) (hq : q.failed = false) : p.failed = false := by
  obtain ⟨⟨new, hg⟩, -⟩ := h
  cases hp : p.failed with
  | false => rfl
  | true => exact absurd (hg.failed hp) (by simp [hq])

/-! ## Noted uses -/

/-- The free variables of a function inside `i` others, `free` before, after the uses `us`. -/
def afterUses (depth : Declaration → Nat) (i : Nat) (us free : List Declaration) :
    List Declaration :=
  (us.filter (depth · ≤ i)).foldl (fun free d => addFree d free) free

theorem afterUses_append :
    afterUses depth i (us ++ vs) free = afterUses depth i vs (afterUses depth i us free) := by
  simp [afterUses]

theorem afterUses_congr (h : ∀ d ∈ us, depth d = depth' d) :
    afterUses depth i us free = afterUses depth' i us free := by
  unfold afterUses
  rw [List.filter_congr fun d hd => by rw [h d hd]]

/-- Declarations with identities of their own are each added once. -/
theorem foldl_addFree (h : ∀ d ∈ us, ∀ e ∈ us, d.id = e.id → d = e) :
    us.foldl (fun free d => addFree d free) [] = us.eraseDups := by
  induction us using List.reverseRecOn with
  | nil => simp
  | append_singleton us d ih =>
    have hus := ih fun e he e' he' => h e (by simp [he]) e' (by simp [he'])
    have hany : us.eraseDups.any (·.id == d.id) = true ↔ d ∈ us := by
      simp only [List.any_eq_true, List.mem_eraseDups, beq_iff_eq]
      constructor
      · rintro ⟨e, he, hid⟩
        exact h e (by simp [he]) d (by simp) hid ▸ he
      · exact fun hd => ⟨d, hd, rfl⟩
    rw [List.foldl_append, hus, Lambda.eraseDups_concat, List.foldl_cons, List.foldl_nil, addFree]
    by_cases hd : d ∈ us
    · rw [if_pos (hany.2 hd), if_pos hd]
    · rw [if_neg (mt hany.1 hd), if_neg hd]

/-! ## Nodes that have been read -/

/-- The node `x` has been read between `p` and `q`, and what it opens has been declared there. -/
structure Recorded (p : Parser) (x : Node) (q : Parser) : Prop where
  ids : p.next ≤ x.id ∧ x.id < q.next
  opens : ∀ d ∈ x.opens, p.next ≤ d.id ∧ d.id < q.next ∧ p.functions.length ≤ q.depthOf d
  captures : ∀ t code, x = .function t code → code.free = code.captures

theorem Recorded.grow (h : Recorded p x q) (hr : Follows q r) : Recorded p x r where
  ids := ⟨h.ids.1, Nat.lt_of_lt_of_le h.ids.2 hr.next_le⟩
  opens d hd := by
    obtain ⟨hlo, hhi, hdepth⟩ := h.opens d hd
    exact ⟨hlo, Nat.lt_of_lt_of_le hhi hr.next_le, (hr.depthOf hhi).symm ▸ hdepth⟩
  captures := h.captures

/-- More may have been read before and after. -/
theorem Recorded.widen {p₁ q₁ : Parser} (h : Recorded p x q) (hp : p₁.next ≤ p.next)
    (hk : p₁.functions.length ≤ p.functions.length) (hq : q.next ≤ q₁.next)
    (hn : q₁.nesting = q.nesting) : Recorded p₁ x q₁ where
  ids := ⟨Nat.le_trans hp h.ids.1, Nat.lt_of_lt_of_le h.ids.2 hq⟩
  opens d hd := by
    obtain ⟨hlo, hhi, hdepth⟩ := h.opens d hd
    refine ⟨Nat.le_trans hp hlo, Nat.lt_of_lt_of_le hhi hq, ?_⟩
    rw [Parser.depthOf, hn]
    exact Nat.le_trans hk hdepth
  captures := h.captures

/-- From `p` to `q` the nodes `ns` have been read: their names are resolved, and each use has been
noted in the functions that were open. -/
structure Traced (p : Parser) (ns : List Node) (q : Parser) : Prop where
  resolved : Resolved p.inScope ns q.inScope
  valid : ∀ n ∈ ns, n.isInvalid = false
  recorded : ∀ n ∈ ns, ∀ x, n.Within x → Recorded p x q
  noted : ∀ i free, p.functions[i]? = some free →
    q.functions[i]? = some (afterUses q.depthOf i (usesAll ns) free)

/-- A reader has read `ns` from `p` on. If there is an error, its nodes mean nothing. -/
def Traces (p : Parser) (ns : List Node) (q : Parser) : Prop :=
  Follows p q ∧ (q.failed = false → Traced p ns q)

/-- An attempt that began with `p` has ended early. -/
def Stops (p : Parser) (_ : Node) (q : Parser) : Prop :=
  Follows p q ∧ q.failed = true

theorem Stops.traces (h : Stops p n q) : Traces p ns q :=
  ⟨h.1, fun hf => absurd h.2 (by simp [hf])⟩

theorem Stops.after (hf : Follows p q) (h : Stops q n r) : Stops p n r :=
  ⟨hf.trans h.1, h.2⟩

theorem Traced.uses_lt (h : Traced p ns q) (hc : q.Coherent) (hd : d ∈ usesAll ns) :
    d.id < q.next := by
  rcases h.resolved.mem_of_uses hd with hv | ⟨n, hn, x, hx, ho⟩
  · exact hc.fresh d (mem_inScope.1 hv)
  · exact ((h.recorded n hn x hx).opens d ho).2.1

/-- What is read next is read after what has been read. -/
theorem Traces.append (h : Traces p ns q) (h' : Traces q ms r) : Traces p (ns ++ ms) r := by
  refine ⟨h.1.trans h'.1, fun hf => ?_⟩
  have hms := h'.2 hf
  have hns := h.2 (h'.1.clear hf)
  refine ⟨hns.resolved.append hms.resolved, fun n hn => ?_, fun n hn x hx => ?_,
    fun i free hi => ?_⟩
  · exact (List.mem_append.1 hn).elim (hns.valid n) (hms.valid n)
  · rcases List.mem_append.1 hn with hn | hn
    · exact (hns.recorded n hn x hx).grow h'.1
    · exact (hms.recorded n hn x hx).widen h.1.next_le (Nat.le_of_eq h.1.functions.symm)
        (Nat.le_refl _) rfl
  · -- What was declared before keeps its depth.
    have hsame :
        afterUses r.depthOf i (usesAll ns) free = afterUses q.depthOf i (usesAll ns) free :=
      afterUses_congr fun d hd => h'.1.depthOf (hns.uses_lt h.1.coherent hd)
    rw [hms.noted i _ (hns.noted i free hi), usesAll_append, afterUses_append, hsame]

/-- Nothing has been read yet. -/
theorem Coherent.traces (h : p.Coherent) (hn : p.next ≤ q.next)
    (hf : p.failed = true → q.failed = true) (hs : q.scope = p.scope)
    (hg : q.nesting = p.nesting) (hu : q.functions = p.functions) : Traces p [] q := by
  refine ⟨h.follows hn hf hs hg hu, fun _ => ⟨?_, by simp, by simp, fun i free hi => ?_⟩⟩
  · rw [inScope, inScope, hs]
    exact .nil
  · rw [hu, hi]
    rfl

theorem Coherent.start (h : p.Coherent) : Traces p [] p :=
  h.traces (Nat.le_refl _) id rfl rfl rfl

theorem Traces.of_same (h : Traces p ns q) (hn : q.next ≤ r.next)
    (hf : q.failed = true → r.failed = true) (hs : r.scope = q.scope)
    (hg : r.nesting = q.nesting) (hu : r.functions = q.functions) : Traces p ns r := by
  simpa using h.append (h.1.coherent.traces hn hf hs hg hu)

theorem Traces.move (h : Traces p ns q) (c : Cursor) : Traces p ns { q with cursor := c } :=
  h.of_same (Nat.le_refl _) id rfl rfl rfl

/-! ## New nodes -/

/-- The node is no name and no scope, and all of its parts are written. -/
structure Plain (n : Node) : Prop where
  neutral : n.isNeutral = true
  bound : n.isUnbound = false
  valid : n.isInvalid = false
  written : n.inOrder.Perm n.children

/-- A node that was made between `q` and `r` of the parts that have been read. -/
theorem Traces.made (h : Traces p n.inOrder q) (hr : Traces q [] r)
    (hid : q.next ≤ n.id ∧ n.id < r.next) (hn : n.isNeutral = true) (hb : n.isUnbound = false)
    (hi : n.isInvalid = false) (hbelow : r.failed = false → ∀ x, n.Below x → Recorded p x r) :
    Traces p [n] r := by
  refine ⟨h.1.trans hr.1, fun hf => ?_⟩
  have hparts := (h.append hr).2 hf
  rw [List.append_nil] at hparts
  have huses : usesAll [n] = usesAll n.inOrder := by
    rw [usesAll_singleton, uses_eq (ne_var_of_isNeutral hn)]
  refine ⟨.parts hn hb hparts.resolved, by simpa using hi, fun m hm x hx => ?_, ?_⟩
  · obtain rfl := List.mem_singleton.1 hm
    rcases within_iff.1 hx with rfl | hx
    · refine ⟨⟨Nat.le_trans h.1.next_le hid.1, hid.2⟩, ?_, ?_⟩
      · simp [opens_of_isNeutral hn]
      · rintro t code rfl
        cases hn
    · exact hbelow hf x hx
  · rw [huses]
    exact hparts.noted

theorem Traces.tick (h : Traces p ns q) : Traces p ns { q with next := q.next + 1 } :=
  h.of_same (Nat.le_succ _) id rfl rfl rfl

/-- A plain node of the parts that have been read. -/
theorem Traces.node (h : Traces p n.inOrder q) (hid : n.id = q.next) (hn : Plain n) :
    Traces p [n] { q with next := q.next + 1 } := by
  have htick : Traces q [] { q with next := q.next + 1 } :=
    h.1.coherent.traces (Nat.le_succ _) id rfl rfl rfl
  refine h.made htick (by simp [hid]) hn.neutral hn.bound hn.valid fun hf x hx => ?_
  obtain ⟨c, hc, hx⟩ := hx
  exact (h.tick.2 hf).recorded c (hn.written.mem_iff.2 hc) x hx

theorem inOrder_assign {t : Tag} {l v : Node} (h : Apart l v) :
    (Node.assign t l v).inOrder = [l, v] := by
  cases v with
  | binary t' op l' r' =>
    have hid : l'.id ≠ l.id := (h l l' (.refl l) (within_of_mem (by simp [children]))).symm
    simp [inOrder, hid]
  | _ => rfl

/-- An assignment of a value that has been read after its target. -/
theorem Traces.assign {l v : Node} {place : Location} (h : Traces p [l] q) (h' : Traces q [v] r) :
    Traces p [.assign ⟨r.next, place⟩ l v] { r with next := r.next + 1 } := by
  have hboth := h.append h'
  refine ⟨hboth.tick.1, fun hf => ?_⟩
  have hapart : Apart l v := by
    intro x y hx hy heq
    have hlt := (((h.2 (h'.1.clear hf)).recorded l (by simp) x hx).ids).2
    have hle := (((h'.2 hf).recorded v (by simp) y hy).ids).1
    omega
  have horder := inOrder_assign (t := ⟨r.next, place⟩) hapart
  have hparts : Traces p (Node.assign ⟨r.next, place⟩ l v).inOrder r := horder.symm ▸ hboth
  exact (hparts.node rfl ⟨rfl, rfl, rfl, .of_eq horder⟩).2 hf

/-- A compound assignment: the target stands on both sides and has been read once. -/
theorem Traces.compound {l v : Node} {op : BinaryOp} {place place' : Location}
    (h : Traces p [l, v] q) :
    Traces p [.assign ⟨q.next + 1, place⟩ l (.binary ⟨q.next, place'⟩ op l v)]
      { q with next := q.next + 2 } := by
  have hlater : Traces q [] { q with next := q.next + 2 } :=
    h.1.coherent.traces (by simp) id rfl rfl rfl
  have horder : (Node.assign ⟨q.next + 1, place⟩ l (.binary ⟨q.next, place'⟩ op l v)).inOrder =
      [l, v] := by
    simp [inOrder]
  refine Traces.made (horder.symm ▸ h) hlater (by simp [Node.id, Node.tag]) rfl rfl rfl ?_
  intro hf x hx
  have hread := (h.append hlater).2 hf
  have hpart : ∀ c ∈ [l, v], c.Within x → Recorded p x _ := fun c hc hx => hread.recorded c hc x hx
  obtain ⟨c, hc, hx⟩ := hx
  simp only [children, List.mem_cons, List.not_mem_nil, or_false] at hc
  rcases hc with rfl | rfl
  · exact hpart c (by simp) hx
  · rcases within_iff.1 hx with rfl | ⟨c, hc, hx⟩
    · exact ⟨⟨h.1.next_le, by simp [Node.id, Node.tag]⟩, by simp [opens], by simp⟩
    · exact hpart c hc hx

/-! ## Names and declarations -/

/-- A node without parts that declares nothing outside itself. -/
theorem Traced.leaf (hid : n.id = q.next) (hc : n.children = []) (ho : n.opens = [])
    (hi : n.isInvalid = false) (hle : p.next ≤ q.next) (hr : Resolved p.inScope [n] q.inScope)
    (hnoted : ∀ i free, p.functions[i]? = some free →
      q.functions[i]? = some (afterUses q.depthOf i n.uses free)) :
    Traced p [n] { q with next := q.next + 1 } := by
  refine ⟨hr, by simpa using hi, fun m hm x hx => ?_, (usesAll_singleton n).symm ▸ hnoted⟩
  obtain rfl := List.mem_singleton.1 hm
  rcases within_iff.1 hx with rfl | ⟨c, hm, -⟩
  · refine ⟨⟨hid ▸ hle, by simp [hid]⟩, by simp [ho], ?_⟩
    rintro t code rfl
    cases hc
  · rw [hc] at hm
    cases hm

/-- A name is bound to the declaration found, and its use is noted. -/
theorem traces_nameNode {s : String} {place : Location} (h : p.Coherent) :
    (nameNode s place).Ensures p fun n q => Traces p [n] q := by
  unfold nameNode
  refine .bind (ensures_get ?_)
  split
  · rename_i d hd
    obtain ⟨hf, -⟩ := follows_noteUse h (h.tidy.mem_of_find hd)
    refine .bind (ensures_modify (ensures_node ⟨hf.trans hf.coherent.tick, fun _ => ?_⟩))
    rw [h.find?_eq] at hd
    have hname : d.name = s := by simpa using List.find?_some hd
    refine Traced.leaf rfl rfl rfl rfl (Nat.le_refl _) (.var (hname ▸ hd)) fun i free hi => ?_
    have hget := getElem?_noteUse (d := d) p.functions (p.depthOf d) i
    rw [hi] at hget
    refine hget.trans ?_
    show _ = some (afterUses p.depthOf i [d] free)
    by_cases hlt : i < p.depthOf d
    · simp [afterUses, hlt]
    · simp [afterUses, Nat.le_of_not_lt hlt, hlt]
  · rename_i hs
    refine ensures_node ⟨h.tick, fun _ => ?_⟩
    rw [h.find?_eq] at hs
    exact Traced.leaf rfl rfl rfl rfl (Nat.le_refl _) (.name hs) fun i free hi => hi

/-- What a declaration does to the parser. -/
structure Declares (p : Parser) (new : List Declaration) (q : Parser) : Prop where
  grows : Grows p new q
  coherent : q.Coherent
  functions : q.functions = p.functions

theorem Declares.follows (h : Declares p new q) : Follows p q :=
  ⟨⟨new, h.grows⟩, h.coherent⟩

theorem Declares.move (h : Declares p new q) (c : Cursor) :
    Declares p new { q with cursor := c } := by
  have hmove : Grows p (new ++ []) { q with cursor := c } := h.grows.trans (Grows.move q c)
  exact ⟨by simpa using hmove, (h.coherent.move c).coherent, h.functions⟩

theorem Declares.trans {new' : List Declaration} (h : Declares p new q) (h' : Declares q new' r) :
    Declares p (new ++ new') r :=
  ⟨h.grows.trans h'.grows, h'.coherent, h'.functions.trans h.functions⟩

theorem Coherent.declares_nil (h : p.Coherent) (c : Cursor) :
    Declares p [] { p with cursor := c } :=
  ⟨Grows.move p c, (h.move c).coherent, rfl⟩

theorem declares_declare {s : String} {place : Location} (h : p.Coherent) :
    (Attempt.declare s place).Ensures p (Stops p) fun d q => Declares p [d] q := by
  unfold Attempt.declare
  refine .bind (ensures_lift (ensures_fresh (.bind (ensures_get ?_))))
  dsimp only
  split
  · exact ensures_fail (ensures_errorAt ⟨h.tick.trans (h.tick.coherent.mark _), rfl⟩)
  · rename_i scope hs
    obtain ⟨hg, hc⟩ := follows_declare h (d := ⟨p.next, s, place⟩) rfl hs
    exact .bind (ensures_lift (ensures_modify (Attempt.ensures_pure ⟨hg, hc, rfl⟩)))

/-- The place where a variable is declared. -/
theorem Declares.traces {place : Location} (h : Declares p [d] q) :
    Traces p [.declare ⟨q.next, place⟩ d] { q with next := q.next + 1 } := by
  refine ⟨h.follows.trans h.coherent.tick, fun _ => ?_⟩
  refine Traced.leaf rfl rfl rfl rfl h.grows.next ?_ fun i free hi => ?_
  · rw [h.grows.inScope]
    exact .declare
  · rw [h.functions]
    exact hi

/-! ## Blocks -/

/-- The node that stands for several statements in the scope around them. -/
theorem Traces.group {ss : List Node} {place : Location} (h : Traces p ss q) :
    (blockOf place ss []).Ensures q fun n r => Traces p [n] r := by
  refine steps_blockOf ?_ ?_
  · rintro s rfl -
    exact h
  · refine ⟨h.tick.1, fun hf => ?_⟩
    have hread := h.tick.2 hf
    have huses : usesAll [.block ⟨q.next, place⟩ ss []] = usesAll ss := by simp [uses]
    refine ⟨.group hread.resolved, by simp [isInvalid], fun m hm x hx => ?_, huses ▸ hread.noted⟩
    obtain rfl := List.mem_singleton.1 hm
    rcases within_iff.1 hx with rfl | ⟨c, hc, hx⟩
    · exact ⟨⟨h.1.next_le, Nat.lt_succ_self _⟩, by simp [opens], by simp⟩
    · exact hread.recorded c hc x hx

/-- The node that stands for statements in a scope of their own, which has been closed again. -/
theorem traces_closed {ss : List Node} (h : p.Coherent)
    (hg : Grows { p with scope := p.scope.opened } new q)
    (ht : Traces { p with scope := p.scope.opened } ss q) :
    ∃ s, q.scope.close = .ok (new, s) ∧ ∀ place,
      (blockOf place ss new).Ensures { q with scope := s } fun n r =>
        Traces p [n] r ∧ Grows p [] r := by
  obtain ⟨s, hs, hg', hc, -⟩ := close_opened h hg ht.1.coherent
  refine ⟨s, hs, fun place => ?_⟩
  -- The locals are visible inside, and outside they are not.
  have hinside : q.inScope = new.reverse ++ p.inScope := hg.inScope
  have houtside : inScope { q with scope := s } = p.inScope := hg'.inScope
  refine steps_blockOf ?_ ?_
  · rintro s' rfl rfl
    refine ⟨⟨⟨⟨_, hg'⟩, hc⟩, fun hf => ?_⟩, hg'⟩
    have hread := ht.2 hf
    refine ⟨?_, hread.valid, fun m hm x hx => ?_, hread.noted⟩
    · have hsame : q.inScope = p.inScope := by simpa using hinside
      rw [houtside, ← hsame]
      exact hsame ▸ hread.resolved
    · exact (hread.recorded m hm x hx).widen (Nat.le_refl _) (Nat.le_refl _) (Nat.le_refl _) rfl
  · have htick : Grows p [] { q with scope := s, next := q.next + 1 } :=
      hg'.trans (.of_same (Nat.le_succ _) id rfl rfl rfl)
    refine ⟨⟨⟨⟨_, htick⟩, hc.tick.coherent⟩, fun hf => ?_⟩, htick⟩
    have hread := ht.2 hf
    have huses : usesAll [.block ⟨q.next, place⟩ ss new] = usesAll ss := by simp [uses]
    refine ⟨?_, by simp [isInvalid], fun m hm x hx => ?_, huses ▸ hread.noted⟩
    · show Resolved p.inScope _ (inScope { q with scope := s })
      rw [houtside]
      refine .block ?_
      rw [← hinside]
      exact hread.resolved
    · obtain rfl := List.mem_singleton.1 hm
      rcases within_iff.1 hx with rfl | ⟨c, hc, hx⟩
      · refine ⟨⟨hg'.next, Nat.lt_succ_self _⟩, fun d hd => ?_, by simp⟩
        obtain ⟨hlo, hhi, hdepth⟩ := hg.fresh d hd
        exact ⟨hlo, Nat.lt_succ_of_lt hhi, Nat.le_of_eq hdepth.symm⟩
      · exact (hread.recorded c hc x hx).widen (Nat.le_refl _) (Nat.le_refl _) (Nat.le_succ _) rfl

/-! ## Functions -/

/-- The parser inside a function whose parameters follow. -/
def entered (p : Parser) : Parser :=
  { p with scope := p.scope.opened, functions := p.functions ++ [[]] }

variable {p₁ : Parser}

/-- What the body of a function uses is noted exactly if it is declared outside the function. -/
theorem afterUses_body (code : Lambda) (h : p.Coherent) (hd : Declares p.entered code.params q)
    (hg : Grows q [] r) (ht : Traced q [code.body] r) :
    afterUses r.depthOf p.functions.length code.body.uses [] = code.captures := by
  have hlen : q.functions.length = p.functions.length + 1 := by
    rw [hd.functions]
    simp [entered]
  have hscope : r.inScope = code.params.reverse ++ p.inScope := by
    rw [hg.inScope, hd.grows.inScope]
    rfl
  have hinside : ∀ d ∈ code.declares, p.next ≤ d.id ∧ p.functions.length < r.depthOf d := by
    intro d hm
    rcases Lambda.mem_declares.1 hm with hm | ⟨x, hx, ho⟩
    · obtain ⟨hlo, hhi, hdepth⟩ := hd.grows.fresh d hm
      rw [hg.depthOf hhi, hdepth]
      exact ⟨hlo, by simp [entered]⟩
    · obtain ⟨hlo, -, hdepth⟩ := (ht.recorded _ (by simp) x hx).opens d ho
      exact ⟨Nat.le_trans hd.grows.next hlo, by omega⟩
  have houtside : ∀ d ∈ code.body.uses, d ∉ code.declares →
      d ∈ p.declared ∧ r.depthOf d ≤ p.functions.length := by
    intro d hu hm
    rcases ht.resolved.mem_of_uses (by simpa using hu) with hv | ⟨n, hn, x, hx, ho⟩
    · rw [hscope, List.mem_append, List.mem_reverse] at hv
      rcases hv with hv | hv
      · exact absurd (Lambda.mem_declares.2 (.inl hv)) hm
      · have hdecl := mem_inScope.1 hv
        have hid : d.id < p.next := h.fresh d hdecl
        rw [hg.depthOf (Nat.lt_of_lt_of_le hid hd.grows.next),
          hd.grows.depthOf (p := p.entered) hid]
        exact ⟨hdecl, h.nested d hdecl⟩
    · obtain rfl := List.mem_singleton.1 hn
      exact absurd (Lambda.mem_declares.2 (.inr ⟨x, hx, ho⟩)) hm
  have hfilter : code.body.uses.filter (r.depthOf · ≤ p.functions.length) =
      code.body.uses.filter (· ∉ code.declares) := by
    refine List.filter_congr fun d hu => ?_
    by_cases hm : d ∈ code.declares
    · simp [hm, hinside d hm]
    · simp [hm, houtside d hu hm]
  rw [afterUses, hfilter, Lambda.captures]
  refine foldl_addFree fun d hu e hu' => ?_
  simp only [List.mem_filter, decide_eq_true_eq] at hu hu'
  exact h.distinct d (houtside d hu.1 hu.2).1 e (houtside e hu'.1 hu'.2).1

/-- A function literal, made after the function has been left. -/
theorem Declares.function {own : Option Declaration} {params : List Declaration} {body : Node}
    (hown : Declares p own.toList p₁) (hd : Declares p₁.entered params q) (hg : Grows q [] r)
    (ht : Traces q [body] r) : ∃ s, r.scope.close = .ok (params, s) ∧ ∀ place,
      Traces p [.function ⟨r.next, place⟩ ⟨own, params, body, r.functions.getLastD []⟩]
        { r with scope := s, functions := r.functions.dropLast, next := r.next + 1 } := by
  have hgrow : Grows p₁.entered params r := by simpa using hd.grows.trans hg
  obtain ⟨s, hs, hg', hc', -, -⟩ := close_opened_function hown.coherent hgrow ht.1.coherent
  refine ⟨s, hs, fun place => ⟨hown.follows.trans (Follows.trans ⟨⟨_, hg'⟩, hc'⟩ hc'.tick), ?_⟩⟩
  intro hf
  have hbody := ht.2 hf
  have hlo : p.next ≤ q.next := Nat.le_trans hown.grows.next hd.grows.next
  have hfunctions : q.functions = p.functions ++ [[]] := by
    rw [hd.functions, entered, hown.functions]
  have hlen : r.functions.length = p.functions.length + 1 := by
    rw [hg.functions, hfunctions]
    simp
  -- What has been collected for the function itself are its captures.
  have hfree : r.functions.getLastD [] =
      Lambda.captures ⟨own, params, body, r.functions.getLastD []⟩ := by
    have hget := hbody.noted p.functions.length [] (by simp [hfunctions])
    rw [List.getLastD_eq_getLast?, List.getLast?_eq_getElem?, hlen, Nat.add_sub_cancel, hget,
      usesAll_singleton, ← hown.functions]
    exact afterUses_body ⟨own, params, body, _⟩ hown.coherent hd hg hbody
  have huses : usesAll [.function ⟨r.next, place⟩ ⟨own, params, body, r.functions.getLastD []⟩] =
      usesAll [body] := by
    simp [uses]
  refine ⟨?_, by simp [isInvalid], fun m hm x hx => ?_, fun i free hi => ?_⟩
  · have hinner : r.inScope = params.reverse ++ p₁.inScope := by
      rw [hg.inScope, hd.grows.inScope]
      rfl
    have hbefore : q.inScope = params.reverse ++ p₁.inScope := hd.grows.inScope
    have houter : inScope { r with scope := s } = p₁.inScope := hg'.inScope
    have hname : p₁.inScope = own.toList ++ p.inScope := by
      cases own <;> exact hown.grows.inScope
    show Resolved p.inScope _ (inScope { r with scope := s })
    rw [houter]
    refine .function hname ?_
    have hresolved := hbody.resolved
    rwa [hinner, hbefore] at hresolved
  · obtain rfl := List.mem_singleton.1 hm
    rcases within_iff.1 hx with rfl | ⟨c, hc, hcx⟩
    · refine ⟨⟨Nat.le_trans hlo hg.next, Nat.lt_succ_self _⟩, fun d hp => ?_, ?_⟩
      · obtain ⟨hle, hlt, hdepth⟩ := hgrow.fresh d hp
        refine ⟨Nat.le_trans hown.grows.next hle, Nat.lt_succ_of_lt hlt, ?_⟩
        refine Nat.le_trans ?_ (Nat.le_of_eq hdepth.symm)
        simp [entered, hown.functions]
      · rintro t code ⟨⟩
        exact hfree
    · obtain rfl : c = body := by simpa [children] using hc
      exact (hbody.recorded c (by simp) x hcx).widen hlo (by simp [hfunctions]) (Nat.le_succ _) rfl
  · have hlt : i < p.functions.length := (List.getElem?_eq_some_iff.1 hi).1
    have hget := hbody.noted i free (by rw [hfunctions, List.getElem?_append_left hlt, hi])
    rw [huses]
    show r.functions.dropLast[i]? = _
    rw [List.dropLast_eq_take, List.getElem?_take_of_lt (by omega), hget]
    rfl

end Steppable.Parser
