import Steppable.Proofs.Parser.Reading
import Steppable.Proofs.Scope.Chains
import Steppable.Proofs.Tree.Scoped

/-!
# The state of a parser is coherent

While a source is read, the chains of names list exactly the declarations of the open scopes
(`Scope.Tidy`), and a declaration that is used inside a function is noted as free in every function
between its own and the use (`Coherent.used`).

What a reader may do to the state is `Grows`: new declarations are added to the innermost scope, the
functions around may get more free variables, and nothing else changes. Scopes and functions that
are opened are closed again, whether or not the source has an error.
-/

namespace Steppable

namespace Parser

variable {p p' p'' : Parser} {d : Declaration} {new new' ds : List Declaration} {k : Nat}

/-! ## Coherent parsers -/

/-- The declarations of the open scopes. -/
def declared (p : Parser) : List Declaration :=
  p.scope.levels.flatten

/-- How many functions were open around the declaration. -/
def depthOf (p : Parser) (d : Declaration) : Nat :=
  p.nesting.getD d.id 0

structure Coherent (p : Parser) : Prop where
  tidy : p.scope.Tidy
  opened : p.scope.options.global = true → p.scope.levels ≠ []
  fresh : ∀ d ∈ p.declared, d.id < p.next
  distinct : ∀ d ∈ p.declared, ∀ e ∈ p.declared, d.id = e.id → d = e
  nested : ∀ d ∈ p.declared, p.depthOf d ≤ p.functions.length
  /-- A free variable of a function is declared outside it and is free in all functions between. -/
  used : ∀ (i : Nat) (free : List Declaration), p.functions[i]? = some free →
    ∀ d ∈ free, d ∈ p.declared ∧ p.depthOf d ≤ i ∧
    ∀ j, p.depthOf d ≤ j → j ≤ i → ∃ free', p.functions[j]? = some free' ∧ idsOf free' d.id

/-- The identities that can be used here: of the declarations of the innermost function and of its
free variables. -/
def Visible (p : Parser) (k : Nat) : Prop :=
  (∃ d ∈ p.declared, d.id = k ∧ p.depthOf d = p.functions.length) ∨
    ∃ free, p.functions.getLast? = some free ∧ idsOf free k

/-! ## Growing parsers -/

/-- New declarations in the innermost scope. -/
def extend (new : List Declaration) : List (List Declaration) → List (List Declaration)
  | [] => []
  | ds :: outer => (ds ++ new) :: outer

/-- The parser has read on inside the same scopes and functions, and has declared `new`. -/
structure Grows (p : Parser) (new : List Declaration) (p' : Parser) : Prop where
  next : p.next ≤ p'.next
  failed : p.failed = true → p'.failed = true
  options : p'.scope.options = p.scope.options
  levels : p'.scope.levels = extend new p.scope.levels
  opened : p.scope.levels = [] → new = []
  fresh : ∀ d ∈ new, p.next ≤ d.id ∧ d.id < p'.next ∧ p'.depthOf d = p.functions.length
  nesting : ∀ k < p.next, p'.nesting.getD k 0 = p.nesting.getD k 0
  functions : p'.functions.length = p.functions.length
  uses : ∀ (i : Nat) (free : List Declaration), p.functions[i]? = some free →
    ∃ free', p'.functions[i]? = some free' ∧ ∀ k, idsOf free k → idsOf free' k

theorem extend_nil (levels : List (List Declaration)) : extend [] levels = levels := by
  cases levels <;> simp [extend]

theorem extend_append (levels : List (List Declaration)) :
    extend (new ++ new') levels = extend new' (extend new levels) := by
  cases levels <;> simp [extend]

/-- Changes of the cursor, the counter and the mark for an error keep the rest. -/
theorem Grows.of_same (hn : p.next ≤ p'.next) (hf : p.failed = true → p'.failed = true)
    (hs : p'.scope = p.scope) (hg : p'.nesting = p.nesting) (hu : p'.functions = p.functions) :
    Grows p [] p' :=
  ⟨hn, hf, by rw [hs], by rw [hs, extend_nil], fun _ => rfl, by simp, fun _ _ => by rw [hg],
    by rw [hu], fun i free h => ⟨free, by rw [hu, h], fun _ hk => hk⟩⟩

theorem Grows.refl (p : Parser) : Grows p [] p :=
  .of_same (Nat.le_refl _) id rfl rfl rfl

theorem Grows.move (p : Parser) (c : Cursor) : Grows p [] { p with cursor := c } :=
  .of_same (Nat.le_refl _) id rfl rfl rfl

theorem Grows.trans (h : Grows p new p') (h' : Grows p' new' p'') : Grows p (new ++ new') p'' where
  next := Nat.le_trans h.next h'.next
  failed hp := h'.failed (h.failed hp)
  options := h'.options.trans h.options
  levels := by rw [h'.levels, h.levels, extend_append]
  opened hp := by rw [h.opened hp, h'.opened (by rw [h.levels, hp]; rfl)]; rfl
  fresh d hd := by
    rcases List.mem_append.1 hd with hd | hd
    · obtain ⟨h₁, h₂, h₃⟩ := h.fresh d hd
      exact ⟨h₁, Nat.lt_of_lt_of_le h₂ h'.next, (h'.nesting d.id h₂).trans h₃⟩
    · obtain ⟨h₁, h₂, h₃⟩ := h'.fresh d hd
      exact ⟨Nat.le_trans h.next h₁, h₂, h₃.trans h.functions⟩
  nesting k hk := (h'.nesting k (Nat.lt_of_lt_of_le hk h.next)).trans (h.nesting k hk)
  functions := h'.functions.trans h.functions
  uses i free hi := by
    obtain ⟨free₁, h₁, hk₁⟩ := h.uses i free hi
    obtain ⟨free₂, h₂, hk₂⟩ := h'.uses i free₁ h₁
    exact ⟨free₂, h₂, fun k hk => hk₂ k (hk₁ k hk)⟩

theorem Grows.mem_declared (h : Grows p new p') :
    d ∈ p'.declared ↔ d ∈ p.declared ∨ d ∈ new := by
  unfold declared
  rw [h.levels]
  cases hl : p.scope.levels with
  | nil => simp [extend, h.opened hl]
  | cons ds outer => simp [extend, or_comm, or_left_comm]

/-- What can be used here can be used later. -/
theorem Grows.visible (h : Grows p new p') (hc : p.Coherent) (hk : p.Visible k) : p'.Visible k := by
  rcases hk with ⟨d, hd, rfl, hn⟩ | ⟨free, hl, hf⟩
  · refine .inl ⟨d, h.mem_declared.2 (.inl hd), rfl, ?_⟩
    rw [h.functions, ← hn]
    exact h.nesting d.id (hc.fresh d hd)
  · rw [List.getLast?_eq_getElem?] at hl
    obtain ⟨free', hl', hk'⟩ := h.uses _ free hl
    refine .inr ⟨free', ?_, hk' k hf⟩
    rw [List.getLast?_eq_getElem?, h.functions]
    exact hl'

/-- The parser has read on and is coherent. -/
def Follows (p p' : Parser) : Prop :=
  (∃ new, Grows p new p') ∧ p'.Coherent

theorem Follows.trans (h : Follows p p') (h' : Follows p' p'') : Follows p p'' := by
  obtain ⟨⟨new, hg⟩, -⟩ := h
  obtain ⟨⟨new', hg'⟩, hc⟩ := h'
  exact ⟨⟨new ++ new', hg.trans hg'⟩, hc⟩

theorem Follows.coherent (h : Follows p p') : p'.Coherent := h.2

theorem Follows.next_le (h : Follows p p') : p.next ≤ p'.next := by
  obtain ⟨⟨new, hg⟩, -⟩ := h
  exact hg.next

theorem Coherent.of_same (h : p.Coherent) (hn : p.next ≤ p'.next) (hs : p'.scope = p.scope)
    (hg : p'.nesting = p.nesting) (hu : p'.functions = p.functions) : p'.Coherent := by
  have hd : p'.declared = p.declared := by rw [declared, declared, hs]
  have hdep : p'.depthOf = p.depthOf := by
    funext d
    rw [depthOf, depthOf, hg]
  refine ⟨hs ▸ h.tidy, hs ▸ h.opened, fun d hm => ?_, hd ▸ h.distinct, ?_, ?_⟩
  · exact Nat.lt_of_lt_of_le (h.fresh d (hd ▸ hm)) hn
  · rw [hd, hdep, hu]
    exact h.nested
  · rw [hd, hdep, hu]
    exact h.used

theorem Coherent.follows (h : p.Coherent) (hn : p.next ≤ p'.next)
    (hf : p.failed = true → p'.failed = true) (hs : p'.scope = p.scope)
    (hg : p'.nesting = p.nesting) (hu : p'.functions = p.functions) : Follows p p' :=
  ⟨⟨[], .of_same hn hf hs hg hu⟩, h.of_same hn hs hg hu⟩

theorem Coherent.move (h : p.Coherent) (c : Cursor) : Follows p { p with cursor := c } :=
  h.follows (Nat.le_refl _) id rfl rfl rfl

theorem Coherent.tick (h : p.Coherent) : Follows p { p with next := p.next + 1 } :=
  h.follows (Nat.le_succ _) id rfl rfl rfl

theorem Coherent.mark (h : p.Coherent) (c : Cursor) :
    Follows p { p with cursor := c, failed := true, next := p.next + 1 } :=
  h.follows (Nat.le_succ _) (fun _ => rfl) rfl rfl rfl

/-! ## Declaring and using names -/

/-- The parser after it has declared `d` with the next identity. -/
theorem follows_declare {s : Scope} (h : p.Coherent) (hid : d.id = p.next)
    (hs : p.scope.declare d = .ok s) :
    Grows p [d] { p with
        scope := s, next := p.next + 1, nesting := p.nesting.insert d.id p.functions.length } ∧
      Coherent { p with
        scope := s, next := p.next + 1, nesting := p.nesting.insert d.id p.functions.length } := by
  obtain ⟨ds, outer, hl, hl', ho, -⟩ := Scope.declare_eq_ok hs
  have hnest : ∀ k, (p.nesting.insert d.id p.functions.length).getD k 0 =
      if d.id = k then p.functions.length else p.nesting.getD k 0 := by
    intro k
    simp [Std.TreeMap.getD_insert]
  have hold : ∀ e ∈ p.declared, (p.nesting.insert d.id p.functions.length).getD e.id 0 =
      p.depthOf e := by
    intro e he
    have := h.fresh e he
    rw [hnest, if_neg (by omega)]
    rfl
  have hgrow : Grows p [d] { p with
      scope := s, next := p.next + 1, nesting := p.nesting.insert d.id p.functions.length } := by
    refine ⟨Nat.le_succ _, id, ho, by rw [hl, hl']; rfl, by simp [hl], ?_, ?_, rfl,
      fun i free hi => ⟨free, hi, fun _ hk => hk⟩⟩
    · intro e he
      obtain rfl := List.mem_singleton.1 he
      refine ⟨Nat.le_of_eq hid.symm, hid ▸ Nat.lt_succ_self _, ?_⟩
      exact (hnest e.id).trans (if_pos rfl)
    · intro k hk
      exact (hnest k).trans (if_neg (by omega))
  refine ⟨hgrow, h.tidy.declare hs, by simp [hl'], fun e he => ?_, fun e he e' he' heq => ?_,
    fun e he => ?_, fun i free hi e he => ?_⟩
  · rcases hgrow.mem_declared.1 he with he | he
    · exact Nat.lt_succ_of_lt (h.fresh e he)
    · obtain rfl := List.mem_singleton.1 he
      exact hid ▸ Nat.lt_succ_self _
  · rcases hgrow.mem_declared.1 he with hold₁ | hnew₁ <;>
      rcases hgrow.mem_declared.1 he' with hold₂ | hnew₂
    · exact h.distinct e hold₁ e' hold₂ heq
    · obtain rfl := List.mem_singleton.1 hnew₂
      have := h.fresh e hold₁
      omega
    · obtain rfl := List.mem_singleton.1 hnew₁
      have := h.fresh e' hold₂
      omega
    · exact (List.mem_singleton.1 hnew₁).trans (List.mem_singleton.1 hnew₂).symm
  · rcases hgrow.mem_declared.1 he with he | he
    · exact Nat.le_trans (Nat.le_of_eq (hold e he)) (h.nested e he)
    · obtain rfl := List.mem_singleton.1 he
      exact Nat.le_of_eq ((hnest e.id).trans (if_pos rfl))
  · obtain ⟨hm, hi', hj⟩ := h.used i free hi e he
    refine ⟨hgrow.mem_declared.2 (.inl hm), Nat.le_trans (Nat.le_of_eq (hold e hm)) hi',
      fun j hj' => ?_⟩
    exact hj j (Nat.le_trans (Nat.le_of_eq (hold e hm).symm) hj')

theorem idsOf_addFree (d : Declaration) (free : List Declaration) (k : Nat) :
    idsOf (Reading.addFree d free) k ↔ idsOf free k ∨ d.id = k := by
  unfold Reading.addFree
  split
  · rename_i h
    obtain ⟨e, he, hid⟩ := List.any_eq_true.1 h
    constructor
    · exact .inl
    · rintro (hk | rfl)
      · exact hk
      · exact ⟨e, he, by simpa using hid⟩
  · constructor
    · rintro ⟨e, he, rfl⟩
      rcases List.mem_append.1 he with he | he
      · exact .inl (idsOf_of_mem he)
      · exact .inr (by rw [List.mem_singleton.1 he])
    · rintro (⟨e, he, rfl⟩ | rfl)
      · exact idsOf_of_mem (List.mem_append_left _ he)
      · exact idsOf_of_mem (List.mem_append_right _ (by simp))

theorem mem_addFree {e : Declaration} {free : List Declaration}
    (h : e ∈ Reading.addFree d free) : e ∈ free ∨ e = d := by
  unfold Reading.addFree at h
  split at h
  · exact .inl h
  · rcases List.mem_append.1 h with h | h
    · exact .inl h
    · exact .inr (List.mem_singleton.1 h)

/-- The functions after a use of `d`. -/
theorem getElem?_noteUse (fs : List (List Declaration)) (depth i : Nat) :
    (fs.take depth ++ (fs.drop depth).map (Reading.addFree d))[i]? =
      if i < depth then fs[i]? else fs[i]?.map (Reading.addFree d) := by
  split
  · rename_i h
    by_cases hl : i < fs.length
    · rw [List.getElem?_append_left (by simp; omega), List.getElem?_take_of_lt h]
    · rw [List.getElem?_eq_none (by simp; omega), List.getElem?_eq_none (by omega)]
  · rename_i h
    by_cases hl : depth ≤ fs.length
    · rw [List.getElem?_append_right (by simp; omega), List.getElem?_map, List.getElem?_drop]
      congr 2
      simp
      omega
    · rw [List.getElem?_eq_none (by simp; omega), List.getElem?_eq_none (by omega)]
      rfl

/-- A declaration of an open scope that is used becomes visible. -/
theorem follows_noteUse (h : p.Coherent) (hd : d ∈ p.declared) :
    Follows p { p with
      functions := p.functions.take (p.depthOf d) ++
        (p.functions.drop (p.depthOf d)).map (Reading.addFree d) } ∧
    Visible { p with
      functions := p.functions.take (p.depthOf d) ++
        (p.functions.drop (p.depthOf d)).map (Reading.addFree d) } d.id := by
  have hdepth := h.nested d hd
  have hget := getElem?_noteUse (d := d) p.functions (p.depthOf d)
  generalize hfs : p.functions.take (p.depthOf d) ++
    (p.functions.drop (p.depthOf d)).map (Reading.addFree d) = fs at hget
  have hlen : fs.length = p.functions.length := by
    rw [← hfs]
    simp
    omega
  have huses : ∀ i free, p.functions[i]? = some free →
      ∃ free', fs[i]? = some free' ∧ (∀ k, idsOf free k → idsOf free' k) ∧
        (p.depthOf d ≤ i → idsOf free' d.id) := by
    intro i free hi
    rw [hget, hi]
    split
    · rename_i hlt
      exact ⟨free, rfl, fun _ hk => hk, fun hle => by omega⟩
    · exact ⟨_, rfl, fun k hk => (idsOf_addFree d free k).2 (.inl hk),
        fun _ => (idsOf_addFree d free d.id).2 (.inr rfl)⟩
  have hgrow : Grows p [] { p with functions := fs } :=
    ⟨Nat.le_refl _, id, rfl, (extend_nil _).symm, fun _ => rfl, by simp, fun _ _ => rfl, hlen,
      fun i free hi => by
        obtain ⟨free', hi', hk, -⟩ := huses i free hi
        exact ⟨free', hi', hk⟩⟩
  refine ⟨⟨⟨[], hgrow⟩, h.tidy, h.opened, h.fresh, h.distinct,
    fun e he => hlen.symm ▸ h.nested e he, ?_⟩, ?_⟩
  · intro i free hi e he
    dsimp only at hi
    rw [hget] at hi
    have hold : ∀ free₀, p.functions[i]? = some free₀ → e ∈ free₀ →
        e ∈ p.declared ∧ p.depthOf e ≤ i ∧ ∀ j, p.depthOf e ≤ j → j ≤ i →
          ∃ free', fs[j]? = some free' ∧ idsOf free' e.id := by
      intro free₀ hi₀ he₀
      obtain ⟨hm, hle, hj⟩ := h.used i free₀ hi₀ e he₀
      refine ⟨hm, hle, fun j hj₁ hj₂ => ?_⟩
      obtain ⟨free₁, hj₃, hk⟩ := hj j hj₁ hj₂
      obtain ⟨free', hj₄, hk', -⟩ := huses j free₁ hj₃
      exact ⟨free', hj₄, hk' _ hk⟩
    split at hi
    · exact hold free hi he
    · rename_i hge
      obtain ⟨free₀, hi₀, rfl⟩ := Option.map_eq_some_iff.1 hi
      rcases mem_addFree he with he | rfl
      · exact hold free₀ hi₀ he
      · refine ⟨hd, Nat.le_of_not_lt hge, fun j hj₁ hj₂ => ?_⟩
        have hjl : j < p.functions.length := by
          have := (List.getElem?_eq_some_iff.1 hi₀).1
          omega
        obtain ⟨free', hj₃, -, hk⟩ := huses j _ (List.getElem?_eq_getElem hjl)
        exact ⟨free', hj₃, hk hj₁⟩
  · by_cases heq : p.depthOf d = p.functions.length
    · exact .inl ⟨d, hd, rfl, heq.trans hlen.symm⟩
    · have hlast : p.functions.length - 1 < p.functions.length := by omega
      obtain ⟨free', hl, -, hk⟩ := huses _ _ (List.getElem?_eq_getElem hlast)
      refine .inr ⟨free', ?_, hk (by omega)⟩
      show fs.getLast? = some free'
      rw [List.getLast?_eq_getElem?, hlen]
      exact hl

/-! ## Opening and closing -/

variable {q : Parser} {s : Scope}

theorem Coherent.openScope (h : p.Coherent) : Coherent { p with scope := p.scope.opened } :=
  ⟨Scope.tidy_opened h.tidy, by simp [Scope.opened], h.fresh, h.distinct, h.nested, h.used⟩

theorem Coherent.openFunction (h : p.Coherent) :
    Coherent { p with functions := p.functions ++ [[]] } := by
  refine ⟨h.tidy, h.opened, h.fresh, h.distinct, fun d hd => ?_, fun i free hi d hd => ?_⟩
  · have := h.nested d hd
    simp
    exact Nat.le_succ_of_le this
  · dsimp only at hi
    by_cases hlt : i < p.functions.length
    · rw [List.getElem?_append_left hlt] at hi
      obtain ⟨hm, hle, hj⟩ := h.used i free hi d hd
      refine ⟨hm, hle, fun j hj₁ hj₂ => ?_⟩
      obtain ⟨free', hf, hk⟩ := hj j hj₁ hj₂
      exact ⟨free', by rw [List.getElem?_append_left (by omega), hf], hk⟩
    · rw [List.getElem?_append_right (by omega)] at hi
      have := List.mem_of_getElem? hi
      obtain rfl := List.mem_singleton.1 this
      simp at hd

/-- A scope can be closed if its declarations are used in no open function. -/
theorem Coherent.closeScope (h : q.Coherent) (hs : q.scope.close = .ok (new, s))
    (ho : s.options.global = true → s.levels ≠ [])
    (hnew : ∀ d ∈ new, q.functions.length ≤ q.depthOf d) : Coherent { q with scope := s } := by
  obtain ⟨outer, hl, hl', hopt, -⟩ := Scope.close_eq_ok hs
  have hdecl : ∀ d, d ∈ s.levels.flatten → d ∈ q.declared := by
    intro d hd
    rw [declared, hl, List.flatten_cons]
    exact List.mem_append_right _ (hl' ▸ hd)
  refine ⟨h.tidy.close hs, ho, fun d hd => h.fresh d (hdecl d hd),
    fun d hd e he => h.distinct d (hdecl d hd) e (hdecl e he),
    fun d hd => h.nested d (hdecl d hd), fun i free hi d hd => ?_⟩
  obtain ⟨hm, hle, hj⟩ := h.used i free hi d hd
  refine ⟨?_, hle, hj⟩
  rw [declared, hl, List.flatten_cons] at hm
  rcases List.mem_append.1 hm with hm | hm
  · have h₁ := hnew d hm
    have h₂ : i < q.functions.length := (List.getElem?_eq_some_iff.1 hi).1
    omega
  · show d ∈ s.levels.flatten
    rw [hl']
    exact hm

theorem Coherent.closeFunction (h : q.Coherent)
    (hn : ∀ d ∈ q.declared, q.depthOf d ≤ q.functions.length - 1) :
    Coherent { q with functions := q.functions.dropLast } := by
  have hget : ∀ i, q.functions.dropLast[i]? =
      if i < q.functions.length - 1 then q.functions[i]? else none := by
    intro i
    rw [List.dropLast_eq_take, List.getElem?_take]
  refine ⟨h.tidy, h.opened, h.fresh, h.distinct, fun d hd => ?_, fun i free hi d hd => ?_⟩
  · show q.depthOf d ≤ q.functions.dropLast.length
    rw [List.length_dropLast]
    exact hn d hd
  · dsimp only at hi
    rw [hget] at hi
    split at hi
    · rename_i hlt
      obtain ⟨hm, hle, hj⟩ := h.used i free hi d hd
      refine ⟨hm, hle, fun j hj₁ hj₂ => ?_⟩
      obtain ⟨free', hf, hk⟩ := hj j hj₁ hj₂
      exact ⟨free', by rw [hget, if_pos (by omega), hf], hk⟩
    · simp at hi

/-- **A scope that was opened is closed again**, and what it declared are its locals. -/
theorem close_opened (h : p.Coherent) (hg : Grows { p with scope := p.scope.opened } new q)
    (hq : q.Coherent) :
    ∃ s, q.scope.close = .ok (new, s) ∧ Grows p [] { q with scope := s } ∧
      Coherent { q with scope := s } ∧
      ∀ k, q.Visible k → Visible { q with scope := s } k ∨ idsOf new k := by
  have hlev : q.scope.levels = new :: p.scope.levels := by
    rw [hg.levels]
    simp [Scope.opened, extend]
  have hopt : q.scope.options = p.scope.options := hg.options
  obtain ⟨s, hs⟩ := Scope.close_of_levels hlev (by rw [hopt]; exact h.opened)
  obtain ⟨outer, hl, hl', ho, -⟩ := Scope.close_eq_ok hs
  obtain ⟨-, rfl⟩ := List.cons.inj (hlev.symm.trans hl)
  have hnew : ∀ d ∈ new, q.functions.length ≤ q.depthOf d := fun d hd =>
    Nat.le_of_eq (hg.functions.trans (hg.fresh d hd).2.2.symm)
  have hclosed : Coherent { q with scope := s } :=
    hq.closeScope hs (by rw [ho, hopt, hl']; exact h.opened) hnew
  refine ⟨s, hs, ⟨hg.next, hg.failed, ho.trans hopt, by rw [extend_nil]; exact hl', fun _ => rfl,
    by simp, hg.nesting, hg.functions, hg.uses⟩, hclosed, fun k hk => ?_⟩
  rcases hk with ⟨d, hd, rfl, hn⟩ | hk
  · rw [declared, hlev, List.flatten_cons] at hd
    rcases List.mem_append.1 hd with hd | hd
    · exact .inr (idsOf_of_mem hd)
    · refine .inl (.inl ⟨d, ?_, rfl, hn⟩)
      show d ∈ s.levels.flatten
      rwa [hl']
  · exact .inl (.inr hk)

/-- **A function that was opened is closed again.** Its body uses its parameters and its free
variables, and these can be used outside. -/
theorem close_opened_function (h : p.Coherent)
    (hg : Grows { p with scope := p.scope.opened, functions := p.functions ++ [[]] } new q)
    (hq : q.Coherent) :
    ∃ s, q.scope.close = .ok (new, s) ∧
      Grows p [] { q with scope := s, functions := q.functions.dropLast } ∧
      Coherent { q with scope := s, functions := q.functions.dropLast } ∧
      (∀ k, q.Visible k → idsOf (q.functions.getLastD []) k ∨ idsOf new k) ∧
      ∀ d ∈ q.functions.getLastD [], d.id < q.next ∧
        Visible { q with scope := s, functions := q.functions.dropLast } d.id := by
  have hlev : q.scope.levels = new :: p.scope.levels := by
    rw [hg.levels]
    simp [Scope.opened, extend]
  have hopt : q.scope.options = p.scope.options := hg.options
  have hlen : q.functions.length = p.functions.length + 1 := by
    rw [hg.functions]
    simp
  obtain ⟨s, hs⟩ := Scope.close_of_levels hlev (by rw [hopt]; exact h.opened)
  obtain ⟨outer, hl, hl', ho, -⟩ := Scope.close_eq_ok hs
  obtain ⟨-, rfl⟩ := List.cons.inj (hlev.symm.trans hl)
  have hnew : ∀ d ∈ new, q.depthOf d = p.functions.length + 1 := by
    intro d hd
    rw [(hg.fresh d hd).2.2]
    simp
  -- The declarations outside keep their depths.
  have hold : ∀ d ∈ p.declared, q.depthOf d ≤ p.functions.length := by
    intro d hd
    rw [depthOf, hg.nesting d.id (h.fresh d hd)]
    exact h.nested d hd
  have hclosed : Coherent { q with scope := s } :=
    hq.closeScope hs (by rw [ho, hopt, hl']; exact h.opened)
      (fun d hd => Nat.le_of_eq (hlen.trans (hnew d hd).symm))
  have hclosed' : Coherent { q with scope := s, functions := q.functions.dropLast } := by
    refine hclosed.closeFunction fun d hd => ?_
    have hd' : d ∈ p.declared := by
      have : d ∈ s.levels.flatten := hd
      rwa [hl'] at this
    have := hold d hd'
    show q.depthOf d ≤ q.functions.length - 1
    omega
  have hdrop : ∀ i < p.functions.length, q.functions.dropLast[i]? = q.functions[i]? := by
    intro i hi
    rw [List.dropLast_eq_take, List.getElem?_take_of_lt (by omega)]
  obtain ⟨free, hfree⟩ : ∃ free, q.functions[p.functions.length]? = some free :=
    ⟨_, List.getElem?_eq_getElem (by omega)⟩
  have hlast : q.functions.getLast? = some free := by
    rw [List.getLast?_eq_getElem?, hlen]
    exact hfree
  have hlastD : q.functions.getLastD [] = free := by
    rw [List.getLastD_eq_getLast?, hlast]
    rfl
  refine ⟨s, hs, ⟨hg.next, hg.failed, ho.trans hopt, by rw [extend_nil]; exact hl', fun _ => rfl,
    by simp, hg.nesting, by simp [hlen], fun i fr hi => ?_⟩, hclosed', fun k hk => ?_,
    fun d hd => ?_⟩
  · have hi' := (List.getElem?_eq_some_iff.1 hi).1
    obtain ⟨fr', hf, hk⟩ := hg.uses i fr (by
      show (p.functions ++ [[]])[i]? = some fr
      rw [List.getElem?_append_left hi', hi])
    exact ⟨fr', (hdrop i hi').trans hf, hk⟩
  · rw [hlastD]
    rcases hk with ⟨d, hd, rfl, hn⟩ | ⟨fr, hfr, hk⟩
    · rw [declared, hlev, List.flatten_cons] at hd
      rcases List.mem_append.1 hd with hd | hd
      · exact .inr (idsOf_of_mem hd)
      · have := hold d hd
        omega
    · rw [hlast] at hfr
      exact .inl (Option.some.inj hfr ▸ hk)
  · rw [hlastD] at hd
    obtain ⟨hm, hle, hj⟩ := hq.used _ free hfree d hd
    refine ⟨hq.fresh d hm, ?_⟩
    have hd' : d ∈ s.levels.flatten := by
      rw [declared, hlev, List.flatten_cons] at hm
      rcases List.mem_append.1 hm with hm | hm
      · have := hnew d hm
        omega
      · rwa [hl']
    by_cases heq : q.depthOf d = p.functions.length
    · refine .inl ⟨d, hd', rfl, ?_⟩
      show q.depthOf d = q.functions.dropLast.length
      simp [heq, hlen]
    · obtain ⟨free', hf', hk⟩ := hj (p.functions.length - 1) (by omega) (by omega)
      refine .inr ⟨free', ?_, hk⟩
      show q.functions.dropLast.getLast? = some free'
      rw [List.getLast?_eq_getElem?, List.length_dropLast, hlen]
      exact (hdrop _ (by omega)).trans hf'

end Parser

end Steppable
