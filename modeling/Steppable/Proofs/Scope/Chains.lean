import Steppable.Scope

/-!
# Chains of names

A scope keeps its declarations twice: in the lists of its open levels, and in a chain for each name,
which makes a look-up short. The chains are right if every one lists the declarations of its name in
the open levels, the latest first: `Tidy` says so of the declarations, `Indexed` also of the depths
that they are noted with. Opening, declaring and closing keep both.
-/

namespace Steppable.Scope

variable {s t : Scope} {d : Declaration} {ds : List Declaration} {x : String}

/-- The chain of every name lists the declarations of that name in the open scopes, the latest
first. -/
def Tidy (s : Scope) : Prop :=
  ∀ x, (s.chain x).map Entry.decl = (s.levels.flatMap List.reverse).filter (·.name == x)

/-- The entries that belong to the declarations of some levels, the latest first. -/
def entries : List (List Declaration) → List Entry
  | [] => []
  | ds :: outer => ds.reverse.map (⟨·, outer.length + 1⟩) ++ entries outer

/-- The chain of every name lists the entries of that name, each with the depth of its scope. -/
def Indexed (s : Scope) : Prop :=
  ∀ x, s.chain x = (entries s.levels).filter (·.decl.name == x)

theorem tidy_opened (h : s.Tidy) : s.opened.Tidy := h

theorem indexed_opened (h : s.Indexed) : s.opened.Indexed := h

theorem indexed_new (options : Options) : (new options).Indexed := by
  intro x
  unfold new chain
  cases options.global <;> simp [entries]

theorem Tidy.mem_of_find (h : s.Tidy) (hf : s.find? x = some d) : d ∈ s.levels.flatten := by
  obtain ⟨e, he, rfl⟩ := Option.map_eq_some_iff.1 hf
  have hm : e.decl ∈ (s.chain x).map Entry.decl :=
    List.mem_map_of_mem (List.mem_of_mem_head? he)
  rw [h x, List.mem_filter, List.mem_flatMap] at hm
  obtain ⟨⟨ds, hds, hd⟩, -⟩ := hm
  exact List.mem_flatten.2 ⟨ds, hds, List.mem_reverse.1 hd⟩

/-! ## Declaring -/

/-- A declaration that succeeds is added to the innermost scope. -/
theorem declare_eq_ok (h : s.declare d = .ok t) :
    ∃ ds outer, s.levels = ds :: outer ∧ t.levels = (ds ++ [d]) :: outer ∧
      t.options = s.options ∧ t.names = s.names.insert d.name (⟨d, s.depth⟩ :: s.chain d.name) := by
  unfold declare at h
  split at h
  · cases h
  · rename_i hc
    cases hl : s.levels with
    | nil => simp [conflict?, depth, hl] at hc
    | cons ds outer =>
      obtain rfl := Except.ok.inj h
      exact ⟨ds, outer, rfl, by simp [hl], rfl, rfl⟩

/-- The chains after a declaration. -/
theorem chain_of_declare (h : s.declare d = .ok t) (x : String) :
    t.chain x = if d.name = x then ⟨d, s.depth⟩ :: s.chain x else s.chain x := by
  obtain ⟨-, -, -, -, -, hn⟩ := declare_eq_ok h
  unfold chain
  rw [hn, Std.TreeMap.getD_insert]
  by_cases he : d.name = x
  · subst he
    simp [chain]
  · simp [he]

theorem Tidy.declare (hs : s.Tidy) (h : s.declare d = .ok t) : t.Tidy := by
  obtain ⟨ds, outer, hl, hl', -⟩ := declare_eq_ok h
  intro x
  have hx := hs x
  rw [hl, List.flatMap_cons] at hx
  rw [hl', List.flatMap_cons, List.reverse_append, List.reverse_singleton, List.singleton_append,
    List.cons_append, List.filter_cons, ← hx, chain_of_declare h]
  by_cases he : d.name = x <;> simp [he]

theorem Indexed.declare (hs : s.Indexed) (h : s.declare d = .ok t) : t.Indexed := by
  obtain ⟨ds, outer, hl, hl', -⟩ := declare_eq_ok h
  intro x
  have hx := hs x
  rw [hl, entries] at hx
  rw [hl', entries, List.reverse_append, List.reverse_singleton, List.singleton_append,
    List.map_cons, List.cons_append, List.filter_cons, ← hx, chain_of_declare h, depth, hl]
  by_cases he : d.name = x <;> simp [he]

/-! ## Closing -/

theorem getD_forget (names : Std.TreeMap String (List Entry)) (y : String) :
    (forget names y).getD x [] =
      if y = x then (names.getD x []).tail else names.getD x [] := by
  unfold forget
  by_cases h : y = x
  · subst h
    split
    · rename_i he
      simp [he]
    · rename_i he
      simp [he]
    · rename_i he
      simp [he]
  · split
    · simp [h]
    · simp [h, Std.TreeMap.getD_erase]
    · simp [h, Std.TreeMap.getD_insert]

/-- To forget the latest items one after the other leaves those before them. An item is what is of
interest in an entry, and `name` its name. -/
theorem getD_forgetAll {α : Type} (item : Entry → α) (name : α → String) {latest rest : List α}
    {names : Std.TreeMap String (List Entry)}
    (h : ∀ x, (names.getD x []).map item = (latest ++ rest).filter (name · == x)) (x : String) :
    (((latest.map name).foldl forget names).getD x []).map item = rest.filter (name · == x) := by
  induction latest generalizing names with
  | nil => exact h x
  | cons a latest ih =>
    refine ih fun y => ?_
    have hy := h y
    rw [getD_forget]
    by_cases he : name a = y
    · subst he
      simp only [List.cons_append, List.filter_cons, beq_self_eq_true, if_true] at hy
      rw [if_pos rfl, List.map_tail, hy]
      rfl
    · rw [if_neg he, hy]
      simp [he]

/-- A scope that is closed is the innermost one. -/
theorem close_eq_ok (h : s.close = .ok (ds, t)) :
    ∃ outer, s.levels = ds :: outer ∧ t.levels = outer ∧ t.options = s.options ∧
      t.names = (ds.reverse.map Declaration.name).foldl forget s.names := by
  unfold close at h
  rw [List.foldl_map]
  split at h
  · cases h
  · rename_i hl
    split at h
    · cases h
    · cases h
      exact ⟨[], hl, rfl, rfl, rfl⟩
  · rename_i hl
    cases h
    exact ⟨_, hl, rfl, rfl, rfl⟩

theorem Tidy.close (hs : s.Tidy) (h : s.close = .ok (ds, t)) : t.Tidy := by
  obtain ⟨outer, hl, rfl, -, hn⟩ := close_eq_ok h
  intro x
  unfold chain
  rw [hn]
  refine getD_forgetAll Entry.decl Declaration.name (fun y => ?_) x
  have hy := hs y
  rwa [hl, List.flatMap_cons] at hy

theorem Indexed.close (hs : s.Indexed) (h : s.close = .ok (ds, t)) : t.Indexed := by
  obtain ⟨outer, hl, rfl, -, hn⟩ := close_eq_ok h
  intro x
  have hnames : ds.reverse.map Declaration.name =
      (ds.reverse.map (Entry.mk · (t.levels.length + 1))).map (·.decl.name) := by
    rw [List.map_map]
    rfl
  have hlisted : ∀ y, (s.names.getD y []).map id =
      (ds.reverse.map (Entry.mk · (t.levels.length + 1)) ++ entries t.levels).filter
        (·.decl.name == y) := by
    intro y
    have hy := hs y
    rw [hl, entries] at hy
    rw [List.map_id]
    exact hy
  have hleft := getD_forgetAll id (·.decl.name) hlisted x
  rwa [List.map_id, ← hnames, ← hn] at hleft

/-- A scope inside another one, or one that is not global, can be closed. -/
theorem close_of_levels {outer : List (List Declaration)} (hl : s.levels = ds :: outer)
    (hg : s.options.global = true → outer ≠ []) : ∃ t, s.close = .ok (ds, t) := by
  unfold close
  rw [hl]
  cases outer with
  | nil =>
    have : s.options.global = false := by
      cases hgl : s.options.global with
      | false => rfl
      | true => exact (hg hgl rfl).elim
    exact ⟨_, by simp only [this]; rfl⟩
  | cons => exact ⟨_, rfl⟩

end Steppable.Scope
