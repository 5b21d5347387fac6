import Steppable.Proofs.Scope.Chains

/-!
# Scopes are nested lists of declarations

Look-ups go through chains of names, and the chains are what can go wrong: an entry that is left
behind when its scope is closed, or dropped twice, shows only when a name comes to light again much
later. `Nested` has no chains. It keeps the declarations of each open scope and searches them.

**Theorem (`scopes_nested`).** Under all options, scopes answer every sequence of requests as
`Nested` does. From this it follows when a declaration is refused, that closing a scope gives back
all that names referred to before it was opened, and that the global scope stays open.

- **One request.** The chains of every name are those of the open levels (`Indexed`), so the first
  entry of a chain is what the search finds (`find?_nested`), and it has the depth of the innermost
  scope exactly if that scope declares the name (`conflict?_nested`).
- **Many requests.** One request preserves this (`Sound.serve`), so all do (`replies_nested`).
-/

namespace Steppable

/-- Scopes without chains: the declarations of every open scope in order, the innermost scope
first. -/
structure Nested where
  options : Scope.Options
  levels : List (List Declaration)

namespace Scope

/-! ## Requests -/

/-- What can be asked of scopes. -/
inductive Request where
  | openScope
  | declare (d : Declaration)
  | find (name : String)
  | close
  | closeTo (depth : Nat)

inductive Reply where
  | done
  | refused (c : Conflict)
  | found (d : Option Declaration)
  | closed (ds : List Declaration)
  | kept (e : CloseError)

/-- Whether the request has failed. -/
def Reply.isFailure : Reply → Bool
  | refused _ | kept _ => true
  | _ => false

/-- The replies to requests that are made one after the other, and the state after them. -/
def replies {σ : Type} (serve : σ → Request → Reply × σ) : σ → List Request → List Reply × σ
  | s, [] => ([], s)
  | s, r :: rs =>
    let (a, s) := serve s r
    let (as, s) := replies serve s rs
    (a :: as, s)

theorem replies_cons {σ : Type} (serve : σ → Request → Reply × σ) (s : σ) (r : Request)
    (rs : List Request) : replies serve s (r :: rs) =
      ((serve s r).1 :: (replies serve (serve s r).2 rs).1, (replies serve (serve s r).2 rs).2) :=
  rfl

def serve (s : Scope) : Request → Reply × Scope
  | .openScope => (.done, s.opened)
  | .declare d =>
    match s.declare d with
    | .ok s => (.done, s)
    | .error c => (.refused c, s)
  | .find x => (.found (s.find? x), s)
  | .close =>
    match s.close with
    | .ok (ds, s) => (.closed ds, s)
    | .error e => (.kept e, s)
  | .closeTo k => (.done, s.closeTo k)

/-- The scopes after some requests. -/
def after (s : Scope) (rs : List Request) : Scope :=
  (replies serve s rs).2

/-- The scopes without their chains. -/
def nested (s : Scope) : Nested :=
  ⟨s.options, s.levels⟩

end Scope

namespace Nested

open Scope

def new (options : Options) : Nested :=
  ⟨options, if options.global then [[]] else []⟩

/-- The last declaration of the name in the innermost scope that has one. -/
def find? (s : Nested) (x : String) : Option Declaration :=
  s.levels.findSome? fun ds => (ds.filter (·.name == x)).getLast?

/-- Whether the innermost scope declares the name. -/
def declares (s : Nested) (x : String) : Bool :=
  (s.levels.headD []).any (·.name == x)

/-- Why the name cannot be declared, if it cannot. -/
def conflict? (s : Nested) (x : String) : Option Conflict :=
  if s.levels.isEmpty then some .noScope
  else
    match s.find? x with
    | none => none
    | some d =>
      if !s.options.masking then some (.masks d.place)
      else if s.declares x && !s.options.redefinition then some (.repeats d.place)
      else none

/-- The levels with one more declaration in the innermost scope. -/
def add (d : Declaration) : List (List Declaration) → List (List Declaration)
  | [] => []
  | ds :: outer => (ds ++ [d]) :: outer

def serve (s : Nested) : Request → Reply × Nested
  | .openScope => (.done, { s with levels := [] :: s.levels })
  | .declare d =>
    match s.conflict? d.name with
    | some c => (.refused c, s)
    | none => (.done, { s with levels := add d s.levels })
  | .find x => (.found (s.find? x), s)
  | .close =>
    match s.levels with
    | [] => (.kept .noOpenScope, s)
    | ds :: outer =>
      if s.options.global && outer.isEmpty then (.kept .globalScope, s)
      else (.closed ds, { s with levels := outer })
  | .closeTo k =>
    -- The global scope is left in any case.
    let left := max k s.options.global.toNat
    (.done, { s with levels := s.levels.drop (s.levels.length - left) })

/-- A request opens a level, adds to the innermost one or closes some. -/
theorem serve_levels (n : Nested) (r : Request) :
    (n.serve r).2.options = n.options ∧
      ((n.serve r).2.levels = [] :: n.levels ∨ (∃ d, (n.serve r).2.levels = add d n.levels) ∨
        ∃ j, (n.serve r).2.levels = n.levels.drop j) := by
  cases r with
  | openScope => exact ⟨rfl, .inl rfl⟩
  | find x => exact ⟨rfl, .inr (.inr ⟨0, rfl⟩)⟩
  | closeTo k => exact ⟨rfl, .inr (.inr ⟨_, rfl⟩)⟩
  | declare d =>
    rw [serve]
    split
    · exact ⟨rfl, .inr (.inr ⟨0, rfl⟩)⟩
    · exact ⟨rfl, .inr (.inl ⟨d, rfl⟩)⟩
  | close =>
    rw [serve]
    split
    · exact ⟨rfl, .inr (.inr ⟨0, rfl⟩)⟩
    · rename_i ds outer hl
      split
      · exact ⟨rfl, .inr (.inr ⟨0, rfl⟩)⟩
      · exact ⟨rfl, .inr (.inr ⟨1, by rw [hl]; rfl⟩)⟩

end Nested

namespace Scope

variable {s t : Scope} {d : Declaration} {ds : List Declaration} {x : String} {r : Request}
  {levels outer : List (List Declaration)} {e : Entry}

/-! ## Looking names up -/

theorem depth_le_of_mem_entries (h : e ∈ entries levels) : e.depth ≤ levels.length := by
  induction levels with
  | nil => simp [entries] at h
  | cons ds outer ih =>
    rcases List.mem_append.1 h with h | h
    · obtain ⟨d, -, rfl⟩ := List.mem_map.1 h
      exact Nat.le_refl _
    · exact Nat.le_succ_of_le (ih h)

/-- The first entry of a name is in the innermost scope, if that declares the name, and else it is
the first one outside. -/
theorem find?_entries_cons (ds : List Declaration) (outer : List (List Declaration)) (x : String) :
    (entries (ds :: outer)).find? (·.decl.name == x) =
      match (ds.filter (·.name == x)).getLast? with
      | some d => some ⟨d, outer.length + 1⟩
      | none => (entries outer).find? (·.decl.name == x) := by
  have hinner : (ds.reverse.map (Entry.mk · (outer.length + 1))).find? (·.decl.name == x) =
      (ds.filter (·.name == x)).getLast?.map (Entry.mk · (outer.length + 1)) := by
    rw [List.find?_map, ← List.head?_filter, List.filter_reverse, List.head?_reverse]
    rfl
  rw [entries, List.find?_append, hinner]
  cases (ds.filter (·.name == x)).getLast? <;> rfl

theorem decl_find?_entries (options : Options) (levels : List (List Declaration)) (x : String) :
    ((entries levels).find? (·.decl.name == x)).map Entry.decl =
      (Nested.mk options levels).find? x := by
  induction levels with
  | nil => rfl
  | cons ds outer ih =>
    rw [find?_entries_cons, Nested.find?, List.findSome?_cons]
    cases (ds.filter (·.name == x)).getLast? with
    | some d => rfl
    | none => exact ih

theorem Indexed.head?_chain (h : s.Indexed) (x : String) :
    (s.chain x).head? = (entries s.levels).find? (·.decl.name == x) := by
  rw [h x, List.head?_filter]

/-- **What a chain begins with is what a search finds.** -/
theorem find?_nested (h : s.Indexed) (x : String) : s.find? x = s.nested.find? x := by
  rw [find?, h.head?_chain]
  exact decl_find?_entries s.options s.levels x

theorem declares_iff : s.nested.declares x = true ↔ ∃ e ∈ s.levels.headD [], e.name = x := by
  simp [Nested.declares, nested]

theorem isSome_of_declares (h : s.nested.declares x = true) :
    (s.nested.find? x).isSome = true := by
  obtain ⟨d, hd, hx⟩ := declares_iff.1 h
  cases hl : s.levels with
  | nil => simp [hl] at hd
  | cons ds outer =>
    rw [hl] at hd
    simp only [Nested.find?, nested, hl, List.findSome?_isSome_iff, List.getLast?_isSome]
    exact ⟨ds, List.mem_cons_self, List.ne_nil_of_mem (List.mem_filter.2 ⟨hd, by simpa using hx⟩)⟩

/-- The first entry of a name has the depth of the innermost scope exactly if that scope declares the
name. -/
theorem depth_eq_iff (hl : s.levels = ds :: outer)
    (he : (entries s.levels).find? (·.decl.name == x) = some e) :
    e.depth = s.depth ↔ s.nested.declares x = true := by
  rw [hl, find?_entries_cons] at he
  rw [depth, hl, List.length_cons, Nested.declares, nested, hl, List.headD_cons]
  cases hf : (ds.filter (·.name == x)).getLast? with
  | some d =>
    obtain rfl := Option.some.inj (hf ▸ he)
    have hd := List.mem_filter.1 (List.mem_of_getLast? hf)
    exact iff_of_true rfl (List.any_eq_true.2 ⟨d, hd.1, hd.2⟩)
  | none =>
    rw [hf] at he
    have hle := depth_le_of_mem_entries (List.mem_of_find?_eq_some he)
    refine iff_of_false (by omega) fun hany => ?_
    obtain ⟨d, hd, hx⟩ := List.any_eq_true.1 hany
    have hmem : d ∈ ds.filter (·.name == x) := List.mem_filter.2 ⟨hd, hx⟩
    rw [List.getLast?_eq_none_iff.1 hf] at hmem
    simp at hmem

/-- **What is refused does not depend on the chains.** -/
theorem conflict?_nested (h : s.Indexed) (x : String) : s.conflict? x = s.nested.conflict? x := by
  have hfind := find?_nested h x
  rw [find?] at hfind
  unfold conflict? Nested.conflict?
  rw [← hfind]
  cases hl : s.levels with
  | nil => simp [depth, nested, hl]
  | cons ds outer =>
    rw [if_neg (by simp [depth, hl]), if_neg (by simp [nested, hl])]
    have hhead := h.head?_chain x
    cases hc : s.chain x with
    | nil => rfl
    | cons e rest =>
      rw [hc, List.head?_cons] at hhead
      have hdepth : decide (e.depth = s.depth) = s.nested.declares x := by
        rw [Bool.eq_iff_iff, decide_eq_true_iff]
        exact depth_eq_iff hl hhead.symm
      simp only [List.head?_cons, Option.map_some, hdepth]
      rfl

/-! ## One request -/

/-- The chains are right, and the global scope is open. -/
structure Sound (s : Scope) : Prop where
  indexed : s.Indexed
  opened : s.options.global = true → s.levels ≠ []

theorem Sound.opened_sound (h : s.Sound) : s.opened.Sound :=
  ⟨indexed_opened h.indexed, fun _ => List.cons_ne_nil _ _⟩

theorem sound_new (options : Options) : (new options).Sound :=
  ⟨indexed_new options, fun h => by simp_all [new]⟩

/-- The state `t` belongs to the state `n`, which has no chains. -/
def Matches (t : Scope) (n : Nested) : Prop :=
  t.Sound ∧ t.nested = n

theorem Sound.matches_declare (hs : s.Sound) (h : s.declare d = .ok t) :
    Matches t ⟨s.options, Nested.add d s.levels⟩ := by
  obtain ⟨ds, outer, hl, hl', ho, -⟩ := declare_eq_ok h
  refine ⟨⟨hs.indexed.declare h, fun _ => by simp [hl']⟩, ?_⟩
  rw [nested, ho, hl', hl]
  rfl

theorem Sound.matches_close (hs : s.Sound) (h : s.close = .ok (ds, t)) :
    Matches t ⟨s.options, t.levels⟩ ∧ s.levels = ds :: t.levels ∧
      (s.options.global = true → t.levels ≠ []) := by
  obtain ⟨outer, hl, rfl, ho, -⟩ := close_eq_ok h
  have hopened : s.options.global = true → t.levels ≠ [] := by
    intro hg he
    rw [he] at hl
    simp [close, hl, hg] at h
  exact ⟨⟨⟨hs.indexed.close h, ho ▸ hopened⟩, by rw [nested, ho]⟩, hl, hopened⟩

/-- A scope that cannot be closed is the global one, if any is open. -/
theorem levels_of_close_error {e : CloseError} (h : s.close = .error e) :
    s.levels = [] ∧ e = .noOpenScope ∨
      ∃ ds, s.levels = [ds] ∧ s.options.global = true ∧ e = .globalScope := by
  unfold close at h
  split at h
  · exact .inl ⟨‹_›, (Except.error.inj h).symm⟩
  · rename_i ds hl
    split at h
    · exact .inr ⟨ds, hl, ‹_›, (Except.error.inj h).symm⟩
    · cases h
  · cases h

/-- Scopes are closed from the inside, but not the global one. -/
theorem Sound.matches_closeDown (hs : s.Sound) (k fuel : Nat) :
    Matches (closeDown k fuel s)
      ⟨s.options, s.levels.drop (min fuel (s.depth - max k s.options.global.toNat))⟩ := by
  induction fuel generalizing s with
  | zero => exact ⟨hs, by simp [closeDown, nested]⟩
  | succ fuel ih =>
    have hstay : s.depth - max k s.options.global.toNat = 0 → Matches s ⟨s.options,
        s.levels.drop (min (fuel + 1) (s.depth - max k s.options.global.toNat))⟩ := by
      intro hz
      rw [hz]
      exact ⟨hs, rfl⟩
    rw [closeDown]
    split
    · exact hstay (by omega)
    · rename_i hk
      split
      · rename_i ds t hc
        obtain ⟨ht, hl, hopened⟩ := hs.matches_close hc
        have ho : t.options = s.options := congrArg Nested.options ht.2
        have hlen : s.depth = t.depth + 1 := by rw [depth, hl]; rfl
        -- The global scope is among those that are left.
        have hle : s.options.global.toNat ≤ t.depth := by
          cases hg : s.options.global with
          | false => exact Nat.zero_le _
          | true => exact List.length_pos_iff.2 (hopened hg)
        have hm := ih ht.1
        rw [ho] at hm
        rw [show min (fuel + 1) (s.depth - max k s.options.global.toNat) =
          min fuel (t.depth - max k s.options.global.toNat) + 1 by omega, hl, List.drop_succ_cons]
        exact hm
      · rename_i e hc
        refine hstay ?_
        rcases levels_of_close_error hc with ⟨hl, -⟩ | ⟨ds, hl, hg, -⟩
        · simp [depth, hl]
        · rw [depth, hl, hg]
          exact Nat.sub_eq_zero_of_le (Nat.le_max_right k 1)

/-- **One request is answered as without chains**, and leaves the same levels. -/
theorem Sound.serve (hs : s.Sound) (r : Request) :
    (s.serve r).1 = (s.nested.serve r).1 ∧ Matches (s.serve r).2 (s.nested.serve r).2 := by
  cases r with
  | openScope => exact ⟨rfl, hs.opened_sound, rfl⟩
  | find x => exact ⟨congrArg Reply.found (find?_nested hs.indexed x), hs, rfl⟩
  | declare d =>
    rw [Scope.serve, Nested.serve, ← conflict?_nested hs.indexed d.name]
    cases hc : s.conflict? d.name with
    | some c =>
      rw [show s.declare d = .error c by rw [Scope.declare, hc]]
      exact ⟨rfl, hs, rfl⟩
    | none =>
      obtain ⟨t, hd⟩ : ∃ t, s.declare d = .ok t := by
        rw [Scope.declare, hc]
        exact ⟨_, rfl⟩
      rw [hd]
      exact ⟨rfl, hs.matches_declare hd⟩
  | close =>
    rw [Scope.serve, Nested.serve]
    cases hc : s.close with
    | error e =>
      rcases levels_of_close_error hc with ⟨hl, rfl⟩ | ⟨ds, hl, hg, rfl⟩
      · simp only [nested, hl]
        exact ⟨trivial, hs, by rw [nested, hl]⟩
      · simp only [nested, hl, hg, List.isEmpty_nil, Bool.and_self, if_true]
        exact ⟨trivial, hs, by rw [nested, hl]⟩
    | ok r =>
      obtain ⟨ds, t⟩ := r
      obtain ⟨ht, hl, hopened⟩ := hs.matches_close hc
      have hne : (s.options.global && t.levels.isEmpty) = false := by
        cases hg : s.options.global with
        | false => rfl
        | true => simpa using hopened hg
      simp only [nested, hl, hne]
      exact ⟨rfl, ht⟩
  | closeTo k =>
    refine ⟨rfl, ?_⟩
    have h := hs.matches_closeDown k s.depth
    rwa [Nat.min_eq_right (Nat.sub_le _ _)] at h

/-! ## Many requests -/

@[simp]
theorem after_nil (s : Scope) : s.after [] = s := rfl

@[simp]
theorem after_cons (s : Scope) (r : Request) (rs : List Request) :
    s.after (r :: rs) = (s.serve r).2.after rs := rfl

theorem after_append (s : Scope) (rs rs' : List Request) :
    s.after (rs ++ rs') = (s.after rs).after rs' := by
  induction rs generalizing s with
  | nil => rfl
  | cons r rs ih => exact ih (s.serve r).2

/-- **All requests are answered as without chains.** -/
theorem Sound.replies_nested (hs : s.Sound) (rs : List Request) :
    (replies Scope.serve s rs).1 = (replies Nested.serve s.nested rs).1 ∧
      Matches (s.after rs) (replies Nested.serve s.nested rs).2 := by
  induction rs generalizing s with
  | nil => exact ⟨rfl, hs, rfl⟩
  | cons r rs ih =>
    obtain ⟨hr, hs', hn⟩ := hs.serve r
    have h := ih hs'
    rw [hn] at h
    exact ⟨by rw [replies_cons, replies_cons, hr, h.1], h.2⟩

theorem Sound.after (hs : s.Sound) (rs : List Request) : (s.after rs).Sound :=
  (hs.replies_nested rs).2.1

theorem Sound.levels_serve (hs : s.Sound) (r : Request) :
    (s.serve r).2.options = s.options ∧
      ((s.serve r).2.levels = [] :: s.levels ∨ (∃ d, (s.serve r).2.levels = Nested.add d s.levels) ∨
        ∃ j, (s.serve r).2.levels = s.levels.drop j) := by
  obtain ⟨-, hn⟩ := (hs.serve r).2
  have h := s.nested.serve_levels r
  rwa [← hn] at h

theorem Sound.options_after (hs : s.Sound) (rs : List Request) :
    (s.after rs).options = s.options := by
  induction rs generalizing s with
  | nil => rfl
  | cons r rs ih => exact (ih (hs.serve r).2.1).trans (hs.levels_serve r).1

/-- As long as no request closes a level of `base`, these levels stay as they are. -/
theorem Sound.levels_inside {inner base : List (List Declaration)} (hs : s.Sound)
    (hl : s.levels = inner ++ base) (hi : inner ≠ []) {rs : List Request}
    (hd : ∀ rs', rs' <+: rs → base.length < (s.after rs').depth) :
    ∃ inner', inner' ≠ [] ∧ (s.after rs).levels = inner' ++ base := by
  induction rs generalizing s inner with
  | nil => exact ⟨inner, hi, hl⟩
  | cons r rs ih =>
    have hstep : ∃ inner', inner' ≠ [] ∧ (s.serve r).2.levels = inner' ++ base := by
      rcases (hs.levels_serve r).2 with h | ⟨d, h⟩ | ⟨j, h⟩
      · exact ⟨[] :: inner, by simp, by rw [h, hl]; rfl⟩
      · obtain ⟨ds, inner, rfl⟩ := List.exists_cons_of_ne_nil hi
        exact ⟨(ds ++ [d]) :: inner, by simp, by rw [h, hl]; rfl⟩
      · have hlen : base.length < (s.serve r).2.depth := hd [r] (by simp)
        rw [depth, h, hl, List.length_drop, List.length_append] at hlen
        refine ⟨inner.drop j, ?_, by rw [h, hl, List.drop_append_of_le_length (by omega)]⟩
        rw [← List.length_pos_iff, List.length_drop]
        omega
    obtain ⟨inner', hi', hl'⟩ := hstep
    exact ih (hs.serve r).2.1 hl' hi' fun rs' h => hd (r :: rs') (by simpa using h)

/-- **To close a scope gives back what names referred to before it was opened.** -/
theorem Sound.restored (hs : s.Sound) {inside : List Request}
    (hd : ∀ rs, rs <+: inside → s.depth < (s.opened.after rs).depth)
    (he : (s.opened.after inside).depth = s.depth + 1) :
    ∃ ds t, (s.opened.after inside).close = .ok (ds, t) ∧ t.levels = s.levels ∧
      ∀ x, t.find? x = s.find? x := by
  have ho := hs.opened_sound
  have hopened : s.opened.levels = [[]] ++ s.levels := rfl
  obtain ⟨inner, hi, hl⟩ := ho.levels_inside hopened (by simp) hd
  obtain ⟨ds, rfl⟩ : ∃ ds, inner = [ds] := by
    rw [depth, hl, List.length_append] at he
    exact List.length_eq_one_iff.1 (Nat.add_right_cancel (he.trans (Nat.add_comm _ 1)))
  have hoptions : (s.opened.after inside).options = s.options := ho.options_after inside
  obtain ⟨t, ht⟩ := close_of_levels hl fun hg => hs.opened (hoptions ▸ hg)
  obtain ⟨⟨hst, hn⟩, hl', -⟩ := (ho.after inside).matches_close ht
  have hlevels : t.levels = s.levels := (List.cons.inj (hl'.symm.trans hl)).2
  refine ⟨ds, t, ht, hlevels, fun x => ?_⟩
  rw [find?_nested hst.indexed, find?_nested hs.indexed, hn, hlevels, hoptions]
  rfl

/-- Global declarations stay, and new ones come after them. -/
theorem Sound.globals_serve (hs : s.Sound) (r : Request) : s.globals <+: (s.serve r).2.globals := by
  obtain ⟨ho, hl⟩ := hs.levels_serve r
  have hopened := (hs.serve r).2.1.opened
  generalize (s.serve r).2 = t at ho hl hopened
  rw [globals, globals, ho]
  split
  · rename_i hg
    obtain ⟨base, g, hg'⟩ := (List.eq_nil_or_concat s.levels).resolve_left (hs.opened hg)
    rw [List.concat_eq_append] at hg'
    have hlast (inner : List (List Declaration)) : (inner ++ [g]).getLastD [] = g := by simp
    rw [hg', hlast]
    rcases hl with h | ⟨d, h⟩ | ⟨j, h⟩
    · have hsame : t.levels.getLastD [] = g := by rw [h, hg', ← List.cons_append, hlast]
      exact hsame ▸ List.prefix_rfl
    · cases base with
      | nil =>
        rw [h, hg']
        exact List.prefix_append g [d]
      | cons ds base =>
        have hsame : t.levels.getLastD [] = g := by
          rw [h, hg', List.cons_append, Nested.add, ← List.cons_append, hlast]
        exact hsame ▸ List.prefix_rfl
    · have hj : j ≤ base.length := by
        have hpos := List.length_pos_iff.2 (hopened (ho ▸ hg))
        rw [h, List.length_drop, hg', List.length_append, List.length_singleton] at hpos
        omega
      have hsame : t.levels.getLastD [] = g := by
        rw [h, hg', List.drop_append_of_le_length hj, hlast]
      exact hsame ▸ List.prefix_rfl
  · exact List.prefix_rfl

theorem Sound.globals_after (hs : s.Sound) (rs : List Request) :
    s.globals <+: (s.after rs).globals := by
  induction rs generalizing s with
  | nil => exact List.prefix_rfl
  | cons r rs ih => exact (hs.globals_serve r).trans (ih (hs.serve r).2.1)

/-! ## What scopes do -/

/-- How the scopes act on what comes next. -/
structure ActsAsNested (s : Scope) : Prop where
  /-- A name refers to the last declaration of it in the innermost scope that has one. -/
  finds : ∀ x, s.find? x = s.levels.findSome? fun ds => (ds.filter (·.name == x)).getLast?
  /-- A declaration is refused if no scope is open, if it would hide another one and must not, or if
  it would repeat one of its own scope and must not. -/
  refused : ∀ d, (∃ c, s.declare d = .error c) ↔
    s.depth = 0 ∨ (s.find? d.name).isSome = true ∧ s.options.masking = false ∨
      (∃ e ∈ s.levels.headD [], e.name = d.name) ∧ s.options.redefinition = false
  /-- What fails changes nothing. -/
  unchanged : ∀ r, (s.serve r).1.isFailure = true → (s.serve r).2 = s
  /-- A scope that is closed gives its declarations in order. -/
  closed : ∀ ds t, s.close = .ok (ds, t) → s.levels = ds :: t.levels
  /-- When a scope that was opened is closed, names refer to what they referred to before. -/
  restored : ∀ inside, (∀ rs, rs <+: inside → s.depth < (s.opened.after rs).depth) →
    (s.opened.after inside).depth = s.depth + 1 →
    ∃ ds t, (s.opened.after inside).close = .ok (ds, t) ∧ t.levels = s.levels ∧
      ∀ x, t.find? x = s.find? x
  /-- The global scope is not closed, and its declarations stay. -/
  global : s.options.global = true → 0 < s.depth ∧ (s.depth = 1 → s.close = .error .globalScope) ∧
    ∀ rs, s.globals <+: (s.after rs).globals

theorem Sound.refused_iff (hs : s.Sound) (d : Declaration) : (∃ c, s.declare d = .error c) ↔
    s.depth = 0 ∨ (s.find? d.name).isSome = true ∧ s.options.masking = false ∨
      (∃ e ∈ s.levels.headD [], e.name = d.name) ∧ s.options.redefinition = false := by
  have hc : (∃ c, s.declare d = .error c) ↔ s.nested.conflict? d.name ≠ none := by
    rw [declare, ← conflict?_nested hs.indexed]
    cases s.conflict? d.name <;> simp
  have hempty : s.levels.isEmpty = true ↔ s.depth = 0 := by
    rw [List.isEmpty_iff, depth, List.length_eq_zero_iff]
  rw [hc, ← declares_iff, find?_nested hs.indexed, ← hempty, Nested.conflict?]
  have hvisible : s.nested.declares d.name = true → _ := isSome_of_declares
  cases he : s.levels.isEmpty with
  | true => simp [nested, he]
  | false =>
    cases hf : s.nested.find? d.name with
    | none =>
      rw [hf] at hvisible
      simp_all [nested]
    | some e =>
      cases hm : s.options.masking <;> cases hd : s.nested.declares d.name <;>
        simp_all [nested]

theorem Sound.serve_of_isFailure {r : Request} (h : (s.serve r).1.isFailure = true) :
    (s.serve r).2 = s := by
  cases r with
  | openScope | find | closeTo => cases h
  | declare d =>
    rw [Scope.serve] at h ⊢
    cases hd : s.declare d with
    | error c => rfl
    | ok t =>
      rw [hd] at h
      cases h
  | close =>
    rw [Scope.serve] at h ⊢
    cases hd : s.close with
    | error c => rfl
    | ok t =>
      rw [hd] at h
      cases h

/-- **Scopes are nested lists of declarations.** Under all options, every sequence of requests is
answered as by the lists without chains, and the scopes that are left act as such lists do. -/
theorem scopes_nested (options : Options) (rs : List Request) :
    (replies Scope.serve (new options) rs).1 = (replies Nested.serve (Nested.new options) rs).1 ∧
      ((new options).after rs).options = options ∧ ((new options).after rs).ActsAsNested := by
  have hnew := sound_new options
  have hs := hnew.after rs
  refine ⟨(hnew.replies_nested rs).1, hnew.options_after rs, ?_⟩
  exact {
    finds := find?_nested hs.indexed
    refused := hs.refused_iff
    unchanged _ := Sound.serve_of_isFailure
    closed _ _ h := (hs.matches_close h).2.1
    restored _ := hs.restored
    global hg := by
      have hlen := List.length_pos_iff.2 (hs.opened hg)
      refine ⟨hlen, fun h => ?_, hs.globals_after⟩
      obtain ⟨ds, hl⟩ := List.length_eq_one_iff.1 h
      simp [close, hl, hg] }

end Scope

end Steppable
