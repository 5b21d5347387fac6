import Steppable.Proofs.Parser.Reading
import Steppable.Proofs.Scope.Chains
import Steppable.Proofs.Tree.Renumbering

/-!
# Parsers that mirror each other

What a parser makes of a source depends on little of its state: on the declarations that are visible,
on the functions that are open and on the next unused identity. `p.Alike P k p'` says that these
are the same in both parsers up to identities, which are higher by `k` in the second one. Whatever
else the two remember may differ, in particular what is known of identities below `base`, which
belong to sources that have been read before.

**Theorem (`mirroring`).** Readers keep this: if a reader comes to an end from `p`, then with as much
fuel or more it comes to an end from `p'`, with the same outcome up to identities.
-/

namespace Steppable

variable {k : Nat}

/-! ## Scopes -/

namespace Scope

variable {P P' : Nat → Prop} {s s' t : Scope} {d : Declaration} {ds : List Declaration} {x : String}

/-- The scopes have the same declarations, which are higher by `k` in `s'`, and all that are visible
satisfy `P`. -/
structure Alike (P : Nat → Prop) (k : Nat) (s s' : Scope) : Prop where
  options : s'.options = s.options
  levels : s'.levels = s.levels.map (·.map (Declaration.raised k))
  chain : ∀ x, s'.chain x = (s.chain x).map (Entry.raised k)
  visible : ∀ x, ∀ e ∈ s.chain x, P e.decl.id

namespace Alike

theorem mono (h : s.Alike P k s') (hP : ∀ i, P i → P' i) : s.Alike P' k s' :=
  ⟨h.options, h.levels, h.chain, fun x e he => hP _ (h.visible x e he)⟩

theorem depth (h : s.Alike P k s') : s'.depth = s.depth := by
  rw [Scope.depth, Scope.depth, h.levels, List.length_map]

theorem find? (h : s.Alike P k s') (x : String) :
    s'.find? x = (s.find? x).map (Declaration.raised k) := by
  rw [Scope.find?, Scope.find?, h.chain]
  cases s.chain x <;> rfl

theorem visible_find? (h : s.Alike P k s') (hf : s.find? x = some d) : P d.id := by
  obtain ⟨e, he, rfl⟩ := Option.map_eq_some_iff.1 hf
  exact h.visible x e (List.mem_of_mem_head? he)

theorem opened (h : s.Alike P k s') : s.opened.Alike P k s'.opened :=
  ⟨h.options, by rw [Scope.opened, Scope.opened, h.levels]; rfl, h.chain, h.visible⟩

theorem conflict? (h : s.Alike P k s') (x : String) : s'.conflict? x = s.conflict? x := by
  unfold Scope.conflict?
  rw [h.depth, h.chain, h.options]
  cases s.chain x <;> rfl

theorem declare_error {c : Conflict} (h : s.Alike P k s') (hd : s.declare d = .error c) :
    s'.declare (d.raised k) = .error c := by
  unfold Scope.declare at hd ⊢
  rw [show (d.raised k).name = d.name from rfl, h.conflict?]
  split at hd
  · exact hd
  · cases hd

theorem declare_ok (h : s.Alike P k s') (hd : s.declare d = .ok t) (hP : P d.id) :
    ∃ t', s'.declare (d.raised k) = .ok t' ∧ t.Alike P k t' := by
  obtain ⟨t', ht'⟩ : ∃ t', s'.declare (d.raised k) = .ok t' := by
    unfold Scope.declare at hd ⊢
    rw [show (d.raised k).name = d.name from rfl, h.conflict?]
    split at hd
    · cases hd
    · exact ⟨_, rfl⟩
  refine ⟨t', ht', ?_⟩
  obtain ⟨ds, outer, hl, hl₁, ho, -⟩ := declare_eq_ok hd
  obtain ⟨ds', outer', hl', hl₁', ho', -⟩ := declare_eq_ok ht'
  have hlevels := h.levels
  rw [hl, hl', List.map_cons] at hlevels
  obtain ⟨rfl, rfl⟩ := List.cons.inj hlevels
  refine ⟨ho'.trans (h.options.trans ho.symm), by simp [hl₁, hl₁'], fun x => ?_, fun x e he => ?_⟩
  · rw [chain_of_declare hd, chain_of_declare ht', h.chain, h.depth]
    show (if d.name = x then _ else _) = _
    split
    · rename_i hx
      subst hx
      rfl
    · rfl
  · rw [chain_of_declare hd] at he
    split at he
    · rename_i hx
      rcases List.mem_cons.1 he with rfl | he
      · exact hP
      · exact h.visible x e he
    · exact h.visible x e he

/-- To forget the latest declarations of the same names keeps the chains alike. -/
theorem chain_forget {names names' : Std.TreeMap String (List Entry)} (xs : List String)
    (h : ∀ x, names'.getD x [] = (names.getD x []).map (Entry.raised k))
    (hb : ∀ x, ∀ e ∈ names.getD x [], P e.decl.id) (x : String) :
    (xs.foldl forget names').getD x [] = ((xs.foldl forget names).getD x []).map (Entry.raised k) ∧
      ∀ e ∈ (xs.foldl forget names).getD x [], P e.decl.id := by
  induction xs generalizing names names' with
  | nil => exact ⟨h x, hb x⟩
  | cons y xs ih =>
    refine ih (fun z => ?_) fun z e he => ?_
    · rw [getD_forget, getD_forget, h]
      split
      · exact (List.map_tail).symm
      · rfl
    · rw [getD_forget] at he
      split at he
      · exact hb z e (List.mem_of_mem_tail he)
      · exact hb z e he

theorem close_error {c : CloseError} (h : s.Alike P k s') (hc : s.close = .error c) :
    s'.close = .error c := by
  unfold Scope.close at hc ⊢
  rw [h.levels, h.options]
  split at hc
  · rename_i hl
    rw [hl]
    exact hc
  · rename_i hl
    rw [hl]
    split at hc
    · rename_i hg
      simp only [List.map_cons, List.map_nil, hg, if_true]
      exact hc
    · cases hc
  · cases hc

theorem close_ok (h : s.Alike P k s') (hc : s.close = .ok (ds, t)) :
    ∃ t', s'.close = .ok (ds.map (Declaration.raised k), t') ∧ t.Alike P k t' := by
  obtain ⟨t', ht'⟩ : ∃ t', s'.close = .ok (ds.map (Declaration.raised k), t') := by
    have hclose := hc
    obtain ⟨outer, hl, -⟩ := close_eq_ok hc
    have hl' : s'.levels =
        ds.map (Declaration.raised k) :: outer.map (·.map (Declaration.raised k)) := by
      rw [h.levels, hl]
      rfl
    refine close_of_levels hl' fun hg ho => ?_
    rw [List.map_eq_nil_iff] at ho
    simp [Scope.close, hl, ho, h.options ▸ hg] at hclose
  refine ⟨t', ht', ?_⟩
  obtain ⟨outer, hl, hl₁, ho, hn⟩ := close_eq_ok hc
  obtain ⟨outer', hl', hl₁', ho', hn'⟩ := close_eq_ok ht'
  have hlevels := h.levels
  rw [hl, hl', List.map_cons] at hlevels
  have hnames : (ds.map (Declaration.raised k)).reverse.map Declaration.name =
      ds.reverse.map Declaration.name := by
    rw [← List.map_reverse, List.map_map]
    rfl
  have hchains := chain_forget (ds.reverse.map Declaration.name) h.chain h.visible
  refine ⟨ho'.trans (h.options.trans ho.symm), ?_, fun x => ?_, fun x e he => ?_⟩
  · rw [hl₁, hl₁']
    exact (List.cons.inj hlevels).2
  · unfold Scope.chain
    rw [hn, hn', hnames]
    exact (hchains x).1
  · unfold Scope.chain at he
    rw [hn] at he
    exact (hchains x).2 e he

theorem closeDown (h : s.Alike P k s') (depth fuel : Nat) :
    (Scope.closeDown depth fuel s).Alike P k (Scope.closeDown depth fuel s') := by
  induction fuel generalizing s s' with
  | zero => exact h
  | succ fuel ih =>
    rw [Scope.closeDown, Scope.closeDown, h.depth]
    split
    · exact h
    · split
      · rename_i ds t hc
        obtain ⟨t', hc', ht⟩ := h.close_ok hc
        rw [hc']
        exact ih ht
      · rename_i c hc
        rw [h.close_error hc]
        exact h

theorem closeTo (h : s.Alike P k s') (depth : Nat) :
    (s.closeTo depth).Alike P k (s'.closeTo depth) := by
  rw [Scope.closeTo, Scope.closeTo, h.depth]
  exact h.closeDown depth s.depth

end Alike

end Scope

/-! ## Parsers -/

/-- Both parsers know of the same number of functions around the declaration with the identity `i`.
-/
def Parser.Agreed (k : Nat) (nesting nesting' : Std.TreeMap Nat Nat) (i : Nat) : Prop :=
  nesting'.getD (i + k) 0 = nesting.getD i 0

theorem Parser.agreed_insert {nesting nesting' : Std.TreeMap Nat Nat} {i : Nat} (j depth : Nat)
    (h : i = j ∨ Agreed k nesting nesting' i) :
    Agreed k (nesting.insert j depth) (nesting'.insert (j + k) depth) i := by
  have hkey : compare (j + k) (i + k) = .eq ↔ compare j i = .eq := by simp
  rw [Agreed, Std.TreeMap.getD_insert, Std.TreeMap.getD_insert]
  simp only [hkey]
  rcases h with rfl | h
  · rw [if_pos (by simp), if_pos (by simp)]
  · rw [h]

/-- The parsers stand before the same text, with the same declarations and open functions up to
identities. -/
structure Parser.Alike (k : Nat) (p p' : Parser) : Prop where
  cursor : p'.cursor = p.cursor
  scope : p.scope.Alike (Agreed k p.nesting p'.nesting) k p'.scope
  functions : p'.functions = p.functions.map (·.map (Declaration.raised k))
  failed : p'.failed = p.failed
  next : p'.next = p.next + k

theorem Scope.Entry.raised_zero : Scope.Entry.raised 0 = fun e => e := rfl

theorem Parser.Alike.refl (p : Parser) : p.Alike 0 p :=
  ⟨rfl, ⟨rfl, by simp, fun x => by simp [Scope.Entry.raised_zero], fun _ _ _ => rfl⟩, by simp, rfl,
    rfl⟩

/-- Whatever the reader `x` gives, `y` gives it raised by `f` from every parser that is alike, and
the parsers are alike afterwards. -/
def Reading.Mirrors {α : Type} (k : Nat) (f : α → α) (x y : Reading α) : Prop :=
  ∀ p p', p.Alike k p' → ∀ a q, x.run p = some (a, q) →
    ∃ q', y.run p' = some (f a, q') ∧ q.Alike k q'

/-- What an attempt ends with, raised. -/
def Attempt.ending {α : Type} (k : Nat) (f : α → α) : Except Node α → Except Node α
  | .ok a => .ok (f a)
  | .error n => .error (n.raised k)

def Attempt.Mirrors {α : Type} (k : Nat) (f : α → α) (x y : Attempt α) : Prop :=
  Reading.Mirrors k (ending k f) x.run y.run

variable {α β : Type}

namespace Reading

open Steppable.Parser

variable {f : β → β} {g : α → α} {x y : Reading α} {u v : α → Reading β}

/-! ### Readers one after the other -/

theorem mirrors_pure {a b : α} (h : g a = b) : Mirrors k g (pure a) (pure b) := by
  intro p p' hp c q hc
  obtain ⟨rfl, rfl⟩ := Prod.mk.inj (Option.some.inj hc)
  exact ⟨p', congrArg (fun c => some (c, p')) h.symm, hp⟩

theorem Mirrors.bind (h : Mirrors k g x y) (hf : ∀ a, Mirrors k f (u a) (v (g a))) :
    Mirrors k f (x >>= u) (y >>= v) := by
  intro p p' hp b q hb
  rw [StateT.run_bind] at hb
  obtain ⟨⟨a, q₁⟩, hx, hu⟩ := Option.bind_eq_some_iff.1 hb
  obtain ⟨q₁', hy, hq₁⟩ := h p p' hp a q₁ hx
  obtain ⟨q', hv, hq⟩ := hf a q₁ q₁' hq₁ b q hu
  refine ⟨q', ?_, hq⟩
  rw [StateT.run_bind, hy]
  exact hv

/-- What has no identities is the same in both. -/
theorem Mirrors.same (h : Mirrors k id x y) (hf : ∀ a, Mirrors k f (u a) (v a)) :
    Mirrors k f (x >>= u) (y >>= v) :=
  h.bind hf

theorem mirrors_outOfFuel : Mirrors k g outOfFuel y := by
  intro p p' _ a q h
  simp [outOfFuel, failure, StateT.run] at h
  cases h

theorem mirrors_modifyGet {m m' : Parser → α × Parser}
    (h : ∀ p p', p.Alike k p' → (m' p').1 = g (m p).1 ∧ (m p).2.Alike k (m' p').2) :
    Mirrors k g (modifyGet m) (modifyGet m') := by
  intro p p' hp a q ha
  have ha : some (m p) = some (a, q) := ha
  obtain ⟨h₁, h₂⟩ := h p p' hp
  rw [Option.some.inj ha] at h₁ h₂
  exact ⟨(m' p').2, congrArg some (Prod.ext h₁ rfl), h₂⟩

theorem mirrors_modify {m m' : Parser → Parser}
    (h : ∀ p p', p.Alike k p' → (m p).Alike k (m' p')) :
    Mirrors k id (modify m : Reading PUnit) (modify m') :=
  mirrors_modifyGet fun p p' hp => ⟨rfl, h p p' hp⟩

theorem mirrors_set {p p' : Parser} (h : p.Alike k p') :
    Mirrors k id (set p : Reading PUnit) (set p') := by
  intro _ _ _ a q ha
  obtain ⟨rfl, rfl⟩ := Prod.mk.inj (Option.some.inj ha)
  exact ⟨p', rfl, h⟩

theorem mirrors_get {u v : Parser → Reading β}
    (h : ∀ p p', p.Alike k p' → Mirrors k f (u p) (v p')) :
    Mirrors k f (get >>= u) (get >>= v) :=
  fun p p' hp => h p p' hp p p' hp

theorem mirrors_of_get {h h' : Parser → α} (hh : ∀ p p', p.Alike k p' → h' p' = h p) :
    Mirrors k id (do return h (← get)) (do return h' (← get)) :=
  mirrors_get fun p p' hp => mirrors_pure (hh p p' hp).symm

/-! ### Tokens -/

theorem mirrors_kind : Mirrors k id kind kind :=
  mirrors_of_get fun _ _ hp => by rw [hp.cursor]

theorem mirrors_here : Mirrors k id here here :=
  mirrors_of_get fun _ _ hp => by rw [hp.cursor]

theorem mirrors_spanFrom (start : Location) : Mirrors k id (spanFrom start) (spanFrom start) :=
  mirrors_of_get fun _ _ hp => by rw [hp.cursor]

theorem mirrors_hasFailed : Mirrors k id hasFailed hasFailed :=
  mirrors_of_get fun _ _ hp => hp.failed

theorem Alike.move {p p' : Parser} (h : p.Alike k p') (c : Cursor) :
    Parser.Alike k { p with cursor := c } { p' with cursor := c } :=
  ⟨rfl, h.scope, h.functions, h.failed, h.next⟩

/-- A reader that only asks the cursor and moves it. -/
theorem mirrors_cursor (m : Cursor → α × Cursor) :
    Mirrors k id
      (modifyGet fun p => ((m p.cursor).1, { p with cursor := (m p.cursor).2 }))
      (modifyGet fun p => ((m p.cursor).1, { p with cursor := (m p.cursor).2 })) :=
  mirrors_modifyGet fun p p' hp => by
    rw [hp.cursor]
    exact ⟨rfl, Alike.move hp _⟩

theorem mirrors_forward : Mirrors k id forward forward :=
  mirrors_cursor fun c => (PUnit.unit, c.forward)

theorem mirrors_accept (c : Token.Kind) : Mirrors k id (accept c) (accept c) :=
  mirrors_cursor (·.accept c)

theorem mirrors_acceptName (s : String) : Mirrors k id (acceptName s) (acceptName s) :=
  mirrors_cursor (·.acceptName s)

theorem mirrors_takeName : Mirrors k id takeName takeName :=
  mirrors_cursor (·.takeText .identifier)

/-! ### Nodes -/

theorem Alike.tick {p p' : Parser} (h : p.Alike k p') :
    Parser.Alike k { p with next := p.next + 1 } { p' with next := p'.next + 1 } :=
  ⟨h.cursor, h.scope, h.functions, h.failed,
    (congrArg (· + 1) h.next).trans (Nat.add_right_comm _ _ _)⟩

theorem mirrors_fresh : Mirrors k (· + k) fresh fresh :=
  mirrors_modifyGet fun _ _ hp => And.intro hp.next (Alike.tick hp)

theorem mirrors_node {place : Location} {build build' : Tag → Node}
    (h : ∀ t, (build t).raised k = build' (t.raised k)) :
    Mirrors k (Node.raised k) (node place build) (node place build') :=
  mirrors_fresh.bind fun i => mirrors_pure (h ⟨i, place⟩)

theorem mirrors_errorAt (place : Location) (message : String) :
    Mirrors k (Node.raised k) (errorAt place message) (errorAt place message) :=
  .same (mirrors_modify fun _ _ hp => ⟨hp.cursor, hp.scope, hp.functions, rfl, hp.next⟩) fun _ =>
    mirrors_node fun _ => rfl

theorem mirrors_unexpected (expected : String) :
    Mirrors k (Node.raised k) (unexpected expected) (unexpected expected) :=
  mirrors_here.same fun _ => mirrors_kind.same fun _ => mirrors_errorAt _ _

theorem mirrors_blockOf (place : Location) (ss : List Node) (locals : List Declaration) :
    Mirrors k (Node.raised k) (blockOf place ss locals)
      (blockOf place (ss.map (Node.raised k)) (locals.map (Declaration.raised k))) := by
  have many : Mirrors k (Node.raised k) (node place (.block · ss locals))
      (node place (.block · (ss.map (Node.raised k)) (locals.map (Declaration.raised k)))) :=
    mirrors_node fun t => by rw [Node.raised, Node.allRaised_eq_map]
  match ss, locals, many with
  | [_], [], _ => exact mirrors_pure rfl
  | [], _, many | _ :: _ :: _, _, many | [_], _ :: _, many => exact many

/-! ### Scopes and functions -/

theorem mirrors_openScope : Mirrors k id openScope openScope :=
  mirrors_modify fun _ _ hp => ⟨hp.cursor, hp.scope.opened, hp.functions, hp.failed,
    hp.next⟩

theorem mirrors_closeScope :
    Mirrors k (List.map (Declaration.raised k)) closeScope closeScope := by
  refine mirrors_modifyGet fun p p' hp => ?_
  cases hc : p.scope.close with
  | ok r =>
    obtain ⟨t', hc', ht⟩ := hp.scope.close_ok hc
    rw [hc']
    exact ⟨rfl, hp.cursor, ht, hp.functions, hp.failed, hp.next⟩
  | error c =>
    rw [hp.scope.close_error hc]
    exact ⟨rfl, hp⟩

theorem mirrors_openFunction : Mirrors k id openFunction openFunction :=
  mirrors_modify fun _ _ hp => ⟨hp.cursor, hp.scope, by simp [hp.functions], hp.failed,
    hp.next⟩

theorem mirrors_closeFunction :
    Mirrors k (List.map (Declaration.raised k)) closeFunction closeFunction := by
  refine mirrors_modifyGet fun p p' hp => ⟨?_, hp.cursor, hp.scope, ?_, hp.failed, hp.next⟩
  · dsimp only
    rw [hp.functions, List.getLastD_eq_getLast?, List.getLastD_eq_getLast?, List.getLast?_map]
    cases p.functions.getLast? <;> rfl
  · dsimp only
    rw [hp.functions, List.map_dropLast]

theorem addFree_raised (d : Declaration) (free : List Declaration) :
    addFree (d.raised k) (free.map (Declaration.raised k)) =
      (addFree d free).map (Declaration.raised k) := by
  have hany : (free.map (Declaration.raised k)).any (·.id == (d.raised k).id) =
      free.any (·.id == d.id) := by
    rw [List.any_map]
    exact congrArg free.any (funext fun e => Bool.eq_iff_iff.2 (by simp [Declaration.raised]))
  unfold addFree
  rw [hany]
  split <;> simp

/-- A use of a visible declaration is noted for the same functions. -/
theorem Alike.noteUse {p p' : Parser} {d : Declaration} (h : p.Alike k p')
    (hd : Agreed k p.nesting p'.nesting d.id) :
    ∃ q q', (noteUse d).run p = some (⟨⟩, q) ∧ (noteUse (d.raised k)).run p' = some (⟨⟩, q') ∧
      q.Alike k q' := by
  have hdepth : p'.nesting.getD (d.raised k).id 0 = p.nesting.getD d.id 0 := hd
  refine ⟨_, _, rfl, rfl, h.cursor, h.scope, ?_, h.failed, h.next⟩
  dsimp only
  rw [hdepth, h.functions]
  simp only [List.map_append, List.map_take, List.map_drop, List.map_map, Function.comp_def,
    addFree_raised]

theorem mirrors_nameNode (s : String) (place : Location) :
    Mirrors k (Node.raised k) (nameNode s place) (nameNode s place) := by
  -- What is found is visible at the look-up, so the two are taken together.
  intro p p' hp n q hn
  unfold nameNode at hn ⊢
  rw [StateT.run_bind, StateT.run_get, Option.pure_def, Option.bind_eq_bind,
    Option.bind_some] at hn ⊢
  dsimp only at hn ⊢
  rw [hp.scope.find?]
  cases hf : p.scope.find? s with
  | some d =>
    obtain ⟨q₁, q₁', hrun, hrun', h₁⟩ := Alike.noteUse hp (hp.scope.visible_find? hf)
    have used : Mirrors k (Node.raised k) (node place (.var · d))
        (node place (.var · (d.raised k))) :=
      mirrors_node fun _ => rfl
    simp only [hf, StateT.run_bind, hrun] at hn
    simp only [Option.map_some, StateT.run_bind, hrun']
    exact used q₁ q₁' h₁ n q hn
  | none =>
    have unbound : Mirrors k (Node.raised k) (node place (.name · s)) (node place (.name · s)) :=
      mirrors_node fun _ => rfl
    simp only [hf] at hn
    exact unbound p p' hp n q hn

/-- What is asked unless there has been an error. -/
theorem mirrors_unlessFailed {x y : Reading Bool} (h : Mirrors k id x y) :
    Mirrors k id (do if ← hasFailed then return false else x)
      (do if ← hasFailed then return false else y) := by
  refine mirrors_hasFailed.same fun failed => ?_
  split
  · exact mirrors_pure rfl
  · exact h

end Reading

namespace Attempt

open Reading

variable {f : β → β} {g : α → α} {x y : Attempt α} {u v : α → Attempt β}

/-! ### Attempts -/

theorem mirrors_return {a b : α} (h : g a = b) : Mirrors k g (pure a) (pure b) := by
  show Reading.Mirrors k _ (pure (Except.ok a) : Reading (Except Node α)) (pure (Except.ok b))
  exact Reading.mirrors_pure (congrArg Except.ok h)

theorem mirrors_throw {n n' : Node} (h : n.raised k = n') :
    Mirrors k g (throw n : Attempt α) (throw n') := by
  show Reading.Mirrors k _ (pure (Except.error n) : Reading (Except Node α))
    (pure (Except.error n'))
  exact Reading.mirrors_pure (congrArg Except.error h)

theorem Mirrors.bind (h : Mirrors k g x y) (hf : ∀ a, Mirrors k f (u a) (v (g a))) :
    Mirrors k f (x >>= u) (y >>= v) := by
  refine Reading.Mirrors.bind h fun r => ?_
  cases r with
  | ok a => exact hf a
  | error n => exact mirrors_throw rfl

theorem Mirrors.same (h : Mirrors k id x y) (hf : ∀ a, Mirrors k f (u a) (v a)) :
    Mirrors k f (x >>= u) (y >>= v) :=
  h.bind hf

theorem mirrors_lift {x y : Reading α} (h : Reading.Mirrors k g x y) :
    Mirrors k g (liftM x : Attempt α) (liftM y) := by
  show Reading.Mirrors k _ (x >>= fun a => pure (Except.ok a) : Reading (Except Node α))
    (y >>= fun a => pure (Except.ok a))
  exact h.bind fun a => Reading.mirrors_pure rfl

theorem mirrors_state {u v : Parser → Attempt β}
    (h : ∀ p p', p.Alike k p' → Mirrors k f (u p) (v p')) :
    Mirrors k f (get >>= u) (get >>= v) :=
  fun p p' hp => h p p' hp p p' hp

theorem mirrors_fail {e e' : Reading Node} (h : Reading.Mirrors k (Node.raised k) e e') :
    Mirrors k g (fail e : Attempt α) (fail e') :=
  (mirrors_lift h).bind fun _ => mirrors_throw rfl

theorem mirrors_error (place : Location) (message : String) :
    Mirrors k g (fail (errorAt place message) : Attempt α) (fail (errorAt place message)) :=
  mirrors_fail (mirrors_errorAt place message)

theorem mirrors_unexpected (expected : String) :
    Mirrors k g (fail (unexpected expected) : Attempt α) (fail (unexpected expected)) :=
  mirrors_fail (Reading.mirrors_unexpected expected)

/-- A node made at the end of an attempt. -/
theorem mirrors_ended {start : Location} {build build' : Tag → Node}
    (h : ∀ t, (build t).raised k = build' (t.raised k)) :
    Mirrors k (Node.raised k) (do Reading.node (← spanFrom start) build)
      (do Reading.node (← spanFrom start) build') :=
  (mirrors_lift (mirrors_spanFrom start)).same fun _ => mirrors_lift (mirrors_node h)

theorem mirrors_expect (c : Token.Kind) : Mirrors k id (expect c) (expect c) := by
  refine (mirrors_lift (mirrors_accept c)).same fun found => ?_
  cases found with
  | true => exact mirrors_return rfl
  | false => exact mirrors_unexpected _

theorem mirrors_takeNameOr (what : String) :
    Mirrors k id (takeNameOr what) (takeNameOr what) := by
  refine (mirrors_lift mirrors_takeName).same fun found => ?_
  cases found with
  | some s => exact mirrors_return rfl
  | none => exact mirrors_unexpected what

theorem mirrors_valid (n : Node) : Mirrors k (Node.raised k) (valid n) (valid (n.raised k)) := by
  unfold valid
  rw [Node.isInvalid_raised]
  split
  · exact mirrors_throw rfl
  · exact mirrors_return rfl

theorem mirrors_declare (s : String) (place : Location) :
    Mirrors k (Declaration.raised k) (declare s place) (declare s place) := by
  unfold declare
  refine (mirrors_lift mirrors_fresh).bind fun i => mirrors_state fun p p' hp => ?_
  dsimp only
  cases hd : p.scope.declare ⟨i, s, place⟩ with
  | error c =>
    rw [show p'.scope.declare ⟨i + k, s, place⟩ = _ from hp.scope.declare_error hd]
    exact mirrors_error place c.message
  | ok t =>
    have hscope := hp.scope.mono fun j hj => Parser.agreed_insert i p.functions.length (.inr hj)
    obtain ⟨t', hd', ht⟩ := hscope.declare_ok hd (Parser.agreed_insert i _ (.inl rfl))
    rw [show p'.scope.declare ⟨i + k, s, place⟩ = _ from hd']
    refine (mirrors_lift (mirrors_set ?_)).same fun _ => mirrors_return rfl
    refine ⟨hp.cursor, ?_, hp.functions, hp.failed, hp.next⟩
    dsimp only
    rw [hp.functions, List.length_map]
    exact ht

theorem mirrors_outcome (h : Mirrors k g x y) :
    Mirrors k (ending k g) (outcome x) (outcome y) :=
  mirrors_lift h

theorem mirrors_orError {x y : Attempt Node} (h : Mirrors k (Node.raised k) x y) :
    Reading.Mirrors k (Node.raised k) (orError x) (orError y) := by
  refine Reading.Mirrors.bind h fun r => ?_
  cases r with
  | ok n => exact Reading.mirrors_pure rfl
  | error n => exact Reading.mirrors_pure rfl

end Attempt

namespace Parser

open Reading Attempt

/-! ## The grammar -/

/-- What a reader gives with the fuel `fuel`, it gives with the fuel `m` from a parser that is alike.
-/
structure Mirroring (k fuel m : Nat) : Prop where
  expression (power : Nat) : Reading.Mirrors k (Node.raised k)
    (expression fuel power) (expression m power)
  operations (power : Nat) (left : Node) :
    Reading.Mirrors k (Node.raised k) (operations fuel power left)
      (operations m power (left.raised k))
  operand (power : Nat) : Attempt.Mirrors k (Node.raised k)
    (operand fuel power) (operand m power)
  operation (left : Node) : Attempt.Mirrors k (Node.raised k)
    (operation fuel left) (operation m (left.raised k))
  arguments : Attempt.Mirrors k (List.map (Node.raised k))
    (arguments fuel) (arguments m)
  argumentList : Attempt.Mirrors k (List.map (Node.raised k))
    (argumentList fuel) (argumentList m)
  named (place : Location) (s : String) :
    Attempt.Mirrors k (Node.raised k) (named fuel place s) (named m place s)
  condition : Attempt.Mirrors k (Node.raised k)
    (condition fuel) (condition m)
  ifStatement (place : Location) : Attempt.Mirrors k (Node.raised k)
    (ifStatement fuel place) (ifStatement m place)
  whileStatement (place : Location) :
    Attempt.Mirrors k (Node.raised k) (whileStatement fuel place) (whileStatement m place)
  doStatement (place : Location) : Attempt.Mirrors k (Node.raised k)
    (doStatement fuel place) (doStatement m place)
  declarators : Attempt.Mirrors k (List.map (Node.raised k))
    (declarators fuel) (declarators m)
  function (place : Location) : Attempt.Mirrors k (Node.raised k)
    (function fuel place) (function m place)
  functionParts :
    Attempt.Mirrors k (Prod.map (List.map (Declaration.raised k)) (Node.raised k))
      (functionParts fuel) (functionParts m)
  parameters : Attempt.Mirrors k (List.map (Declaration.raised k))
    (parameters fuel) (parameters m)
  returnStatement (place : Location) :
    Attempt.Mirrors k (Node.raised k) (returnStatement fuel place) (returnStatement m place)
  block (place : Location) : Reading.Mirrors k (Node.raised k)
    (block fuel place) (block m place)
  statement : Reading.Mirrors k (Node.raised k)
    (statement fuel) (statement m)
  statements (closing : Option Token.Kind) :
    Reading.Mirrors k (List.map (Node.raised k)) (statements fuel closing)
      (statements m closing)

theorem mirroring_zero (m : Nat) : Mirroring k 0 m := by
  constructor <;> intros <;> exact Reading.mirrors_outOfFuel

namespace Mirroring

variable {fuel m : Nat} {place : Location} (ih : Mirroring k fuel m)

include ih

/-! ### Expressions -/

theorem valid_expression {f : β → β} {u v : Node → Attempt β} (power : Nat)
    (hf : ∀ n, Attempt.Mirrors k f (u n) (v (n.raised k))) : Attempt.Mirrors k f
      (do u (← valid (← Parser.expression fuel power)))
      (do v (← valid (← Parser.expression m power))) :=
  (mirrors_lift (ih.expression power)).bind fun n => (mirrors_valid n).bind hf

theorem expression_succ (power : Nat) : Reading.Mirrors k (Node.raised k)
    (Parser.expression (fuel + 1) power) (Parser.expression (m + 1) power) := by
  rw [Parser.expression, Parser.expression]
  refine mirrors_kind.same fun c => ?_
  split
  · exact Reading.mirrors_unexpected _
  · exact (mirrors_orError (ih.operand power)).bind (ih.operations power)

theorem operations_succ (power : Nat) (left : Node) : Reading.Mirrors k (Node.raised k)
    (Parser.operations (fuel + 1) power left)
    (Parser.operations (m + 1) power (left.raised k)) := by
  rw [Parser.operations, Parser.operations]
  refine mirrors_kind.same fun c => mirrors_hasFailed.same fun failed => ?_
  split
  · exact (mirrors_orError (ih.operation left)).bind (ih.operations power)
  · exact Reading.mirrors_pure rfl

theorem operand_succ (power : Nat) : Attempt.Mirrors k (Node.raised k)
    (Parser.operand (fuel + 1) power) (Parser.operand (m + 1) power) := by
  rw [Parser.operand, Parser.operand]
  refine (mirrors_lift mirrors_here).same fun place => mirrors_state fun p p' hp => ?_
  rw [hp.cursor]
  dsimp only
  have adjusted : ∀ change : Adjustment, Attempt.Mirrors k (Node.raised k)
      (do
        forward
        let n ← valid (← Parser.expression fuel unaryPower)
        if n.isAssignable then
          Reading.node (← spanFrom place) (.adjust · change n)
        else fail (errorAt n.place notAdjustable))
      (do
        forward
        let n ← valid (← Parser.expression m unaryPower)
        if n.isAssignable then
          Reading.node (← spanFrom place) (.adjust · change n)
        else fail (errorAt n.place notAdjustable)) := by
    intro change
    refine (mirrors_lift mirrors_forward).same fun _ => ih.valid_expression _ fun n => ?_
    rw [Node.isAssignable_raised, Node.place_raised]
    split
    · exact mirrors_ended fun _ => rfl
    · exact mirrors_error _ _
  split
  · exact (mirrors_lift mirrors_forward).same fun _ => mirrors_lift (mirrors_node fun _ => rfl)
  · exact (mirrors_lift mirrors_forward).same fun _ => mirrors_lift (mirrors_node fun _ => rfl)
  · exact mirrors_error _ _
  · exact adjusted _
  · exact adjusted _
  · exact ih.named place _
  · refine (mirrors_lift mirrors_forward).same fun _ => ih.valid_expression _ fun n => ?_
    exact (mirrors_expect _).same fun _ => mirrors_return rfl
  · exact (mirrors_lift mirrors_forward).same fun _ => mirrors_lift (ih.block place)
  · split
    · refine (mirrors_lift mirrors_forward).same fun _ => ?_
      exact (mirrors_lift (ih.expression _)).bind fun n => mirrors_ended fun _ => rfl
    · split
      · exact mirrors_lift (mirrors_node fun _ => rfl)
      · exact mirrors_unexpected _

theorem operation_succ (left : Node) : Attempt.Mirrors k (Node.raised k)
    (Parser.operation (fuel + 1) left) (Parser.operation (m + 1) (left.raised k)) := by
  rw [Parser.operation, Parser.operation]
  refine (mirrors_lift mirrors_kind).same fun c => ?_
  rw [Node.isAssignable_raised, Node.place_raised]
  have joined : ∀ op n, Reading.Mirrors k (Node.raised k) (binaryNode op left n)
      (binaryNode op (left.raised k) (n.raised k)) := by
    intro op n
    rw [binaryNode, binaryNode, Node.place_raised, Node.place_raised]
    exact mirrors_node fun _ => rfl
  have assigned : ∀ v, Reading.Mirrors k (Node.raised k)
      (Reading.node (left.place.extend v.place) (.assign · left v))
      (Reading.node (left.place.extend (v.raised k).place)
        (.assign · (left.raised k) (v.raised k))) := by
    intro v
    rw [Node.place_raised]
    exact mirrors_node fun _ => rfl
  have adjusted : ∀ change : Adjustment, Attempt.Mirrors k (Node.raised k)
      (do
        if left.isAssignable then
          forward
          Reading.node (← spanFrom left.place) (.adjust · change left)
        else fail (errorAt left.place notAdjustable))
      (do
        if left.isAssignable then
          forward
          Reading.node (← spanFrom left.place) (.adjust · change (left.raised k))
        else fail (errorAt left.place notAdjustable)) := by
    intro change
    split
    · exact (mirrors_lift mirrors_forward).same fun _ => mirrors_ended fun _ => rfl
    · exact mirrors_error _ _
  split
  · refine (mirrors_lift mirrors_forward).same fun _ => ?_
    exact (mirrors_lift (ih.expression _)).bind fun n => mirrors_lift (joined _ n)
  · refine (mirrors_lift mirrors_forward).same fun _ => ?_
    exact (mirrors_takeNameOr _).same fun s => mirrors_ended fun _ => rfl
  · refine (mirrors_lift mirrors_forward).same fun _ => ih.valid_expression _ fun i => ?_
    exact (mirrors_expect _).same fun _ => mirrors_ended fun _ => rfl
  · refine (mirrors_lift mirrors_forward).same fun _ => ih.arguments.bind fun as => ?_
    exact mirrors_ended fun _ => by rw [Node.raised, Node.allRaised_eq_map]
  · refine (mirrors_lift mirrors_forward).same fun _ => ih.valid_expression _ fun a => ?_
    refine (mirrors_expect _).same fun _ => (mirrors_lift (ih.expression _)).bind fun b => ?_
    rw [Node.place_raised]
    exact mirrors_lift (mirrors_node fun _ => rfl)
  · split
    · refine (mirrors_lift mirrors_forward).same fun _ => ?_
      exact (mirrors_lift (ih.expression _)).bind fun v => mirrors_lift (assigned v)
    · exact mirrors_error _ _
  · split
    · refine (mirrors_lift mirrors_forward).same fun _ => ?_
      refine (mirrors_lift (ih.expression _)).bind fun n => ?_
      exact (mirrors_lift (joined _ n)).bind fun v => mirrors_lift (assigned v)
    · exact mirrors_error _ _
  · exact adjusted _
  · exact adjusted _
  · exact mirrors_unexpected _

theorem arguments_succ : Attempt.Mirrors k (List.map (Node.raised k))
    (Parser.arguments (fuel + 1)) (Parser.arguments (m + 1)) := by
  rw [Parser.arguments, Parser.arguments]
  refine (mirrors_lift (mirrors_accept _)).same fun closed => ?_
  split
  · exact mirrors_return rfl
  · refine ih.argumentList.bind fun as => ?_
    exact (mirrors_expect _).same fun _ => mirrors_return rfl

theorem argumentList_succ : Attempt.Mirrors k (List.map (Node.raised k))
    (Parser.argumentList (fuel + 1)) (Parser.argumentList (m + 1)) := by
  rw [Parser.argumentList, Parser.argumentList]
  refine ih.valid_expression _ fun a => (mirrors_lift (mirrors_accept _)).same fun more => ?_
  split
  · exact ih.argumentList.bind fun as => mirrors_return rfl
  · exact mirrors_return rfl

theorem named_succ (s : String) : Attempt.Mirrors k (Node.raised k)
    (Parser.named (fuel + 1) place s) (Parser.named (m + 1) place s) := by
  unfold Parser.named
  have leaf : ∀ build : Tag → Node, (∀ t, (build t).raised k = build (t.raised k)) →
      Attempt.Mirrors k (Node.raised k) (do forward; Reading.node place build)
        (do forward; Reading.node place build) := fun build hb =>
    (mirrors_lift mirrors_forward).same fun _ => mirrors_lift (mirrors_node hb)
  split
  · exact leaf _ fun _ => rfl
  · split
    · exact ih.ifStatement place
    · exact ih.whileStatement place
    · exact ih.doStatement place
    · refine (mirrors_lift mirrors_forward).same fun _ => ih.declarators.bind fun ds => ?_
      exact (mirrors_lift (mirrors_spanFrom _)).same fun _ => mirrors_lift (mirrors_blockOf _ _ _)
    · exact ih.function place
    · exact leaf _ fun _ => rfl
    · exact leaf _ fun _ => rfl
    · exact ih.returnStatement place
    · exact mirrors_error _ _
    · exact (mirrors_lift mirrors_forward).same fun _ => mirrors_lift (mirrors_nameNode _ _)

/-! ### Statements -/

theorem condition_succ : Attempt.Mirrors k (Node.raised k)
    (Parser.condition (fuel + 1)) (Parser.condition (m + 1)) := by
  rw [Parser.condition, Parser.condition]
  refine (mirrors_expect _).same fun _ => ih.valid_expression _ fun c => ?_
  exact (mirrors_expect _).same fun _ => mirrors_return rfl

theorem ifStatement_succ : Attempt.Mirrors k (Node.raised k)
    (Parser.ifStatement (fuel + 1) place) (Parser.ifStatement (m + 1) place) := by
  rw [Parser.ifStatement, Parser.ifStatement]
  refine (mirrors_lift mirrors_forward).same fun _ => ih.condition.bind fun c => ?_
  refine (mirrors_lift ih.statement).bind fun a => ?_
  refine (mirrors_lift (mirrors_unlessFailed (mirrors_acceptName _))).same fun otherwise => ?_
  split
  · exact (mirrors_lift ih.statement).bind fun b => mirrors_ended fun _ => rfl
  · exact mirrors_ended fun _ => rfl

theorem whileStatement_succ : Attempt.Mirrors k (Node.raised k)
    (Parser.whileStatement (fuel + 1) place) (Parser.whileStatement (m + 1) place) := by
  rw [Parser.whileStatement, Parser.whileStatement]
  refine (mirrors_lift mirrors_forward).same fun _ => ih.condition.bind fun c => ?_
  exact (mirrors_lift ih.statement).bind fun b => mirrors_ended fun _ => rfl

theorem doStatement_succ : Attempt.Mirrors k (Node.raised k)
    (Parser.doStatement (fuel + 1) place) (Parser.doStatement (m + 1) place) := by
  rw [Parser.doStatement, Parser.doStatement]
  refine (mirrors_lift mirrors_forward).same fun _ => ?_
  refine (mirrors_lift ih.statement).bind fun n => (mirrors_valid n).bind fun b => ?_
  refine (mirrors_lift (mirrors_acceptName _)).same fun found => ?_
  split
  · exact ih.condition.bind fun c => mirrors_ended fun _ => rfl
  · exact mirrors_unexpected _

theorem returnStatement_succ : Attempt.Mirrors k (Node.raised k)
    (Parser.returnStatement (fuel + 1) place) (Parser.returnStatement (m + 1) place) := by
  rw [Parser.returnStatement, Parser.returnStatement]
  refine (mirrors_lift mirrors_forward).same fun _ => (mirrors_lift mirrors_kind).same fun c => ?_
  split
  · exact mirrors_ended fun _ => rfl
  · exact mirrors_ended fun _ => rfl
  · exact mirrors_ended fun _ => rfl
  · exact ih.valid_expression _ fun v => mirrors_ended fun _ => rfl

theorem statement_succ : Reading.Mirrors k (Node.raised k)
    (Parser.statement (fuel + 1)) (Parser.statement (m + 1)) := by
  rw [Parser.statement, Parser.statement]
  refine (ih.expression 0).bind fun n => ?_
  exact (mirrors_accept _).same fun _ => Reading.mirrors_pure rfl

theorem statements_succ (closing : Option Token.Kind) :
    Reading.Mirrors k (List.map (Node.raised k)) (Parser.statements (fuel + 1) closing)
      (Parser.statements (m + 1) closing) := by
  unfold Parser.statements
  refine mirrors_hasFailed.same fun failed => ?_
  split
  · exact Reading.mirrors_pure rfl
  · refine Reading.Mirrors.same ?_ fun closed => ?_
    · cases closing with
      | some c => exact mirrors_accept c
      | none => exact mirrors_kind.same fun _ => Reading.mirrors_pure rfl
    · split
      · exact Reading.mirrors_pure rfl
      · refine ih.statement.bind fun n => (ih.statements closing).bind fun ns => ?_
        exact Reading.mirrors_pure rfl

/-! ### Declarations, functions and blocks -/

theorem declarators_succ : Attempt.Mirrors k (List.map (Node.raised k))
    (Parser.declarators (fuel + 1)) (Parser.declarators (m + 1)) := by
  rw [Parser.declarators, Parser.declarators]
  refine (mirrors_lift mirrors_here).same fun place => (mirrors_takeNameOr _).same fun s => ?_
  refine (mirrors_declare s place).bind fun d => ?_
  have declared : Reading.Mirrors k (Node.raised k) (Reading.node place (.declare · d))
      (Reading.node place (.declare · (d.raised k))) :=
    mirrors_node fun _ => rfl
  refine (mirrors_lift declared).bind fun target => ?_
  have value : Reading.Mirrors k (Node.raised k)
      (do
        if ← accept .assign then
          let v ← Parser.expression fuel argumentPower
          Reading.node (place.extend v.place) (.assign · target v)
        else return target)
      (do
        if ← accept .assign then
          let v ← Parser.expression m argumentPower
          Reading.node (place.extend v.place) (.assign · (target.raised k) v)
        else return target.raised k) := by
    refine (mirrors_accept _).same fun found => ?_
    split
    · refine (ih.expression _).bind fun v => ?_
      rw [Node.place_raised]
      exact mirrors_node fun _ => rfl
    · exact Reading.mirrors_pure rfl
  refine (mirrors_lift value).bind fun n => ?_
  refine (mirrors_lift (mirrors_unlessFailed (mirrors_accept _))).same fun more => ?_
  split
  · exact ih.declarators.bind fun ns => mirrors_return rfl
  · exact mirrors_return rfl

theorem parameters_succ : Attempt.Mirrors k (List.map (Declaration.raised k))
    (Parser.parameters (fuel + 1)) (Parser.parameters (m + 1)) := by
  rw [Parser.parameters, Parser.parameters]
  refine (mirrors_lift mirrors_here).same fun place => (mirrors_takeNameOr _).same fun s => ?_
  refine (mirrors_declare s place).bind fun d => ?_
  refine (mirrors_lift (mirrors_accept _)).same fun more => ?_
  split
  · exact ih.parameters.bind fun ds => mirrors_return rfl
  · exact mirrors_return rfl

theorem block_succ : Reading.Mirrors k (Node.raised k)
    (Parser.block (fuel + 1) place) (Parser.block (m + 1) place) := by
  rw [Parser.block, Parser.block]
  refine mirrors_openScope.same fun _ => (ih.statements _).bind fun ss => ?_
  refine mirrors_closeScope.bind fun locals => (mirrors_spanFrom _).same fun _ => ?_
  exact mirrors_blockOf _ ss locals

theorem functionParts_succ :
    Attempt.Mirrors k (Prod.map (List.map (Declaration.raised k)) (Node.raised k))
      (Parser.functionParts (fuel + 1)) (Parser.functionParts (m + 1)) := by
  rw [Parser.functionParts, Parser.functionParts]
  refine (mirrors_expect _).same fun _ => ?_
  have inside : Attempt.Mirrors k (List.map (Declaration.raised k))
      (do
        if ← accept .closePar then return []
        else
          let ps ← Parser.parameters fuel
          expect .closePar
          return ps)
      (do
        if ← accept .closePar then return []
        else
          let ps ← Parser.parameters m
          expect .closePar
          return ps) := by
    refine (mirrors_lift (mirrors_accept _)).same fun closed => ?_
    split
    · exact mirrors_return rfl
    · refine ih.parameters.bind fun ps => ?_
      exact (mirrors_expect _).same fun _ => mirrors_return rfl
  refine inside.bind fun params => (mirrors_lift mirrors_here).same fun place => ?_
  refine (mirrors_expect _).same fun _ => (mirrors_lift (ih.block place)).bind fun body => ?_
  refine (mirrors_lift mirrors_hasFailed).same fun failed => ?_
  split
  · exact mirrors_throw rfl
  · exact mirrors_return rfl

theorem function_succ : Attempt.Mirrors k (Node.raised k)
    (Parser.function (fuel + 1) place) (Parser.function (m + 1) place) := by
  rw [Parser.function, Parser.function]
  refine (mirrors_lift mirrors_forward).same fun _ => ?_
  refine Attempt.Mirrors.bind (g := Option.map (Declaration.raised k)) ?_ fun own => ?_
  · refine (mirrors_lift mirrors_takeName).same fun found => ?_
    cases found with
    | some s =>
      refine mirrors_state fun p p' hp => ?_
      rw [hp.cursor]
      exact (mirrors_declare s _).bind fun d => mirrors_return rfl
    | none => exact mirrors_return rfl
  refine (mirrors_lift mirrors_openScope).same fun _ => ?_
  refine (mirrors_lift mirrors_openFunction).same fun _ => ?_
  refine (mirrors_outcome ih.functionParts).bind fun parts => ?_
  refine (mirrors_lift mirrors_closeFunction).bind fun free => ?_
  refine (mirrors_lift mirrors_closeScope).bind fun _ => ?_
  cases parts with
  | error n => exact mirrors_throw rfl
  | ok parts => exact mirrors_ended fun _ => rfl

theorem succ : Mirroring k (fuel + 1) (m + 1) where
  expression := ih.expression_succ
  operations := ih.operations_succ
  operand := ih.operand_succ
  operation := ih.operation_succ
  arguments := ih.arguments_succ
  argumentList := ih.argumentList_succ
  named _ := ih.named_succ
  condition := ih.condition_succ
  ifStatement _ := ih.ifStatement_succ
  whileStatement _ := ih.whileStatement_succ
  doStatement _ := ih.doStatement_succ
  declarators := ih.declarators_succ
  function _ := ih.function_succ
  functionParts := ih.functionParts_succ
  parameters := ih.parameters_succ
  returnStatement _ := ih.returnStatement_succ
  block _ := ih.block_succ
  statement := ih.statement_succ
  statements := ih.statements_succ

end Mirroring

/-- **What a reader gives from one parser, it gives from every parser that is alike.** -/
theorem mirroring (k : Nat) {fuel m : Nat} (h : fuel ≤ m) : Mirroring k fuel m := by
  induction fuel generalizing m with
  | zero => exact mirroring_zero m
  | succ fuel ih =>
    obtain ⟨m, rfl⟩ := Nat.exists_eq_add_of_le' h
    exact (ih (Nat.le_add_left fuel m)).succ

/-! ## Whole sources -/

/-- The statements of a source; there has to be one. -/
theorem mirrors_whole {fuel m : Nat} (h : fuel ≤ m) {u v : List Node → Reading Node}
    (hf : ∀ ss, Reading.Mirrors k (Node.raised k) (u ss) (v (ss.map (Node.raised k)))) :
    Reading.Mirrors k (Node.raised k)
      (do
        let ss ← statements fuel none
        let failed ← hasFailed
        let ss ← if ss.isEmpty && !failed then (return [← unexpected "expression"]) else pure ss
        u ss)
      (do
        let ss ← statements m none
        let failed ← hasFailed
        let ss ← if ss.isEmpty && !failed then (return [← unexpected "expression"]) else pure ss
        v ss) := by
  refine ((mirroring k h).statements none).bind fun ss => mirrors_hasFailed.same fun failed => ?_
  rw [List.isEmpty_map]
  split
  · have failure : Reading.Mirrors k (List.map (Node.raised k))
        (do return [← unexpected "expression"]) (do return [← unexpected "expression"]) :=
      (Reading.mirrors_unexpected _).bind fun e => mirrors_pure rfl
    exact failure.bind hf
  · exact (mirrors_pure rfl).bind hf

/-- The scope of a source, if it has one of its own, is closed at its end. -/
theorem mirrors_gathered (start : Location) (top : Nat) (global : Bool) (ss : List Node) :
    Reading.Mirrors k (Node.raised k)
      (do
        modify fun p => { p with scope := p.scope.closeTo top }
        let locals ← if global then pure [] else closeScope
        blockOf (start.extend (← get).cursor.previous) ss locals)
      (do
        modify fun p => { p with scope := p.scope.closeTo top }
        let locals ← if global then pure [] else closeScope
        blockOf (start.extend (← get).cursor.previous) (ss.map (Node.raised k)) locals) := by
  refine Reading.Mirrors.same (mirrors_modify fun p p' hp => ?_) fun _ => ?_
  · exact ⟨hp.cursor, hp.scope.closeTo top, hp.functions, hp.failed, hp.next⟩
  · have built (locals : List Declaration) : Reading.Mirrors k (Node.raised k)
        (do blockOf (start.extend (← get).cursor.previous) ss locals)
        (do
          let last := (← get).cursor.previous
          blockOf (start.extend last) (ss.map (Node.raised k))
            (locals.map (Declaration.raised k))) :=
      mirrors_get fun p p' hp => by
        rw [hp.cursor]
        exact mirrors_blockOf _ ss locals
    split
    · exact Reading.Mirrors.bind (g := List.map (Declaration.raised k)) (mirrors_pure rfl) built
    · exact mirrors_closeScope.bind built

/-- **What is made of a source does not depend on the fuel or on other sources.** -/
theorem mirrors_analyse {fuel m : Nat} (h : fuel ≤ m) :
    Reading.Mirrors k (Node.raised k) (analyse fuel) (analyse m) := by
  unfold analyse
  refine Reading.Mirrors.same (mirrors_modify fun p p' hp =>
    ⟨hp.cursor, hp.scope, rfl, rfl, hp.next⟩) fun _ => ?_
  refine mirrors_here.same fun start => mirrors_get fun p p' hp => ?_
  rw [hp.scope.options]
  cases p.scope.options.global with
  | true =>
    refine mirrors_get fun q q' hq => ?_
    rw [hq.scope.depth]
    exact mirrors_whole h fun ss => mirrors_gathered start _ true ss
  | false =>
    refine mirrors_openScope.same fun _ => mirrors_get fun q q' hq => ?_
    rw [hq.scope.depth]
    exact mirrors_whole h fun ss => mirrors_gathered start _ false ss

end Parser

end Steppable
