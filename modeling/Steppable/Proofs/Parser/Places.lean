import Steppable.Proofs.Parser.Diagnosis
import Steppable.Proofs.Token.Comments

/-!
# The places of nodes

A location is made in three ways: it is that of a token, it goes from a token to the last one
passed, or it covers two operands. What stands in parentheses does not know of them, a block of one
statement gives way to it, and an empty statement is located before its semicolon is passed. Still
the locations fit: what has been read begins behind the token before it and ends with the last
token passed (`Spans`), apart from an empty statement, which nothing but a statement accepts.

**Theorem (`nodes_located`).** In a tree without errors every node lies in the source and around its
children, and its line and column are those of its first character.
-/

namespace Steppable

variable {cs : List Char}

/-! ## Locations in a text -/

/-- The location lies in the text, and its line and column are those of its start. -/
structure Location.Exact (cs : List Char) (l : Location) : Prop where
  ordered : l.span.start ≤ l.span.stop
  inside : l.span.stop ≤ cs.length
  line : l.line = 1 + (cs.take l.span.start).count '\n'
  column : l.column = 1 + (lastLine (cs.take l.span.start)).length

/-- The span `b` lies in the span `a`. -/
def Span.Holds (a b : Span) : Prop :=
  a.start ≤ b.start ∧ b.stop ≤ a.stop

/-- Every node of the tree has an exact location, which holds those of its children. -/
def Node.Located (cs : List Char) (n : Node) : Prop :=
  ∀ x, n.Within x → x.place.Exact cs ∧ ∀ c ∈ x.children, x.place.span.Holds c.place.span

theorem Location.extend_start {a b : Location} (h : a.span.start ≤ b.span.start) :
    (a.extend b).span.start = a.span.start :=
  Nat.min_eq_left h

theorem Location.extend_stop (a b : Location) :
    (a.extend b).span.stop = max a.span.stop b.span.stop :=
  rfl

theorem Location.Exact.extend {a b : Location} (ha : a.Exact cs) (hab : a.span.start ≤ b.span.start)
    (hb : b.span.stop ≤ cs.length) : (a.extend b).Exact cs := by
  refine ⟨?_, Nat.max_le.2 ⟨ha.inside, hb⟩, ?_, ?_⟩
  · rw [extend_start hab]
    exact Nat.le_trans ha.ordered (Nat.le_max_left _ _)
  · rw [extend_start hab]
    exact ha.line
  · rw [extend_start hab]
    exact ha.column

theorem Node.located_iff {n : Node} : n.Located cs ↔
    n.place.Exact cs ∧ ∀ c ∈ n.children, c.Located cs ∧ n.place.span.Holds c.place.span := by
  constructor
  · intro h
    obtain ⟨he, hc⟩ := h n (.refl n)
    exact ⟨he, fun c hm => ⟨fun x hx => h x (.step hm hx), hc c hm⟩⟩
  · rintro ⟨he, hc⟩ x hx
    rcases Node.within_iff.1 hx with rfl | ⟨c, hm, hcx⟩
    · exact ⟨he, fun c hm => (hc c hm).2⟩
    · exact (hc c hm).1 x hcx

/-! ## Cursors in a text -/

namespace Token

theorem Placed.exact {t : Token} (h : t.Placed cs) : t.place.Exact cs :=
  ⟨h.start_le_stop, h.inside, h.line, h.column⟩

/-- Tokens that cut a text stand in it one behind the other. -/
theorem Cuts.ordered {i : Nat} {ts : List Token} (h : Cuts cs i ts) :
    (∀ t ∈ ts, i ≤ t.place.span.start ∧ t.place.Exact cs) ∧
      ts.Pairwise fun t u => t.place.span.stop ≤ u.place.span.start := by
  induction h with
  | last hn _ => simpa using ⟨hn.start, hn.placed.exact⟩
  | @cons i t ts hn _ _ ih =>
    refine ⟨fun u hu => ?_, List.pairwise_cons.2 ⟨fun u hu => (ih.1 u hu).1, ih.2⟩⟩
    have hle := Nat.le_trans hn.start hn.placed.start_le_stop
    rcases List.mem_cons.1 hu with rfl | hu
    · exact ⟨hn.start, hn.placed.exact⟩
    · exact ⟨Nat.le_trans hle (ih.1 u hu).1, (ih.1 u hu).2⟩

end Token

namespace Cursor

variable {c : Cursor}

/-- Where the current token begins. -/
def front (c : Cursor) : Nat :=
  c.current.place.span.start

/-- The span of the token before the current one. -/
def rear (c : Cursor) : Span :=
  c.previous.span

/-- The tokens of the cursor stand in the text one behind the other. -/
structure OnText (cs : List Char) (c : Cursor) : Prop where
  proper : Token.Proper c.tokens
  exact : ∀ t ∈ c.tokens, t.place.Exact cs
  ordered : c.tokens.Pairwise fun t u => t.place.span.stop ≤ u.place.span.start
  rear : c.rear.start ≤ c.rear.stop
  gap : c.rear.stop ≤ c.front

theorem OnText.current (h : c.OnText cs) : c.current.place.Exact cs :=
  h.exact _ List.mem_cons_self

theorem OnText.inside (h : c.OnText cs) : c.front ≤ cs.length :=
  Nat.le_trans h.current.ordered h.current.inside

theorem OnText.forward (h : c.OnText cs) (hl : c.current.kind.isLast = false) :
    c.forward.OnText cs ∧ c.forward.previous = c.current.place := by
  obtain ⟨current, ahead, previous, number, comments⟩ := c
  obtain ⟨hproper, hexact, hordered, hrear, hgap⟩ := h
  have hl' : current.kind.isLast = false := hl
  simp only [tokens] at hproper hexact hordered
  cases ahead with
  | nil => exact ((hproper.tail hl').ne_nil rfl).elim
  | cons t ts =>
    rw [Cursor.forward, atLast, if_neg (by simp [hl'])]
    obtain ⟨hfirst, hrest⟩ := List.pairwise_cons.1 hordered
    refine ⟨⟨hproper.tail hl', fun u hu => hexact u (List.mem_cons_of_mem _ hu), hrest, ?_, ?_⟩,
      rfl⟩
    · exact (hexact current List.mem_cons_self).ordered
    · exact hfirst t List.mem_cons_self

theorem onText_ofSource (source : String) : (ofSource source).OnText source.toList := by
  obtain ⟨hexact, hordered⟩ := (Token.lex_cuts source).ordered
  have hproper := (Token.lex_cuts source).proper.filter
  have hsub : List.Sublist (Token.lex source) (Token.lex source true) := by
    rw [Token.lex_filter]
    exact List.filter_sublist
  rw [← Token.lex_filter] at hproper
  unfold ofSource start
  split
  · rename_i hl
    exact (hproper.ne_nil hl).elim
  · rename_i t ts hl
    rw [hl] at hproper hsub
    exact ⟨hproper, fun u hu => (hexact u (hsub.subset hu)).2, hordered.sublist hsub,
      Nat.le_refl _, Nat.zero_le _⟩

end Cursor

namespace Parser

open Reading Attempt Node

variable {p q r : Parser} {n m left : Node} {a b : Location} {c d : Cursor} {k : Token.Kind}
  {lo lo' power fuel : Nat} {Φ Ψ : Prop}

/-! ## What has been read -/

/-- The cursor `d` is not before `c`. -/
structure Leads (c d : Cursor) : Prop where
  start : c.rear.start ≤ d.rear.start
  stop : c.rear.stop ≤ d.rear.stop
  front : c.front ≤ d.front

/-- The location `a` begins at a token from `lo` on that has been passed. -/
structure Begun (cs : List Char) (lo : Nat) (a : Location) (c : Cursor) : Prop where
  exact : a.Exact cs
  lower : lo ≤ a.span.start
  start : a.span.start ≤ c.rear.start
  stop : a.span.stop ≤ c.rear.stop

/-- The node has been read from `lo` on and ends with the last token passed, or before it. -/
structure Spans (cs : List Char) (lo : Nat) (n : Node) (d : Cursor) : Prop where
  located : n.Located cs
  lower : lo ≤ n.place.span.start
  ends : n.place.span.stop ≤ d.rear.stop
  passed : lo ≤ d.rear.start

theorem Leads.refl (c : Cursor) : Leads c c :=
  ⟨Nat.le_refl _, Nat.le_refl _, Nat.le_refl _⟩

theorem Leads.trans {e : Cursor} (h : Leads c d) (h' : Leads d e) : Leads c e :=
  ⟨Nat.le_trans h.start h'.start, Nat.le_trans h.stop h'.stop, Nat.le_trans h.front h'.front⟩

/-- A cursor that has passed the current token has moved on. -/
theorem leads_of_passed (hc : c.OnText cs) (hd : d.OnText cs) (h : c.front ≤ d.rear.start) :
    Leads c d := by
  have := hc.rear
  have := hc.gap
  have := hd.rear
  have := hd.gap
  constructor <;> omega

theorem Begun.mono (h : Begun cs lo a c) (hcd : Leads c d) : Begun cs lo a d :=
  ⟨h.exact, h.lower, Nat.le_trans h.start hcd.start, Nat.le_trans h.stop hcd.stop⟩

theorem Begun.le_front (h : Begun cs lo a c) (hc : c.OnText cs) : a.span.start ≤ c.front := by
  have := h.start
  have := hc.rear
  have := hc.gap
  omega

theorem begun_of_passed (hc : c.OnText cs) (h : d.previous = c.current.place) :
    Begun cs c.front c.current.place d := by
  have hd : d.rear = c.current.place.span := by rw [Cursor.rear, h]
  refine ⟨hc.current, Nat.le_refl _, ?_, ?_⟩ <;> rw [hd]

theorem Spans.mono (h : Spans cs lo n c) (hcd : Leads c d) (hlo : lo' ≤ lo) : Spans cs lo' n d :=
  ⟨h.located, Nat.le_trans hlo h.lower, Nat.le_trans h.ends hcd.stop,
    Nat.le_trans (Nat.le_trans hlo h.passed) hcd.start⟩

theorem Spans.leads (h : Spans cs c.front n d) (hc : c.OnText cs) (hd : d.OnText cs) : Leads c d :=
  leads_of_passed hc hd h.passed

theorem Spans.exact (h : Spans cs lo n d) : n.place.Exact cs :=
  (located_iff.1 h.located).1

theorem passed_of_previous (h : d.previous = c.current.place) : c.front ≤ d.rear.start := by
  rw [Cursor.rear, h]
  exact Nat.le_refl _

theorem leads_of_previous (hc : c.OnText cs) (hd : d.OnText cs)
    (h : d.previous = c.current.place) : Leads c d :=
  leads_of_passed hc hd (passed_of_previous h)

/-- Behind the next token a node that has been read is begun. -/
theorem Spans.begun (h : Spans cs lo n c) (hc : c.OnText cs) (hcd : c.front ≤ d.rear.start)
    (hd : d.OnText cs) : Begun cs lo n.place d := by
  have := h.exact.ordered
  have := h.ends
  have := hc.gap
  have := hd.rear
  exact ⟨h.exact, h.lower, by omega, by omega⟩

/-- Behind the next token a node that has been read is a part of what begins with it. -/
theorem Spans.child (h : Spans cs lo n c) (hc : c.OnText cs) (hcd : c.front ≤ d.rear.start)
    (hd : d.OnText cs) : Spans cs n.place.span.start n d :=
  ⟨h.located, Nat.le_refl _, (h.begun hc hcd hd).stop, (h.begun hc hcd hd).start⟩

/-- A node that goes from a token passed, or from a node that has been read, to somewhere before the
last token passed. -/
theorem spans_extend (hn : n.place = a.extend b) (ha : Begun cs lo a d) (hd : d.OnText cs)
    (hab : a.span.start ≤ b.span.start) (hb : b.span.stop ≤ d.rear.stop)
    (hc : ∀ m ∈ n.children, m.Located cs ∧ a.span.start ≤ m.place.span.start ∧
      m.place.span.stop ≤ max a.span.stop b.span.stop) : Spans cs lo n d := by
  have hgap := hd.gap
  have hinside := hd.inside
  have hlower := ha.lower
  have hstart := ha.start
  have hstop := ha.stop
  have hns : n.place.span.start = a.span.start := by rw [hn, Location.extend_start hab]
  have hne : n.place.span.stop = max a.span.stop b.span.stop := by rw [hn, Location.extend_stop]
  refine ⟨located_iff.2 ⟨?_, fun m hm => ?_⟩, by omega, by omega, by omega⟩
  · rw [hn]
    exact ha.exact.extend hab (by omega)
  · obtain ⟨hl, hms, hme⟩ := hc m hm
    exact ⟨hl, by omega, by omega⟩

/-- A node up to the last token passed. -/
theorem spans_previous (hn : n.place = a.extend d.previous) (ha : Begun cs lo a d)
    (hd : d.OnText cs) (hc : ∀ m ∈ n.children, Spans cs a.span.start m d) : Spans cs lo n d :=
  spans_extend hn ha hd ha.start (Nat.le_refl _) fun m hm =>
    ⟨(hc m hm).located, (hc m hm).lower, Nat.le_trans (hc m hm).ends (Nat.le_max_right _ _)⟩

/-- A node without children in the place of a token passed. -/
theorem spans_token (hn : n.place = a) (hc : n.children = []) (ha : Begun cs lo a d) :
    Spans cs lo n d := by
  subst hn
  exact ⟨located_iff.2 ⟨ha.exact, by simp [hc]⟩, ha.lower, ha.stop, Nat.le_trans ha.lower ha.start⟩

/-- An operation that covers its operands: what it has besides the left one lies behind that. -/
theorem spans_operands {l x : Node} (hn : n.place = l.place.extend x.place) (hl : l.Located cs)
    (ha : Begun cs lo l.place c) (hc : c.OnText cs) (hd : d.OnText cs) (hx : Spans cs c.front x d)
    (hm : ∀ m ∈ n.children, m = l ∨ m.Located cs ∧ c.front ≤ m.place.span.start ∧
      m.place.span.stop ≤ x.place.span.stop) : Spans cs lo n d := by
  have hfront := ha.le_front hc
  refine spans_extend hn (ha.mono (hx.leads hc hd)) hd (Nat.le_trans hfront hx.lower) hx.ends ?_
  intro m hmem
  rcases hm m hmem with rfl | ⟨hml, hms, hme⟩
  · exact ⟨hl, Nat.le_refl _, Nat.le_max_left _ _⟩
  · exact ⟨hml, Nat.le_trans hfront hms, Nat.le_trans hme (Nat.le_max_right _ _)⟩

/-- An empty statement, located before its semicolon is passed. -/
structure Vacant (cs : List Char) (c : Cursor) (n : Node) (d : Cursor) : Prop where
  cursor : d = c
  semicolon : c.current.kind = .semicolon
  located : n.Located cs
  place : n.place = c.current.place

/-- What an expression is read as: only where anything goes it may be an empty statement. -/
def Occupies (cs : List Char) (power : Nat) (c : Cursor) (n : Node) (d : Cursor) : Prop :=
  Spans cs c.front n d ∨ power = 0 ∧ Vacant cs c n d

theorem Occupies.spans (h : Occupies cs power c n d) (hp : power ≠ 0) : Spans cs c.front n d :=
  h.resolve_right fun hv => hp hv.1

/-- Behind an empty statement stands its semicolon. -/
theorem Occupies.spans_of_ne (h : Occupies cs power c n d) (hk : d.current.kind ≠ .semicolon) :
    Spans cs c.front n d :=
  h.resolve_right fun ⟨_, hv⟩ => hk (hv.cursor ▸ hv.semicolon)

/-- The node `n` goes on from `left`: it begins where `left` does. -/
def Prolongs (cs : List Char) (left : Node) (c : Cursor) (n : Node) (d : Cursor) : Prop :=
  ∀ lo, Spans cs lo left c → Spans cs lo n d

/-- What `left` is continued as. A semicolon continues nothing. -/
def Continued (cs : List Char) (left : Node) (c : Cursor) (n : Node) (d : Cursor) : Prop :=
  Prolongs cs left c n d ∧ (c.current.kind = .semicolon → n = left ∧ d = c)

theorem Occupies.continued {e : Cursor} (h : Occupies cs power c left d)
    (h' : Continued cs left d n e) : Occupies cs power c n e := by
  rcases h with hs | ⟨hp, hv⟩
  · exact .inl (h'.1 _ hs)
  · obtain ⟨rfl, rfl⟩ := h'.2 (hv.cursor ▸ hv.semicolon)
    exact .inr ⟨hp, hv⟩

/-! ## Steps of readers -/

/-- If no error is noted in `q`, none was noted in `p`, and if `p` was in the text, `q` is and `Φ`
holds. -/
def Retains (cs : List Char) (p q : Parser) (Φ : Prop) : Prop :=
  q.failed = false → p.failed = false ∧ (p.cursor.OnText cs → q.cursor.OnText cs ∧ Φ)

theorem Retains.refl (h : p.cursor.OnText cs → Φ) : Retains cs p p Φ := fun hf =>
  ⟨hf, fun hp => ⟨hp, h hp⟩⟩

theorem Retains.trans (h : Retains cs p q Φ) (h' : Retains cs q r Ψ) :
    Retains cs p r (Φ ∧ q.cursor.OnText cs ∧ Ψ) := by
  intro hf
  obtain ⟨hq, hr⟩ := h' hf
  obtain ⟨hp, hq'⟩ := h hq
  refine ⟨hp, fun hon => ?_⟩
  obtain ⟨hq₁, hΦ⟩ := hq' hon
  obtain ⟨hr₁, hΨ⟩ := hr hq₁
  exact ⟨hr₁, hΦ, hq₁, hΨ⟩

theorem Retains.mono (h : Retains cs p q Φ)
    (hΦ : p.cursor.OnText cs → q.cursor.OnText cs → Φ → Ψ) : Retains cs p q Ψ := fun hf =>
  ⟨(h hf).1, fun hp => ⟨((h hf).2 hp).1, hΦ hp ((h hf).2 hp).1 ((h hf).2 hp).2⟩⟩

theorem Retains.of_same (h : Retains cs p q Φ) (hc : r.cursor = q.cursor)
    (hf : r.failed = q.failed) : Retains cs p r Φ := by
  intro hr
  rw [hc]
  exact h (hf ▸ hr)

/-- Behind an error nothing is promised. -/
theorem retains_of_failed (h : q.failed = true) : Retains cs p q Φ := by
  intro hf
  simp [h] at hf

theorem Retains.after_failed (h : Retains cs q r Φ) (hq : q.failed = true) : Retains cs p r Ψ := by
  intro hf
  simp [(h hf).1] at hq

section Steps

variable {E : Node → Parser → Prop}

/-- The current token of `p` is of kind `k`, and `q` has passed it. -/
abbrev Took (k : Token.Kind) (c d : Cursor) : Prop :=
  c.current.kind = k ∧ d.previous = c.current.place

theorem retains_forward (hl : p.cursor.current.kind.isLast = false) :
    Retains cs p { p with cursor := p.cursor.forward }
      (p.cursor.forward.previous = p.cursor.current.place) := fun hf =>
  ⟨hf, fun hp => hp.forward hl⟩

variable (cs)

theorem retains_next {Q : PUnit → Parser → Prop} (hl : p.cursor.current.kind.isLast = false)
    (hQ : ∀ q, Retains cs p q (q.cursor.previous = p.cursor.current.place) → Q ⟨⟩ q) :
    forward.Ensures p Q :=
  ensures_modify (hQ _ (retains_forward hl))

/-- Behind its first token a statement is begun. -/
theorem retains_opened {α : Type} {x : Attempt α} {Q : α → Parser → Prop}
    (hk : p.cursor.current.kind = .identifier) (hx : ∀ q, Retains cs p q
      (Begun cs p.cursor.front p.cursor.current.place q.cursor) → x.Ensures q E Q) :
    Attempt.Ensures (do forward; x) p E Q :=
  .bind (ensures_lift (retains_next cs (by rw [hk]; rfl) fun q hq => hx q (hq.mono
    fun hp _ hprev => begun_of_passed hp hprev)))

theorem retains_accept {Q : Bool → Parser → Prop} (hl : k.isLast = false)
    (ht : ∀ q, Retains cs p q (Took k p.cursor q.cursor) → Q true q)
    (hf : p.cursor.current.kind ≠ k → Q false p) : (accept k).Ensures p Q := by
  refine ensures_modifyGet ?_
  by_cases hk : p.cursor.current.kind = k
  · rw [show p.cursor.accept k = (true, p.cursor.forward) from if_pos hk]
    exact ht _ ((retains_forward (by rw [hk]; exact hl)).mono fun _ _ h => ⟨hk, h⟩)
  · rw [show p.cursor.accept k = (false, p.cursor) from if_neg hk]
    exact hf hk

theorem retains_acceptName {s : String} {Q : Bool → Parser → Prop}
    (ht : ∀ q, Retains cs p q (Took .identifier p.cursor q.cursor) → Q true q)
    (hf : Q false p) : (acceptName s).Ensures p Q := by
  refine ensures_modifyGet ?_
  by_cases hw : p.cursor.isNamed s = true
  · rw [show p.cursor.acceptName s = (true, p.cursor.forward) from if_pos hw]
    have hk : p.cursor.current.kind = .identifier := Token.kind_of_isWord hw
    exact ht _ ((retains_forward (by rw [hk]; rfl)).mono fun _ _ h => ⟨hk, h⟩)
  · rw [show p.cursor.acceptName s = (false, p.cursor) from if_neg hw]
    exact hf

theorem retains_takeName {Q : Option String → Parser → Prop}
    (ht : ∀ s q, Retains cs p q (Took .identifier p.cursor q.cursor) → Q (some s) q)
    (hf : Q none p) : takeName.Ensures p Q := by
  refine ensures_modifyGet ?_
  by_cases hi : p.cursor.current.kind.isIdentifier = true
  · rw [show p.cursor.takeText .identifier =
      (some p.cursor.current.text, p.cursor.forward) from if_pos hi]
    have hk := Token.kind_of_isIdentifier hi
    exact ht _ _ ((retains_forward (by rw [hk]; rfl)).mono fun _ _ h => ⟨hk, h⟩)
  · rw [show p.cursor.takeText .identifier = (none, p.cursor) from if_neg hi]
    exact hf

theorem retains_expect {Q : PUnit → Parser → Prop} (hl : k.isLast = false)
    (hQ : ∀ q, Retains cs p q (Took k p.cursor q.cursor) → Q ⟨⟩ q) :
    (expect k).Ensures p (fun _ q => q.failed = true) Q := by
  refine .bind (ensures_lift (retains_accept cs hl (fun q hq => ?_) fun _ => ?_))
  · exact Attempt.ensures_pure (hQ q hq)
  · exact ensures_fail (tells_unexpected.mono fun _ _ hn => hn.1)

theorem retains_takeNameOr {what : String} {Q : String → Parser → Prop}
    (hQ : ∀ s q, Retains cs p q (Took .identifier p.cursor q.cursor) → Q s q) :
    (takeNameOr what).Ensures p (fun _ q => q.failed = true) Q := by
  refine .bind (ensures_lift (retains_takeName cs (fun s q hq => ?_) ?_))
  · exact Attempt.ensures_pure (hQ s q hq)
  · exact ensures_fail (tells_unexpected.mono fun _ _ hn => hn.1)

theorem retains_declare {s : String} {place : Location} {Q : Declaration → Parser → Prop}
    (hQ : ∀ d q, Retains cs p q (q.cursor = p.cursor) → Q d q) :
    (Attempt.declare s place).Ensures p (fun _ q => q.failed = true) Q := by
  unfold Attempt.declare
  refine .bind (ensures_lift (ensures_fresh (.bind (ensures_get ?_))))
  dsimp only
  split
  · exact ensures_fail (tells_errorAt.mono fun _ _ hn => hn.1)
  · exact .bind (ensures_lift (ensures_modify (Attempt.ensures_pure
      (hQ _ _ ((Retains.refl fun _ => rfl).of_same rfl rfl)))))

variable {cs}

/-- A node that is made at the end and goes up to the last token passed. -/
theorem retains_spanned {start : Location} {build : Tag → Node} {Q : Node → Cursor → Prop}
    (h : Retains cs p q (∀ t : Tag, t.place = start.extend q.cursor.previous →
      Q (build t) q.cursor)) :
    Attempt.Ensures (do Reading.node (← spanFrom start) build) q E fun n r =>
      Retains cs p r (Q n r.cursor) := by
  refine .bind (ensures_lift (.bind (ensures_get (Reading.ensures_pure ?_))))
  exact ensures_lift (ensures_node (h.mono fun _ _ hQ => hQ _ rfl))

/-- The block is its only statement, or a new node. -/
theorem retains_blockOf {ss : List Node} {locals : List Declaration} {Q : Node → Cursor → Prop}
    (h : Retains cs p q ((∀ s, ss = [s] → Q s q.cursor) ∧
      ∀ t : Tag, t.place = a → Q (.block t ss locals) q.cursor)) :
    (blockOf a ss locals).Ensures q fun n r => Retains cs p r (Q n r.cursor) := by
  unfold blockOf
  split
  · exact ensures_pure (h.mono fun _ _ hQ => hQ.1 _ rfl)
  · exact ensures_node (h.mono fun _ _ hQ => hQ.2 _ rfl)

theorem ensures_place {Q : Location → Parser → Prop} (h : Q p.cursor.current.place p) :
    here.Ensures p Q :=
  .bind (ensures_get (ensures_pure h))

end Steps

/-- Several nodes have been read, or none. -/
def SpansAll (cs : List Char) (c : Cursor) (ns : List Node) (d : Cursor) : Prop :=
  (∀ n ∈ ns, Spans cs c.front n d) ∧ Leads c d

theorem SpansAll.mono {e : Cursor} {ns : List Node} (h : SpansAll cs c ns d) (hde : Leads d e) :
    SpansAll cs c ns e :=
  ⟨fun n hn => (h.1 n hn).mono hde (Nat.le_refl _), h.2.trans hde⟩

theorem SpansAll.after {e : Cursor} {ns : List Node} (h : SpansAll cs d ns e) (hcd : Leads c d) :
    SpansAll cs c ns e :=
  ⟨fun n hn => (h.1 n hn).mono (.refl _) hcd.front, hcd.trans h.2⟩

/-- A node up to the last token passed, made of parts that have been read behind its beginning. -/
theorem SpansAll.spans {ns : List Node} (h : SpansAll cs c ns d) (ha : Begun cs lo a c)
    (hc : c.OnText cs) (hd : d.OnText cs) (hn : n.place = a.extend d.previous)
    (hm : ∀ m ∈ n.children, m ∈ ns) : Spans cs lo n d :=
  spans_previous hn (ha.mono h.2) hd fun m hmem =>
    (h.1 m (hm m hmem)).mono (.refl _) (ha.le_front hc)

/-- Nodes that stand for one node. -/
theorem SpansAll.spans_group {ss : List Node} (locals : List Declaration)
    (h : SpansAll cs c ss d) (ha : Begun cs lo a c) (hc : c.OnText cs) (hd : d.OnText cs) :
    (∀ s, ss = [s] → Spans cs lo s d) ∧
      ∀ t : Tag, t.place = a.extend d.previous → Spans cs lo (.block t ss locals) d := by
  refine ⟨?_, fun t ht => h.spans ha hc hd ht fun _ hm => hm⟩
  rintro s rfl
  exact (h.1 s (List.mem_singleton_self s)).mono (.refl _) (Nat.le_trans ha.lower (ha.le_front hc))

theorem spansAll_nil (hcd : Leads c d) : SpansAll cs c [] d :=
  ⟨by simp, hcd⟩

theorem spansAll_one (h : Spans cs c.front n d) (hc : c.OnText cs) (hd : d.OnText cs) :
    SpansAll cs c [n] d :=
  ⟨by simpa using h, h.leads hc hd⟩

/-- Behind a node more nodes have been read. -/
theorem SpansAll.cons {e : Cursor} {ns : List Node} (hn : Spans cs c.front n d)
    (hc : c.OnText cs) (hd : d.OnText cs) (hns : SpansAll cs d ns e) :
    SpansAll cs c (n :: ns) e := by
  have hns' := hns.after (hn.leads hc hd)
  refine ⟨fun m hm => ?_, hns'.2⟩
  rcases List.mem_cons.1 hm with rfl | hm
  · exact hn.mono hns.2 (Nat.le_refl _)
  · exact hns'.1 m hm

/-! ## The grammar -/

/-- With the given fuel every reader of the grammar reads nodes that stand where they say. -/
structure Locates (cs : List Char) (fuel : Nat) : Prop where
  expression : ∀ p power, (expression fuel power).Ensures p fun n q =>
    Retains cs p q (Occupies cs power p.cursor n q.cursor)
  operations : ∀ p power left, (operations fuel power left).Ensures p fun n q =>
    Retains cs p q (Continued cs left p.cursor n q.cursor)
  operand : ∀ p power, (operand fuel power).Ensures p (fun _ q => q.failed = true) fun n q =>
    Retains cs p q (Occupies cs power p.cursor n q.cursor)
  operation : ∀ p left, (operation fuel left).Ensures p (fun _ q => q.failed = true) fun n q =>
    Retains cs p q (Prolongs cs left p.cursor n q.cursor)
  arguments : ∀ p, (arguments fuel).Ensures p (fun _ q => q.failed = true) fun as q =>
    Retains cs p q (SpansAll cs p.cursor as q.cursor)
  argumentList : ∀ p, (argumentList fuel).Ensures p (fun _ q => q.failed = true) fun as q =>
    Retains cs p q (SpansAll cs p.cursor as q.cursor)
  named : ∀ p s, p.cursor.current.kind = .identifier →
    (named fuel p.cursor.current.place s).Ensures p (fun _ q => q.failed = true) fun n q =>
      Retains cs p q (Spans cs p.cursor.front n q.cursor)
  condition : ∀ p, (condition fuel).Ensures p (fun _ q => q.failed = true) fun n q =>
    Retains cs p q (Spans cs p.cursor.front n q.cursor)
  ifStatement : ∀ p, p.cursor.current.kind = .identifier →
    (ifStatement fuel p.cursor.current.place).Ensures p (fun _ q => q.failed = true) fun n q =>
      Retains cs p q (Spans cs p.cursor.front n q.cursor)
  whileStatement : ∀ p, p.cursor.current.kind = .identifier →
    (whileStatement fuel p.cursor.current.place).Ensures p (fun _ q => q.failed = true) fun n q =>
      Retains cs p q (Spans cs p.cursor.front n q.cursor)
  doStatement : ∀ p, p.cursor.current.kind = .identifier →
    (doStatement fuel p.cursor.current.place).Ensures p (fun _ q => q.failed = true) fun n q =>
      Retains cs p q (Spans cs p.cursor.front n q.cursor)
  declarators : ∀ p, (declarators fuel).Ensures p (fun _ q => q.failed = true) fun ns q =>
    Retains cs p q (SpansAll cs p.cursor ns q.cursor)
  function : ∀ p, p.cursor.current.kind = .identifier →
    (function fuel p.cursor.current.place).Ensures p (fun _ q => q.failed = true) fun n q =>
      Retains cs p q (Spans cs p.cursor.front n q.cursor)
  functionParts : ∀ p, (functionParts fuel).Ensures p (fun _ q => q.failed = true) fun parts q =>
    Retains cs p q (Spans cs p.cursor.front parts.2 q.cursor)
  parameters : ∀ p, (parameters fuel).Ensures p (fun _ q => q.failed = true) fun _ q =>
    Retains cs p q (Leads p.cursor q.cursor)
  returnStatement : ∀ p, p.cursor.current.kind = .identifier →
    (returnStatement fuel p.cursor.current.place).Ensures p (fun _ q => q.failed = true) fun n q =>
      Retains cs p q (Spans cs p.cursor.front n q.cursor)
  block : ∀ p place lo, (block fuel place).Ensures p fun n q =>
    Retains cs p q (Begun cs lo place p.cursor → Spans cs lo n q.cursor)
  statement : ∀ p, (statement fuel).Ensures p fun n q =>
    Retains cs p q (Spans cs p.cursor.front n q.cursor)
  statements : ∀ p closing, (∀ k ∈ closing, Token.Kind.isLast k = false) →
    (statements fuel closing).Ensures p fun ns q =>
      Retains cs p q (SpansAll cs p.cursor ns q.cursor)

theorem locates_zero : Locates cs 0 where
  expression _ _ := ensures_outOfFuel
  operations _ _ _ := ensures_outOfFuel
  operand _ _ := ensures_lift ensures_outOfFuel
  operation _ _ := ensures_lift ensures_outOfFuel
  arguments _ := ensures_lift ensures_outOfFuel
  argumentList _ := ensures_lift ensures_outOfFuel
  named _ _ _ := ensures_lift ensures_outOfFuel
  condition _ := ensures_lift ensures_outOfFuel
  ifStatement _ _ := ensures_lift ensures_outOfFuel
  whileStatement _ _ := ensures_lift ensures_outOfFuel
  doStatement _ _ := ensures_lift ensures_outOfFuel
  declarators _ := ensures_lift ensures_outOfFuel
  function _ _ := ensures_lift ensures_outOfFuel
  functionParts _ := ensures_lift ensures_outOfFuel
  parameters _ := ensures_lift ensures_outOfFuel
  returnStatement _ _ := ensures_lift ensures_outOfFuel
  block _ _ _ := ensures_outOfFuel
  statement _ := ensures_outOfFuel
  statements _ _ _ := ensures_outOfFuel

namespace Locates

variable (ih : Locates cs fuel)
include ih

/-! ### Expressions -/

theorem expression_succ (p : Parser) :
    (Parser.expression (fuel + 1) power).Ensures p fun n q =>
      Retains cs p q (Occupies cs power p.cursor n q.cursor) := by
  rw [Parser.expression]
  refine .bind (ensures_kind fun k => ?_)
  split
  · exact tells_unexpected.mono fun n q hn => retains_of_failed hn.1
  · refine .bind (ensures_orError ((ih.operand p power).mono (fun n q hn => ?_) fun n q hn => ?_))
    · exact (ih.operations q power n).mono fun m r hr => hr.after_failed hn
    · refine (ih.operations q power n).mono fun m r hr => (hn.trans hr).mono ?_
      rintro - - ⟨h₁, -, h₂⟩
      exact h₁.continued h₂

theorem operations_succ (p : Parser) :
    (Parser.operations (fuel + 1) power left).Ensures p fun n q =>
      Retains cs p q (Continued cs left p.cursor n q.cursor) := by
  rw [Parser.operations]
  refine .bind (ensures_current (.bind (ensures_hasFailed ?_)))
  split
  · rename_i hc
    refine .bind (ensures_orError ((ih.operation p left).mono (fun n q hn => ?_) fun n q hn => ?_))
    · exact (ih.operations q power n).mono fun m r hr => hr.after_failed hn
    · refine (ih.operations q power n).mono fun m r hr => (hn.trans hr).mono ?_
      rintro - - ⟨h₁, -, h₂⟩
      refine ⟨fun lo hl => h₂.1 lo (h₁ lo hl), fun hk => ?_⟩
      simp [hk, continues] at hc
  · exact ensures_pure (Retains.refl fun _ => ⟨fun _ h => h, fun _ => ⟨rfl, rfl⟩⟩)

/-- An expression that may not be an error node. -/
theorem valid_expression {α : Type} {Q : α → Parser → Prop} {f : Node → Attempt α}
    (hQ : ∀ n r, Retains cs q r (Occupies cs power q.cursor n r.cursor) →
      (f n).Ensures r (fun _ q => q.failed = true) Q) :
    Attempt.Ensures (do f (← valid (← Parser.expression fuel power))) q
      (fun _ q => q.failed = true) Q :=
  .bind (ensures_lift ((ensures_and (ih.expression q power) ((candid fuel).expression q power)).mono
    fun n r hr => .bind (ensures_valid (fun _ => hQ n r hr.1) fun hn => (hr.2.broken hn).1)))

theorem operand_succ (p : Parser) :
    (Parser.operand (fuel + 1) power).Ensures p (fun _ q => q.failed = true) fun n q =>
      Retains cs p q (Occupies cs power p.cursor n q.cursor) := by
  rw [Parser.operand]
  refine .bind (ensures_lift (ensures_place (.bind (ensures_get ?_))))
  dsimp only
  have literal : ∀ v : Value, p.cursor.current.kind.isLast = false → Attempt.Ensures (do
      forward
      Reading.node p.cursor.current.place (.constant · v)) p (fun _ q => q.failed = true)
        fun n q => Retains cs p q (Occupies cs power p.cursor n q.cursor) := by
    intro v hl
    refine .bind (ensures_lift (retains_next cs hl fun q hq => ensures_lift (ensures_node ?_)))
    exact hq.mono fun hp _ hprev => .inl (spans_token rfl rfl (begun_of_passed hp hprev))
  have adjusted : ∀ change, p.cursor.current.kind.isLast = false → Attempt.Ensures (do
      forward
      let n ← valid (← Parser.expression fuel unaryPower)
      if n.isAssignable then Reading.node (← spanFrom p.cursor.current.place) (.adjust · change n)
      else fail (errorAt n.place notAdjustable)) p (fun _ q => q.failed = true)
        fun n q => Retains cs p q (Occupies cs power p.cursor n q.cursor) := by
    intro change hl
    refine .bind (ensures_lift (retains_next cs hl fun q hq => ?_))
    refine ih.valid_expression fun n q₁ h₁ => ?_
    split
    · refine retains_spanned ((hq.trans h₁).mono ?_)
      rintro hp hd ⟨hprev, hon, hn⟩ t ht
      have hall := spansAll_one (hn.spans (by decide)) hon hd
      exact .inl (hall.spans (begun_of_passed hp hprev) hon hd ht fun _ hm => hm)
    · exact ensures_fail (tells_errorAt.mono fun _ _ hn => hn.1)
  split
  · rename_i hk
    exact literal _ (by rw [hk]; rfl)
  · rename_i hk
    exact literal _ (by rw [hk]; rfl)
  · exact ensures_fail (tells_errorAt.mono fun _ _ hn => hn.1)
  · rename_i hk
    exact adjusted _ (by rw [hk]; rfl)
  · rename_i hk
    exact adjusted _ (by rw [hk]; rfl)
  · rename_i hk
    exact (ih.named p _ hk).mono (fun _ _ hn => hn) fun _ _ h => h.mono fun _ _ h => .inl h
  · rename_i hk
    refine .bind (ensures_lift (retains_next cs (by rw [hk]; rfl) fun q hq => ?_))
    refine ih.valid_expression fun n q₁ h₁ => ?_
    refine .bind (retains_expect cs rfl fun q₂ h₂ => Attempt.ensures_pure ?_)
    refine (hq.trans (h₁.trans h₂)).mono ?_
    rintro hp hd ⟨hprev, hon, hn, hon₁, hk₁, hprev₁⟩
    have hn := hn.spans_of_ne (by simp [hk₁])
    have ha := begun_of_passed hp hprev
    exact .inl (hn.mono (leads_of_previous hon₁ hd hprev₁) (ha.le_front hon))
  · rename_i hk
    refine .bind (ensures_lift (retains_next cs (by rw [hk]; rfl) fun q hq => ?_))
    refine ensures_lift ((ih.block q _ p.cursor.front).mono fun n q₁ h₁ => ?_)
    refine (hq.trans h₁).mono ?_
    rintro hp - ⟨hprev, -, hn⟩
    exact .inl (hn (begun_of_passed hp hprev))
  · split
    · rename_i op hop
      refine .bind (ensures_lift (retains_next cs (next_of_unary hop).1 fun q hq => ?_))
      refine .bind (ensures_lift ((ih.expression q _).mono fun n q₁ h₁ => ?_))
      refine retains_spanned ((hq.trans h₁).mono ?_)
      rintro hp hd ⟨hprev, hon, hn⟩ t ht
      have hall := spansAll_one (hn.spans (by decide)) hon hd
      exact .inl (hall.spans (begun_of_passed hp hprev) hon hd ht fun _ hm => hm)
    · split
      · rename_i hs
        simp only [Bool.and_eq_true, decide_eq_true_eq] at hs
        refine ensures_lift (ensures_node (Retains.refl (p := p) fun hp => ?_))
        exact .inr ⟨hs.2, rfl, hs.1, located_iff.2 ⟨hp.current, by simp [children]⟩, rfl⟩
      · exact ensures_fail (tells_unexpected.mono fun _ _ hn => hn.1)

omit ih in
theorem power_ne_zero (op : BinaryOp) :
    (if op.isLogical then rightPower (.binary op) else Token.Kind.precedence (.binary op)) ≠ 0 := by
  cases op with
  | arith o | comparison o | connective o => cases o <;> decide

theorem operation_succ (p : Parser) :
    (Parser.operation (fuel + 1) left).Ensures p (fun _ q => q.failed = true) fun n q =>
      Retains cs p q (Prolongs cs left p.cursor n q.cursor) := by
  rw [Parser.operation]
  refine .bind (ensures_lift (ensures_current ?_))
  have assigned : ∀ {α : Type} {Q : α → Parser → Prop} {x : Attempt α} {message : String},
      x.Ensures p (fun _ q => q.failed = true) Q →
      (if left.isAssignable then x else fail (errorAt left.place message)).Ensures p
        (fun _ q => q.failed = true) Q := by
    intro α Q x message hx
    split
    · exact hx
    · exact ensures_fail (tells_errorAt.mono fun _ _ hn => hn.1)
  have adjusted : ∀ change, p.cursor.current.kind.isLast = false → Attempt.Ensures (do
      if left.isAssignable then
        forward
        Reading.node (← spanFrom left.place) (.adjust · change left)
      else fail (errorAt left.place notAdjustable)) p (fun _ q => q.failed = true) fun n q =>
        Retains cs p q (Prolongs cs left p.cursor n q.cursor) := by
    intro change hl
    refine assigned (.bind (ensures_lift (retains_next cs hl fun q hq => ?_)))
    refine retains_spanned (hq.mono ?_)
    rintro hp hd hprev t ht lo hl
    refine spans_previous ht (hl.begun hp (passed_of_previous hprev) hd) hd ?_
    simpa [children] using hl.child hp (passed_of_previous hprev) hd
  split
  · rename_i op hk
    refine .bind (ensures_lift (retains_next cs (by rw [hk]; rfl) fun q hq => ?_))
    refine .bind (ensures_lift ((ih.expression q _).mono fun n q₁ h₁ => ?_))
    refine ensures_lift (ensures_node ((hq.trans h₁).mono ?_))
    rintro hp hd ⟨hprev, hon, hn⟩ lo hl
    have hn := hn.spans (by rw [hk]; exact power_ne_zero op)
    refine spans_operands rfl hl.located (hl.begun hp (passed_of_previous hprev) hon) hon hd hn ?_
    simpa [children] using .inr ⟨hn.located, hn.lower⟩
  · rename_i hk
    refine .bind (ensures_lift (retains_next cs (by rw [hk]; rfl) fun q hq => ?_))
    refine .bind (retains_takeNameOr cs fun s q₁ h₁ => retains_spanned ((hq.trans h₁).mono ?_))
    rintro hp hd ⟨hprev, hon, hk₁, hprev₁⟩ t ht lo hl
    have hle := leads_of_previous hon hd hprev₁
    have hpassed : p.cursor.front ≤ q₁.cursor.rear.start :=
      Nat.le_trans (passed_of_previous hprev) hle.start
    refine spans_previous ht (hl.begun hp hpassed hd) hd ?_
    simpa [children] using hl.child hp hpassed hd
  · rename_i hk
    refine .bind (ensures_lift (retains_next cs (by rw [hk]; rfl) fun q hq => ?_))
    refine ih.valid_expression fun n q₁ h₁ => ?_
    refine .bind (retains_expect cs rfl fun q₂ h₂ => ?_)
    refine retains_spanned ((hq.trans (h₁.trans h₂)).mono ?_)
    rintro hp hd ⟨hprev, hon, hn, hon₁, hk₁, hprev₁⟩ t ht lo hl
    have hn := hn.spans_of_ne (by simp [hk₁])
    have hle := (hn.leads hon hon₁).trans (leads_of_previous hon₁ hd hprev₁)
    have ha := hl.begun hp (passed_of_previous hprev) hon
    refine spans_previous ht (ha.mono hle) hd ?_
    simp only [children, List.mem_cons, List.not_mem_nil, or_false, forall_eq_or_imp, forall_eq]
    exact ⟨(hl.child hp (passed_of_previous hprev) hon).mono hle (Nat.le_refl _),
      hn.mono (leads_of_previous hon₁ hd hprev₁) (ha.le_front hon)⟩
  · rename_i hk
    refine .bind (ensures_lift (retains_next cs (by rw [hk]; rfl) fun q hq => ?_))
    refine .bind ((ih.arguments q).mono (fun _ _ hn => hn) fun as q₁ h₁ => ?_)
    refine retains_spanned ((hq.trans h₁).mono ?_)
    rintro hp hd ⟨hprev, hon, has, hle⟩ t ht lo hl
    have ha := hl.begun hp (passed_of_previous hprev) hon
    refine spans_previous ht (ha.mono hle) hd ?_
    simp only [children, List.mem_cons, forall_eq_or_imp]
    exact ⟨(hl.child hp (passed_of_previous hprev) hon).mono hle (Nat.le_refl _),
      fun m hm => (has m hm).mono (.refl _) (ha.le_front hon)⟩
  · rename_i hk
    refine .bind (ensures_lift (retains_next cs (by rw [hk]; rfl) fun q hq => ?_))
    refine ih.valid_expression fun n q₁ h₁ => ?_
    refine .bind (retains_expect cs rfl fun q₂ h₂ => ?_)
    refine .bind (ensures_lift ((ih.expression q₂ _).mono fun b q₃ h₃ => ?_))
    refine ensures_lift (ensures_node ((hq.trans (h₁.trans (h₂.trans h₃))).mono ?_))
    rintro hp hd ⟨hprev, hon, hn, hon₁, ⟨hk₁, hprev₁⟩, hon₂, hb⟩ lo hl
    have hn := hn.spans_of_ne (by simp [hk₁])
    have hb := hb.spans (by rw [hk]; decide)
    have ha := hl.begun hp (passed_of_previous hprev) hon
    -- The condition lies between the operand on the left and the last one.
    have hle := (hn.leads hon hon₁).trans (leads_of_previous hon₁ hon₂ hprev₁)
    have hnb : n.place.span.stop ≤ b.place.span.stop := by
      have := hn.ends
      have := (leads_of_previous hon₁ hon₂ hprev₁).stop
      have := hon₂.gap
      have := hb.lower
      have := hb.exact.ordered
      omega
    refine spans_operands rfl hl.located ha hon hd (hb.mono (.refl _) hle.front) ?_
    simp only [children, List.mem_cons, List.not_mem_nil, or_false, forall_eq_or_imp, forall_eq]
    exact ⟨.inl trivial, .inr ⟨hn.located, hn.lower, hnb⟩,
      .inr ⟨hb.located, Nat.le_trans hle.front hb.lower, Nat.le_refl _⟩⟩
  · rename_i hk
    refine assigned (.bind (ensures_lift (retains_next cs (by rw [hk]; rfl) fun q hq => ?_)))
    refine .bind (ensures_lift ((ih.expression q _).mono fun n q₁ h₁ => ?_))
    refine ensures_lift (ensures_node ((hq.trans h₁).mono ?_))
    rintro hp hd ⟨hprev, hon, hn⟩ lo hl
    have hn := hn.spans (by rw [hk]; decide)
    refine spans_operands rfl hl.located (hl.begun hp (passed_of_previous hprev) hon) hon hd hn ?_
    simpa [children] using .inr ⟨hn.located, hn.lower⟩
  · rename_i op hk
    refine assigned (.bind (ensures_lift (retains_next cs (by rw [hk]; rfl) fun q hq => ?_)))
    refine .bind (ensures_lift ((ih.expression q _).mono fun n q₁ h₁ => ?_))
    refine .bind (ensures_lift (ensures_node (ensures_lift (ensures_node ?_))))
    refine (hq.trans h₁).mono ?_
    rintro hp hd ⟨hprev, hon, hn⟩ lo hl
    have hn := hn.spans (by rw [hk]; cases op <;> decide)
    have ha := hl.begun hp (passed_of_previous hprev) hon
    -- The computation begins where its target does, which the assignment has as well.
    have hv : Spans cs left.place.span.start
        (.binary ⟨q₁.next, left.place.extend n.place⟩ (.arith op) left n) q₁.cursor := by
      refine spans_operands rfl hl.located { ha with lower := Nat.le_refl _ } hon hd hn ?_
      simpa [children] using .inr ⟨hn.located, hn.lower⟩
    refine spans_extend rfl (ha.mono (hn.leads hon hd)) hd hv.lower hv.ends ?_
    simp only [children, List.mem_cons, List.not_mem_nil, or_false, forall_eq_or_imp, forall_eq]
    exact ⟨⟨hl.located, Nat.le_refl _, Nat.le_max_left _ _⟩,
      hv.located, hv.lower, Nat.le_max_right _ _⟩
  · rename_i hk
    exact adjusted _ (by rw [hk]; rfl)
  · rename_i hk
    exact adjusted _ (by rw [hk]; rfl)
  · exact ensures_fail (tells_unexpected.mono fun _ _ hn => hn.1)

theorem arguments_succ (p : Parser) :
    (Parser.arguments (fuel + 1)).Ensures p (fun _ q => q.failed = true) fun as q =>
      Retains cs p q (SpansAll cs p.cursor as q.cursor) := by
  rw [Parser.arguments]
  refine .bind (ensures_lift (retains_accept cs rfl (fun q hq => ?_) fun _ => ?_))
  · refine Attempt.ensures_pure (hq.mono ?_)
    rintro hp hd ⟨-, hprev⟩
    exact spansAll_nil (leads_of_previous hp hd hprev)
  · refine .bind ((ih.argumentList p).mono (fun _ _ hn => hn) fun as q h₁ => ?_)
    refine .bind (retains_expect cs rfl fun q₁ h₂ => Attempt.ensures_pure ((h₁.trans h₂).mono ?_))
    rintro - hd ⟨has, hon, -, hprev⟩
    exact has.mono (leads_of_previous hon hd hprev)

theorem argumentList_succ (p : Parser) :
    (Parser.argumentList (fuel + 1)).Ensures p (fun _ q => q.failed = true) fun as q =>
      Retains cs p q (SpansAll cs p.cursor as q.cursor) := by
  rw [Parser.argumentList]
  refine ih.valid_expression fun a q ha => ?_
  have ha : Retains cs p q (Spans cs p.cursor.front a q.cursor) := ha.mono fun _ _ ha =>
    ha.spans (by decide)
  refine .bind (ensures_lift (retains_accept cs rfl (fun q₁ h₁ => ?_) fun _ => ?_))
  · refine .bind ((ih.argumentList q₁).mono (fun _ _ hn => hn) fun as q₂ h₂ => ?_)
    refine Attempt.ensures_pure ((ha.trans (h₁.trans h₂)).mono ?_)
    rintro hp - ⟨ha, hon, ⟨-, hprev⟩, hon₁, has⟩
    have hle := leads_of_previous hon hon₁ hprev
    exact .cons (ha.mono hle (Nat.le_refl _)) hp hon₁ has
  · exact Attempt.ensures_pure (ha.mono fun hp hd ha => spansAll_one ha hp hd)

/-! ### Statements -/

theorem condition_succ (p : Parser) :
    (Parser.condition (fuel + 1)).Ensures p (fun _ q => q.failed = true) fun n q =>
      Retains cs p q (Spans cs p.cursor.front n q.cursor) := by
  rw [Parser.condition]
  refine .bind (retains_expect cs rfl fun q hq => ?_)
  refine ih.valid_expression fun n q₁ h₁ => ?_
  refine .bind (retains_expect cs rfl fun q₂ h₂ => Attempt.ensures_pure ?_)
  refine (hq.trans (h₁.trans h₂)).mono ?_
  rintro hp hd ⟨⟨-, hprev⟩, hon, hn, hon₁, hk₁, hprev₁⟩
  have hn := hn.spans_of_ne (by simp [hk₁])
  exact hn.mono (leads_of_previous hon₁ hd hprev₁) ((begun_of_passed hp hprev).le_front hon)

theorem ifStatement_succ (p : Parser) (hk : p.cursor.current.kind = .identifier) :
    (Parser.ifStatement (fuel + 1) p.cursor.current.place).Ensures p (fun _ q => q.failed = true)
      fun n q => Retains cs p q (Spans cs p.cursor.front n q.cursor) := by
  rw [Parser.ifStatement]
  refine retains_opened cs hk fun q hq => ?_
  refine .bind ((ih.condition q).mono (fun _ _ hn => hn) fun c q₁ hc => ?_)
  refine .bind (ensures_lift ((ih.statement q₁).mono fun a q₂ ha => ?_))
  have hca := hc.trans ha
  refine .bind (ensures_lift (Reading.Ensures.mono (Q := fun _ q₃ =>
    Retains cs q₂ q₃ (Leads q₂.cursor q₃.cursor)) ?_ fun otherwise q₃ h₃ => ?_))
  · refine .bind (ensures_hasFailed ?_)
    split
    · exact ensures_pure (Retains.refl fun _ => .refl _)
    · refine retains_acceptName cs (fun q₃ h₃ => h₃.mono ?_) (Retains.refl fun _ => .refl _)
      rintro hp hd ⟨-, hprev⟩
      exact leads_of_previous hp hd hprev
  · split
    · refine .bind (ensures_lift ((ih.statement q₃).mono fun b q₄ hb => ?_))
      refine retains_spanned ((hq.trans (hca.trans (h₃.trans hb))).mono ?_)
      rintro - hd ⟨hs, hon, ⟨hc, hon₁, ha⟩, hon₂, hle, hon₃, hb⟩ t ht
      have hall : SpansAll cs q.cursor [c, a, b] q₄.cursor :=
        .cons hc hon hon₁ (.cons ha hon₁ hon₂ ((spansAll_one hb hon₃ hd).after hle))
      exact hall.spans hs hon hd ht fun _ hm => hm
    · refine retains_spanned ((hq.trans (hca.trans h₃)).mono ?_)
      rintro - hd ⟨hs, hon, ⟨hc, hon₁, ha⟩, hon₂, hle⟩ t ht
      have hall : SpansAll cs q.cursor [c, a] q₃.cursor :=
        .cons hc hon hon₁ (.cons ha hon₁ hon₂ (spansAll_nil hle))
      exact hall.spans hs hon hd ht fun _ hm => hm

theorem whileStatement_succ (p : Parser) (hk : p.cursor.current.kind = .identifier) :
    (Parser.whileStatement (fuel + 1) p.cursor.current.place).Ensures p
      (fun _ q => q.failed = true) fun n q =>
        Retains cs p q (Spans cs p.cursor.front n q.cursor) := by
  rw [Parser.whileStatement]
  refine retains_opened cs hk fun q hq => ?_
  refine .bind ((ih.condition q).mono (fun _ _ hn => hn) fun c q₁ hc => ?_)
  refine .bind (ensures_lift ((ih.statement q₁).mono fun b q₂ hb => ?_))
  refine retains_spanned ((hq.trans (hc.trans hb)).mono ?_)
  rintro - hd ⟨hs, hon, hc, hon₁, hb⟩ t ht
  have hall : SpansAll cs q.cursor [c, b] q₂.cursor :=
    .cons hc hon hon₁ (spansAll_one hb hon₁ hd)
  exact hall.spans hs hon hd ht fun _ hm => hm

theorem doStatement_succ (p : Parser) (hk : p.cursor.current.kind = .identifier) :
    (Parser.doStatement (fuel + 1) p.cursor.current.place).Ensures p (fun _ q => q.failed = true)
      fun n q => Retains cs p q (Spans cs p.cursor.front n q.cursor) := by
  rw [Parser.doStatement]
  refine retains_opened cs hk fun q hq => ?_
  refine .bind (ensures_lift ((ensures_and (ih.statement q) ((candid fuel).statement q)).mono
    fun b q₁ hb => ?_))
  refine .bind (ensures_valid (fun _ => ?_) fun hn => (hb.2.broken hn).1)
  refine .bind (ensures_lift (retains_acceptName cs (fun q₂ h₂ => ?_) ?_))
  · refine .bind ((ih.condition q₂).mono (fun _ _ hn => hn) fun c q₃ hc => ?_)
    refine retains_spanned ((hq.trans (hb.1.trans (h₂.trans hc))).mono ?_)
    rintro - hd ⟨hs, hon, hb, hon₁, ⟨-, hprev⟩, hon₂, hc⟩ t ht
    have hall : SpansAll cs q.cursor [b, c] q₃.cursor := .cons hb hon hon₁
      ((spansAll_one hc hon₂ hd).after (leads_of_previous hon₁ hon₂ hprev))
    exact hall.spans hs hon hd ht (by simp [children, or_comm])
  · exact ensures_fail (tells_unexpected.mono fun _ _ hn => hn.1)

theorem returnStatement_succ (p : Parser) (hk : p.cursor.current.kind = .identifier) :
    (Parser.returnStatement (fuel + 1) p.cursor.current.place).Ensures p
      (fun _ q => q.failed = true) fun n q =>
        Retains cs p q (Spans cs p.cursor.front n q.cursor) := by
  rw [Parser.returnStatement]
  refine retains_opened cs hk fun q hq => .bind (ensures_lift (ensures_current ?_))
  have bare : Attempt.Ensures (do
      Reading.node (← spanFrom p.cursor.current.place) (.jump · .return)) q
        (fun _ q => q.failed = true) fun n q =>
          Retains cs p q (Spans cs p.cursor.front n q.cursor) :=
    retains_spanned (hq.mono fun _ hd hs t ht =>
      (spansAll_nil (.refl _)).spans hs hd hd ht fun _ hm => hm)
  split
  · exact bare
  · exact bare
  · exact bare
  · rename_i hne _ _
    refine ih.valid_expression fun v q₁ hv => retains_spanned ((hq.trans hv).mono ?_)
    rintro - hd ⟨hs, hon, hv⟩ t ht
    -- An empty statement does not stand here, for its semicolon would end the `return`.
    have hv := hv.resolve_right fun hn => hne hn.2.semicolon
    exact (spansAll_one hv hon hd).spans hs hon hd ht fun _ hm => hm

theorem statement_succ (p : Parser) :
    (Parser.statement (fuel + 1)).Ensures p fun n q =>
      Retains cs p q (Spans cs p.cursor.front n q.cursor) := by
  rw [Parser.statement]
  refine .bind ((ih.expression p 0).mono fun n q hn => ?_)
  refine .bind (retains_accept cs rfl (fun q₁ h₁ => ?_) fun hne => ?_)
  · refine ensures_pure ((hn.trans h₁).mono ?_)
    rintro hp hd ⟨hn | ⟨-, hv⟩, hon, -, hprev⟩
    · exact hn.mono (leads_of_previous hon hd hprev) (Nat.le_refl _)
    · -- The semicolon of an empty statement is passed now.
      rw [hv.cursor] at hprev
      have ha := begun_of_passed hp hprev
      rw [← hv.place] at ha
      exact ⟨hv.located, ha.lower, ha.stop, passed_of_previous hprev⟩
  · exact ensures_pure (hn.mono fun _ _ h => h.spans_of_ne hne)

theorem statements_succ (p : Parser) (closing : Option Token.Kind)
    (hc : ∀ k ∈ closing, Token.Kind.isLast k = false) :
    (Parser.statements (fuel + 1) closing).Ensures p fun ns q =>
      Retains cs p q (SpansAll cs p.cursor ns q.cursor) := by
  unfold Parser.statements
  refine .bind (ensures_hasFailed ?_)
  split
  · rename_i hf
    exact ensures_pure (retains_of_failed hf)
  · refine .bind (Reading.Ensures.mono (Q := fun closed q =>
      Retains cs p q (Leads p.cursor q.cursor)) ?_ fun closed q hq => ?_)
    · cases closing with
      | some k =>
        refine retains_accept cs (hc k rfl) (fun q hq => hq.mono ?_) fun _ =>
          Retains.refl fun _ => .refl _
        rintro hp hd ⟨-, hprev⟩
        exact leads_of_previous hp hd hprev
      | none => exact .bind (ensures_kind fun _ => ensures_pure (Retains.refl fun _ => .refl _))
    · split
      · exact ensures_pure (hq.mono fun _ _ hle => spansAll_nil hle)
      · refine .bind ((ih.statement q).mono fun s q₁ h₁ => ?_)
        refine .bind ((ih.statements q₁ closing hc).mono fun ss q₂ h₂ => ensures_pure ?_)
        refine (hq.trans (h₁.trans h₂)).mono ?_
        rintro - - ⟨hle, hon, hs, hon₁, hss⟩
        exact (SpansAll.cons hs hon hon₁ hss).after hle

/-! ### Declarations, functions and blocks -/

theorem declarators_succ (p : Parser) :
    (Parser.declarators (fuel + 1)).Ensures p (fun _ q => q.failed = true) fun ns q =>
      Retains cs p q (SpansAll cs p.cursor ns q.cursor) := by
  rw [Parser.declarators]
  refine .bind (ensures_lift (ensures_place ?_))
  refine .bind (retains_takeNameOr cs fun s q hq => ?_)
  refine .bind (retains_declare cs fun d q₁ h₁ => ?_)
  refine .bind (ensures_lift (ensures_node ?_))
  have hbegun : Retains cs p q₁ (Begun cs p.cursor.front p.cursor.current.place q₁.cursor) := by
    refine (hq.trans h₁).mono ?_
    rintro hp - ⟨⟨-, hprev⟩, -, hsame⟩
    rw [hsame]
    exact begun_of_passed hp hprev
  refine .bind (ensures_lift (Reading.Ensures.mono
    (Q := fun n r => Retains cs p r (Spans cs p.cursor.front n r.cursor)) ?_ fun n r hn => ?_))
  · have target : ∀ c, Begun cs p.cursor.front p.cursor.current.place c →
        Spans cs p.cursor.front (.declare ⟨q₁.next, p.cursor.current.place⟩ d) c :=
      fun c ha => spans_token rfl rfl ha
    refine .bind (retains_accept cs (k := .assign) rfl (fun q₂ h₂ => ?_) fun _ => ?_)
    · refine .bind ((ih.expression q₂ _).mono fun v q₃ h₃ => ensures_node ?_)
      refine (hbegun.trans (Retains.trans (q := q₂) h₂ h₃)).mono ?_
      rintro hp hd ⟨ha, hon, ⟨-, hprev⟩, hon₂, hv⟩
      have ha := ha.mono (leads_of_previous hon hon₂ hprev)
      have hv := hv.spans (by decide)
      refine spans_operands rfl (target _ ha).located ha hon₂ hd hv ?_
      simpa [children] using .inr ⟨hv.located, hv.lower⟩
    · exact ensures_pure (hbegun.mono fun _ _ ha => target _ ha)
  · refine .bind (ensures_lift (Reading.Ensures.mono (Q := fun _ r₁ =>
      Retains cs r r₁ (Leads r.cursor r₁.cursor)) ?_ fun more r₁ h₁ => ?_))
    · refine .bind (ensures_hasFailed ?_)
      split
      · exact ensures_pure (Retains.refl fun _ => .refl _)
      · refine retains_accept cs rfl (fun r₁ h₁ => h₁.mono ?_) fun _ =>
          Retains.refl fun _ => .refl _
        rintro hp hd ⟨-, hprev⟩
        exact leads_of_previous hp hd hprev
    · have hn₁ : Retains cs p r₁ (Spans cs p.cursor.front n r₁.cursor) := by
        refine (hn.trans h₁).mono ?_
        rintro - - ⟨hn, -, hle⟩
        exact hn.mono hle (Nat.le_refl _)
      split
      · refine .bind ((ih.declarators r₁).mono (fun _ _ hn => hn) fun ns r₂ h₂ => ?_)
        refine Attempt.ensures_pure ((hn₁.trans h₂).mono ?_)
        rintro hp - ⟨hn, hon, hns⟩
        exact .cons hn hp hon hns
      · exact Attempt.ensures_pure (hn₁.mono fun hp hd hn => spansAll_one hn hp hd)

theorem parameters_succ (p : Parser) :
    (Parser.parameters (fuel + 1)).Ensures p (fun _ q => q.failed = true) fun _ q =>
      Retains cs p q (Leads p.cursor q.cursor) := by
  rw [Parser.parameters]
  refine .bind (ensures_lift (ensures_here fun place => ?_))
  refine .bind (retains_takeNameOr cs fun s q hq => ?_)
  refine .bind (retains_declare cs fun d q₁ h₁ => ?_)
  have hle : Retains cs p q₁ (Leads p.cursor q₁.cursor) := by
    refine (hq.trans h₁).mono ?_
    rintro hp - ⟨⟨-, hprev⟩, hd, hsame⟩
    rw [hsame]
    exact leads_of_previous hp hd hprev
  refine .bind (ensures_lift (retains_accept cs rfl (fun q₂ h₂ => ?_) fun _ => ?_))
  · refine .bind ((ih.parameters q₂).mono (fun _ _ hn => hn) fun ds q₃ h₃ => ?_)
    refine Attempt.ensures_pure ((hle.trans (h₂.trans h₃)).mono ?_)
    rintro - - ⟨hle, hon, ⟨-, hprev⟩, hon₂, hle'⟩
    exact hle.trans ((leads_of_previous hon hon₂ hprev).trans hle')
  · exact Attempt.ensures_pure hle

theorem block_succ (p : Parser) (place : Location) (lo : Nat) :
    (Parser.block (fuel + 1) place).Ensures p fun n q =>
      Retains cs p q (Begun cs lo place p.cursor → Spans cs lo n q.cursor) := by
  rw [Parser.block]
  refine .bind (ensures_modify ?_)
  refine .bind ((ih.statements _ _ (by simp [Token.Kind.isLast, Token.Kind.isError,
    Token.Kind.isEndOfInput])).mono fun ss q hss => ?_)
  have hss : Retains cs p q (SpansAll cs p.cursor ss q.cursor) := hss
  refine .bind (ensures_modifyGet ?_)
  have closed : ∀ x : List Declaration × Parser, x.2.cursor = q.cursor → x.2.failed = q.failed →
      Reading.Ensures (do blockOf (← spanFrom place) ss x.1) x.2 fun n r =>
        Retains cs p r (Begun cs lo place p.cursor → Spans cs lo n r.cursor) := by
    intro x hc hf
    refine .bind (.bind (ensures_get (Reading.ensures_pure ?_)))
    refine retains_blockOf (Q := fun n d => Begun cs lo place p.cursor → Spans cs lo n d) ?_
    refine (hss.of_same hc hf).mono fun hp hd hss => ?_
    rw [← hc] at hss
    have hgroup := fun ha : Begun cs lo place p.cursor => hss.spans_group x.1 ha hp hd
    exact ⟨fun s hs ha => (hgroup ha).1 s hs, fun t ht ha => (hgroup ha).2 t ht⟩
  split
  · exact closed _ rfl rfl
  · exact closed _ rfl rfl

theorem functionParts_succ (p : Parser) :
    (Parser.functionParts (fuel + 1)).Ensures p (fun _ q => q.failed = true) fun parts q =>
      Retains cs p q (Spans cs p.cursor.front parts.2 q.cursor) := by
  rw [Parser.functionParts]
  refine .bind (retains_expect cs rfl fun q hq => ?_)
  refine .bind (Attempt.Ensures.mono (E := fun _ q => q.failed = true)
    (Q := fun _ q₁ => Retains cs q q₁ (Leads q.cursor q₁.cursor)) ?_ (fun _ _ hn => hn)
    fun params q₁ h₁ => ?_)
  · refine .bind (ensures_lift (retains_accept cs rfl (fun q₁ h₁ => ?_) fun _ => ?_))
    · refine Attempt.ensures_pure (h₁.mono ?_)
      rintro hp hd ⟨-, hprev⟩
      exact leads_of_previous hp hd hprev
    · refine .bind ((ih.parameters q).mono (fun _ _ hn => hn) fun ps q₁ h₁ => ?_)
      refine .bind (retains_expect cs rfl fun q₂ h₂ => Attempt.ensures_pure ((h₁.trans h₂).mono ?_))
      rintro - hd ⟨hle, hon, -, hprev⟩
      exact hle.trans (leads_of_previous hon hd hprev)
  · refine .bind (ensures_lift (ensures_place ?_))
    refine .bind (retains_expect cs rfl fun q₂ h₂ => ?_)
    refine .bind (ensures_lift ((ih.block q₂ _ q₁.cursor.front).mono fun body q₃ h₃ => ?_))
    refine .bind (ensures_lift (ensures_hasFailed ?_))
    split
    · rename_i hf
      exact ensures_throw hf
    · refine Attempt.ensures_pure ((hq.trans (h₁.trans (h₂.trans h₃))).mono ?_)
      rintro hp - ⟨⟨-, hprev⟩, hon, hle, hon₁, ⟨-, hprev₁⟩, -, hbody⟩
      have hbody := hbody (begun_of_passed hon₁ hprev₁)
      exact hbody.mono (.refl _) ((leads_of_previous hp hon hprev).trans hle).front

theorem function_succ (p : Parser) (hk : p.cursor.current.kind = .identifier) :
    (Parser.function (fuel + 1) p.cursor.current.place).Ensures p (fun _ q => q.failed = true)
      fun n q => Retains cs p q (Spans cs p.cursor.front n q.cursor) := by
  rw [Parser.function]
  refine retains_opened cs hk fun q hq => ?_
  refine .bind (Attempt.Ensures.mono (E := fun _ q => q.failed = true)
    (Q := fun _ q₁ => Retains cs q q₁ (Leads q.cursor q₁.cursor)) ?_ (fun _ _ hn => hn)
    fun own q₁ h₁ => ?_)
  · refine .bind (ensures_lift (retains_takeName cs (fun s q₁ h₁ => ?_) ?_))
    · refine .bind (ensures_get (.bind (retains_declare cs fun d q₂ h₂ => ?_)))
      refine Attempt.ensures_pure ((h₁.trans h₂).mono ?_)
      rintro hp - ⟨⟨-, hprev⟩, hd, hsame⟩
      rw [hsame]
      exact leads_of_previous hp hd hprev
    · exact Attempt.ensures_pure (Retains.refl fun _ => .refl _)
  · refine .bind (ensures_lift (ensures_modify (.bind (ensures_lift (ensures_modify ?_)))))
    refine .bind (ensures_outcome ((ih.functionParts _).mono (fun n r hn => ?_)
      fun parts r hr => ?_))
    · refine .bind (ensures_lift (ensures_modifyGet (.bind (ensures_lift (ensures_modifyGet ?_)))))
      dsimp only
      refine ensures_throw ?_
      split <;> exact hn
    · refine .bind (ensures_lift (ensures_modifyGet (.bind (ensures_lift (ensures_modifyGet ?_)))))
      dsimp only
      have hr : Retains cs q₁ r (Spans cs q₁.cursor.front parts.2 r.cursor) := hr
      have hbody : Retains cs p r (Begun cs p.cursor.front p.cursor.current.place r.cursor ∧
          Spans cs p.cursor.current.place.span.start parts.2 r.cursor) := by
        refine (hq.trans (h₁.trans hr)).mono ?_
        rintro - hd ⟨ha, hon, hle, hon₁, hb⟩
        have ha₁ := ha.mono hle
        exact ⟨ha₁.mono (hb.leads hon₁ hd), hb.mono (.refl _) (ha₁.le_front hon₁)⟩
      have closed : ∀ (r' : Parser) (code : Lambda), code.body = parts.2 →
          r'.cursor = r.cursor → r'.failed = r.failed → Attempt.Ensures (do
            Reading.node (← spanFrom p.cursor.current.place) (.function · code)) r'
              (fun _ q => q.failed = true) fun n q =>
                Retains cs p q (Spans cs p.cursor.front n q.cursor) := by
        intro r' code hcode hc hf
        refine retains_spanned ((hbody.of_same hc hf).mono ?_)
        rintro - hd ⟨ha, hb⟩ t ht
        rw [← hc] at ha hb
        refine spans_previous ht ha hd ?_
        simpa [children, hcode] using hb
      exact closed _ _ rfl (by split <;> rfl) (by split <;> rfl)

theorem named_succ (p : Parser) (s : String) (hk : p.cursor.current.kind = .identifier) :
    (Parser.named (fuel + 1) p.cursor.current.place s).Ensures p (fun _ q => q.failed = true)
      fun n q => Retains cs p q (Spans cs p.cursor.front n q.cursor) := by
  unfold Parser.named
  have leaf : ∀ build : Tag → Node, (∀ t, (build t).place = t.place ∧ (build t).children = []) →
      Attempt.Ensures (do forward; Reading.node p.cursor.current.place build) p
        (fun _ q => q.failed = true) fun n q =>
          Retains cs p q (Spans cs p.cursor.front n q.cursor) := by
    intro build hb
    refine retains_opened cs hk fun q hq => ensures_lift (ensures_node ?_)
    exact hq.mono fun _ _ ha => spans_token (hb _).1 (hb _).2 ha
  split
  · exact leaf _ fun _ => ⟨rfl, rfl⟩
  · split
    · exact ih.ifStatement p hk
    · exact ih.whileStatement p hk
    · exact ih.doStatement p hk
    · refine retains_opened cs hk fun q hq => ?_
      refine .bind ((ih.declarators q).mono (fun _ _ hn => hn) fun ds q₁ h₁ => ?_)
      refine .bind (ensures_lift (.bind (ensures_get (Reading.ensures_pure ?_))))
      refine ensures_lift (retains_blockOf ((hq.trans h₁).mono ?_))
      rintro - hd ⟨ha, hon, hds⟩
      exact hds.spans_group [] ha hon hd
    · exact ih.function p hk
    · exact leaf _ fun _ => ⟨rfl, rfl⟩
    · exact leaf _ fun _ => ⟨rfl, rfl⟩
    · exact ih.returnStatement p hk
    · exact ensures_fail (tells_errorAt.mono fun _ _ hn => hn.1)
    · refine retains_opened cs hk fun q hq => ensures_lift ?_
      unfold nameNode
      refine .bind (ensures_get ?_)
      split
      · refine .bind (ensures_modify (ensures_node ?_))
        exact hq.mono fun _ _ ha => spans_token rfl rfl ha
      · exact ensures_node (hq.mono fun _ _ ha => spans_token rfl rfl ha)

theorem succ : Locates cs (fuel + 1) where
  expression p _ := ih.expression_succ p
  operations p _ _ := ih.operations_succ p
  operand p _ := ih.operand_succ p
  operation p _ := ih.operation_succ p
  arguments p := ih.arguments_succ p
  argumentList p := ih.argumentList_succ p
  named p s hk := ih.named_succ p s hk
  condition p := ih.condition_succ p
  ifStatement p hk := ih.ifStatement_succ p hk
  whileStatement p hk := ih.whileStatement_succ p hk
  doStatement p hk := ih.doStatement_succ p hk
  declarators p := ih.declarators_succ p
  function p hk := ih.function_succ p hk
  functionParts p := ih.functionParts_succ p
  parameters p := ih.parameters_succ p
  returnStatement p hk := ih.returnStatement_succ p hk
  block p place lo := ih.block_succ p place lo
  statement p := ih.statement_succ p
  statements p closing hc := ih.statements_succ p closing hc

end Locates

/-- **Every reader of the grammar reads nodes that stand where they say**, as long as there is no
error. -/
theorem locates (cs : List Char) (fuel : Nat) : Locates cs fuel := by
  induction fuel with
  | zero => exact locates_zero
  | succ fuel ih => exact ih.succ

/-! ## Whole sources -/

/-- The statements of a source together, from its first token to its last one. -/
theorem locates_gathered {ss : List Node} {top : Nat} (global : Bool)
    (h : Retains cs p q (ss ≠ [] ∧ SpansAll cs p.cursor ss q.cursor)) :
    Reading.Ensures (do
      modify fun p => { p with scope := p.scope.closeTo top }
      let locals ← if global then pure [] else closeScope
      blockOf (p.cursor.current.place.extend (← get).cursor.previous) ss locals) q fun n r =>
        Retains cs p r (n.Located cs) := by
  refine .bind (ensures_modify ?_)
  have gathered : ∀ (q' : Parser) (locals : List Declaration), q'.cursor = q.cursor →
      q'.failed = q.failed → Reading.Ensures (do
        blockOf (p.cursor.current.place.extend (← get).cursor.previous) ss locals) q' fun n r =>
          Retains cs p r (n.Located cs) := by
    intro q' locals hc hf
    refine .bind (ensures_get (retains_blockOf (Q := fun n _ => n.Located cs) ?_))
    refine (h.of_same hc hf).mono fun hp hd ⟨hss, hall⟩ => ?_
    rw [← hc] at hall
    obtain ⟨s, rest, rfl⟩ := List.exists_cons_of_ne_nil hss
    refine ⟨fun s' hs => (hall.1 s' (by rw [hs]; exact List.mem_singleton_self s')).located,
      fun t ht => located_iff.2 ⟨?_, fun m hm => ?_⟩⟩
    · have hpassed := (hall.1 s List.mem_cons_self).passed
      rw [Node.place, Node.tag, ht]
      exact hp.current.extend hpassed (Nat.le_trans hd.gap hd.inside)
    · have hm := hall.1 m hm
      refine ⟨hm.located, ?_⟩
      rw [Node.place, Node.tag, ht]
      exact ⟨Nat.le_trans (Nat.min_le_left _ _) hm.lower,
        Nat.le_trans hm.ends (Nat.le_max_right _ _)⟩
  cases global with
  | true => exact .bind (ensures_pure (gathered _ _ rfl rfl))
  | false =>
    refine .bind (ensures_modifyGet ?_)
    split
    · exact gathered _ _ rfl rfl
    · exact gathered _ _ rfl rfl

/-- Without a statement there is an error. -/
theorem locates_whole {f : List Node → Reading Node}
    (hf : ∀ ss q, Retains cs p q (ss ≠ [] ∧ SpansAll cs p.cursor ss q.cursor) →
      (f ss).Ensures q fun n r => Retains cs p r (n.Located cs)) :
    Reading.Ensures (do
      let ss ← statements fuel none
      let failed ← hasFailed
      let ss ← if ss.isEmpty && !failed then (return [← unexpected "expression"]) else pure ss
      f ss) p fun n r => Retains cs p r (n.Located cs) := by
  refine .bind (((locates cs fuel).statements p none (by simp)).mono fun ss q hq => ?_)
  refine .bind (ensures_hasFailed ?_)
  split
  · refine .bind (.bind (tells_unexpected.mono fun e r hr => Reading.ensures_pure ?_))
    exact hf _ _ (retains_of_failed hr.1)
  · rename_i hne
    refine .bind (Reading.ensures_pure (hf _ _ ?_))
    cases hfail : q.failed with
    | true => exact retains_of_failed hfail
    | false => exact hq.mono fun _ _ hall => ⟨by simpa [hfail] using hne, hall⟩

theorem locates_analyse (p : Parser) : (analyse fuel).Ensures p fun n q =>
    Retains cs { p with failed := false, functions := [] } q (n.Located cs) := by
  unfold analyse
  refine .bind (ensures_modify ?_)
  generalize ({ p with failed := false, functions := [] } : Parser) = p
  refine .bind (ensures_place (.bind (ensures_get ?_)))
  dsimp only
  cases hg : p.scope.options.global with
  | true =>
    exact .bind (ensures_get (locates_whole fun ss q hq => locates_gathered true hq))
  | false =>
    refine .bind (ensures_modify (.bind (ensures_get ?_)))
    exact locates_whole (p := { p with scope := p.scope.opened }) fun ss q hq =>
      locates_gathered false hq

end Parser

/-- **Locations are nested and exact.** Whatever the parser has read before: in the tree of a source
without errors every node lies in the source and around its children, and its line and column are
those of the character that it begins with. -/
theorem nodes_located (p : Parser) (source : String) (h : (p.parse source).1.invalids = []) :
    (p.parse source).1.Located source.toList := by
  obtain ⟨n, q, hrun, -⟩ := Parser.covers_analyse (Parser.fuelled_source p source)
  have hf : (p.parse source).2.failed = false := by
    rw [Bool.eq_false_iff, ne_eq, Parser.failed_iff_invalids]
    exact fun hne => hne h
  have hparse : p.parse source = (n, q) := by
    rw [Parser.parse, hrun]
  rw [hparse] at hf ⊢
  exact ((Parser.locates_analyse _ n q hrun hf).2 (Cursor.onText_ofSource source)).2

/-- A condition on one line and what it guards on the next one. -/
theorem nodes_located_lines :
    ((Parser.new {}).parse "if (true)\n  (!null) && true;").1.invalids = [] ∧
      ((Parser.new {}).parse "if (true)\n  (!null) && true;").1.Located
        "if (true)\n  (!null) && true;".toList := by
  have h : ((Parser.new {}).parse "if (true)\n  (!null) && true;").1.invalids = [] := by
    rw [← List.isEmpty_iff]
    decide +kernel
  exact ⟨h, nodes_located _ _ h⟩

example : ((Parser.new {}).parse "if (true)\n  (!null) && true;").1.nodes.map Node.place =
    [⟨⟨0, 28⟩, 1, 1⟩, ⟨⟨4, 8⟩, 1, 5⟩, ⟨⟨13, 27⟩, 2, 4⟩, ⟨⟨13, 18⟩, 2, 4⟩, ⟨⟨14, 18⟩, 2, 5⟩,
      ⟨⟨23, 27⟩, 2, 14⟩] := by
  decide +kernel

end Steppable
