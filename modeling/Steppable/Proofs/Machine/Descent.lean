import Mathlib.Data.DFinsupp.WellFounded
import Steppable.Proofs.Machine.Transparency

/-!
# Every step goes down

A step may end the top frame, let it wait for something else or push a frame above it. To see that
this cannot go on for ever, every frame is given a rank, which sinks each time the frame goes on to
the next thing it waits for (`Frame.rank`), and the ranks of the stack are read from the outermost
frame inwards, followed by that of the node or value at hand (`Machine.trace`). Then every step of a
program without loops changes the trace, at the first place where it does so, to something lower
(`falls_step`): a node that is entered is above every frame, a value that is given below.

What a frame waits for inside is not part of its rank, so the rank need not be any measure of the
tree, and a call of a function goes down like everything else. What makes the order well-founded is
the length of the trace, which the limit of frames bounds (`Fits`): the only frames that are pushed
without looking at the limit are activations, and every node above an activation looks at it again.
-/

namespace Steppable

/-- Whether the node is a loop. -/
def Node.isLoop : Node → Bool
  | .loop .. => true
  | _ => false

/-! ## Ranks -/

/-- A rank: a stage, then how much is left of a list, then how many arguments are missing. -/
abbrev Rank : Type := Nat ×ₗ Nat ×ₗ WithTop Nat

/-- The rank in the given stage. -/
def Rank.of (stage : Nat) (left : Nat := 0) (missing : WithTop Nat := ⊤) : Rank :=
  toLex (stage, toLex (left, missing))

/-- The rank of a node that is entered, above that of every frame. -/
def Rank.entered : Rank := .of 5

/-- The rank of a value that is given, below that of every frame. -/
def Rank.given : Rank := .of 0

section

variable {s s' l l' : Nat} {w w' : WithTop Nat}

theorem Rank.lt_of_stage (h : s < s') : Rank.of s l w < Rank.of s' l' w' :=
  Prod.Lex.toLex_lt_toLex.2 (.inl h)

theorem Rank.lt_of_left (h : l < l') : Rank.of s l w < Rank.of s l' w' :=
  Prod.Lex.toLex_lt_toLex.2 (.inr ⟨rfl, Prod.Lex.toLex_lt_toLex.2 (.inl h)⟩)

theorem Rank.lt_of_missing (h : w < w') : Rank.of s l w < Rank.of s l w' :=
  Prod.Lex.toLex_lt_toLex.2 (.inr ⟨rfl, Prod.Lex.toLex_lt_toLex.2 (.inr ⟨rfl, h⟩)⟩)

end

/-- How far a frame in this phase is from its end. A body that runs is as good as ended, for no node
is a loop. -/
def Phase.stage : Phase → Nat
  | .ready => 4
  | .leftOperand | .target | .condition | .accessed => 3
  | .statement _ | .argument .. | .asking .. => 2
  | .rightOperand _ | .operand | .assigned _ | .branch | .body | .activation | .running _ => 1

/-- How many statements, arguments or rules are left to a frame in this phase. -/
def Phase.left : Phase → Nat
  | .statement rest | .argument _ _ rest => rest.length
  | .asking _ rules => rules.length
  | _ => 0

/-- How many arguments are missing of those that the host has asked for; any number, if it has asked
for none. -/
def Frame.missing (f : Frame) : WithTop Nat :=
  match f.gathered with
  | some g => .some ((f.node.arguments.take g.wanted).length - g.values.length)
  | none => ⊤

/-- How many arguments are missing for the first of the rules, if the accessor `k` frames below the
top is the one that it has reached. -/
def outstanding (fs : List Frame) (k : Nat) : List Host.Rule → WithTop Nat
  | [] => ⊤
  | r :: _ =>
    if r.reach? ((accessorChain fs).map Frame.node) = some k then (fs[k]?).elim ⊤ Frame.missing
    else ⊤

/-- The rank of a frame above the frames `outer`. -/
def Frame.rank (f : Frame) (outer : List Frame) : Rank :=
  match f.phase with
  | .asking k rules => .of 2 rules.length (outstanding (f :: outer) k rules)
  | φ => .of φ.stage φ.left

/-- The ranks of the frames, that of the outermost one first. -/
def ranks : List Frame → List Rank
  | [] => []
  | f :: outer => ranks outer ++ [f.rank outer]

variable {f : Frame} {fs gs outer : List Frame} {k : Nat} {φ : Phase} {a : Rank}

theorem rank_of_ne_asking (h : ∀ k rules, f.phase ≠ .asking k rules) :
    f.rank outer = .of f.phase.stage f.phase.left := by
  unfold Frame.rank
  split
  · rename_i k rules hφ
    exact (h k rules hφ).elim
  · rfl

theorem rank_asking {rules : List Host.Rule} (h : f.phase = .asking k rules) :
    f.rank outer = .of 2 rules.length (outstanding (f :: outer) k rules) := by
  simp only [Frame.rank, h]

/-- The rank of a frame is decided by the stage of its phase first. -/
theorem exists_rank_eq (f : Frame) (outer : List Frame) :
    ∃ l w, f.rank outer = .of f.phase.stage l w := by
  cases hφ : f.phase with
  | asking k rules => exact ⟨_, _, rank_asking hφ⟩
  | _ => exact ⟨_, _, by rw [rank_of_ne_asking (by simp [hφ]), hφ]⟩

theorem rank_lt_of_stage {g : Frame} {gs : List Frame} (h : g.phase.stage < f.phase.stage) :
    g.rank gs < f.rank outer := by
  obtain ⟨l, w, hg⟩ := exists_rank_eq g gs
  obtain ⟨l', w', hf⟩ := exists_rank_eq f outer
  rw [hg, hf]
  exact Rank.lt_of_stage h

theorem given_lt_rank (f : Frame) (outer : List Frame) : Rank.given < f.rank outer := by
  obtain ⟨l, w, hf⟩ := exists_rank_eq f outer
  rw [hf]
  exact Rank.lt_of_stage (by cases f.phase <;> simp [Phase.stage])

theorem rank_lt_entered (f : Frame) (outer : List Frame) : f.rank outer < Rank.entered := by
  obtain ⟨l, w, hf⟩ := exists_rank_eq f outer
  rw [hf]
  exact Rank.lt_of_stage (by cases f.phase <;> simp [Phase.stage])

theorem length_ranks (fs : List Frame) : (ranks fs).length = fs.length := by
  induction fs with
  | nil => rfl
  | cons f outer ih => simp [ranks, ih]

/-- Changes in the accessors at the top that wait for what they are applied to change no rank. -/
theorem ranks_of_drop (hc : gs.map Frame.core = fs.map Frame.core)
    (hk : k ≤ (accessing (fs.map Frame.core)).length) (hd : gs.drop k = fs.drop k) :
    ranks gs = ranks fs := by
  refine accessed_induction (P := fun gs fs => ranks gs = ranks fs) (fun _ => rfl)
    (fun {_ g _ _} hf hfg ih => ?_) hc hk hd
  have hg : g.phase = .accessed := (congrArg Prod.snd hfg).trans hf
  rw [ranks, ranks, ih, rank_of_ne_asking (by simp [hg]), rank_of_ne_asking (by simp [hf]), hf, hg]

/-- What a host does to the accessors of the chain it is asked about leaves the top frame in place, and
the ranks below it as they are. -/
theorem ranks_of_chain (hc : gs.map Frame.core = (f :: outer).map Frame.core)
    (hk : k ≤ (accessing (outer.map Frame.core)).length)
    (hd : gs.drop (k + 1) = (f :: outer).drop (k + 1)) :
    ∃ f₁ outer₁, gs = f₁ :: outer₁ ∧ f₁.node = f.node ∧
      outer₁.map Frame.core = outer.map Frame.core ∧ outer₁.length = outer.length ∧
      ranks outer₁ = ranks outer := by
  obtain ⟨f₁, outer₁, rfl, hf, hc, hd⟩ := frames_of_chain hc hd
  exact ⟨f₁, outer₁, rfl, congrArg Prod.fst hf, hc, by simpa using congrArg List.length hc,
    ranks_of_drop hc hk hd⟩

/-! ## Room -/

/-- Whether a frame in this phase is the activation of a function. -/
def Phase.isActivating : Phase → Bool
  | .argument .. | .running _ => true
  | _ => false

theorem isActivating_of_stage (h : φ.stage = 3) : φ.isActivating = false := by
  cases φ <;> simp_all [Phase.stage, Phase.isActivating]

/-- The stack respects the limit of frames, but for one activation at its top. -/
def Fits : List (Node × Phase) → Prop
  | [] => True
  | (_, φ) :: outer =>
    outer.length < maxFrames ∨ φ.isActivating = true ∧ outer.length = maxFrames

section

variable {x : Node} {cs : List (Node × Phase)}

theorem fits_of_length_le (h : cs.length ≤ maxFrames) : Fits cs := by
  cases cs with
  | nil => trivial
  | cons c cs => exact .inl h

theorem Fits.le (h : Fits ((x, φ) :: cs)) : cs.length ≤ maxFrames := by
  rcases h with h | ⟨-, h⟩ <;> omega

theorem Fits.lt (h : Fits ((x, φ) :: cs)) (hφ : φ.isActivating = false) :
    cs.length < maxFrames := by
  rcases h with h | ⟨h, -⟩
  · exact h
  · simp [hφ] at h

theorem Fits.length_le (h : Fits cs) : cs.length ≤ maxFrames + 1 := by
  cases cs with
  | nil => exact Nat.zero_le _
  | cons c cs => exact Nat.succ_le_succ h.le

end

namespace Machine

variable {m m₁ : Machine} {n x : Node} {v w : Value} {rules : List Host.Rule} {r : Host.Rule}
  {S : Node → Prop} {p : List Rank}

/-! ## Traces -/

/-- The ranks of the frames from the outermost one inwards, then that of the node or the value at
hand. -/
def trace (m : Machine) : Focus → List Rank
  | .enter _ => ranks m.frames ++ [.entered]
  | .begin => ranks m.frames
  | .give _ => ranks m.frames ++ [.given]

/-- A step that ends so leaves the ranks `p` as they are, and what comes then is below `a`. -/
structure Descends (p : List Rank) (a : Rank) (r : Machine × Progress) : Prop where
  fits : Fits r.1.cores
  falls : ∀ φ', r.2.next? = some φ' → ∃ b rest, r.1.trace φ' = p ++ b :: rest ∧ b < a

theorem descends_finish (hf : m.frames = f :: outer) (hl : outer.length ≤ maxFrames)
    (ha : Rank.given < a) (v : Value) : Descends (ranks outer) a (m.finish v) := by
  have hfr : (m.finish v).1.frames = outer := by simp only [finish, hf, give]
  refine ⟨fits_of_length_le (by rw [cores, hfr, List.length_map]; exact hl), fun φ' hn => ?_⟩
  rw [finish_snd] at hn
  obtain rfl := Option.some.inj hn
  exact ⟨.given, [], by rw [trace, hfr], ha⟩

theorem descends_await {ψ : Phase} (hf : m.frames = f :: outer)
    (hl : outer.length < maxFrames ∨ ψ.isActivating = true ∧ outer.length = maxFrames)
    (ha : Frame.rank { f with phase := ψ } outer < a) (n : Node) :
    Descends (ranks outer) a (m.await ψ n) := by
  have hfr : (m.await ψ n).1.frames = { f with phase := ψ } :: outer := by
    simp only [await, hf]
  refine ⟨?_, fun φ' hn => ?_⟩
  · rw [cores_of_frames hfr]
    simpa [Fits] using hl
  · rw [await_snd] at hn
    obtain rfl := Option.some.inj hn
    exact ⟨_, [.entered], by rw [trace, hfr, ranks, List.append_assoc]; rfl, ha⟩

/-! ## Asking a host -/

/-- Arguments that have been gathered already are kept. -/
theorem prepare_of_gathered {as : List Value} {c : Node} {e : Frame} {g : Gathered}
    (h : m.prepare r k = (as, some c, m₁)) (he : m.frames[k]? = some e)
    (hg : e.gathered = some g) : m₁ = m := by
  cases harity : r.ending.arity? with
  | none => simp [prepare, harity] at h
  | some arity =>
    rw [prepare_kept harity he hg] at h
    exact (Prod.mk.inj (Prod.mk.inj h).2).2.symm

/-- **Asking a host goes down**, if the rank of every question that may come out of it does. -/
theorem descends_consult (hP : Program S) (hS : OfProgram S m.cores) (hf : m.frames = f :: outer)
    (he : Expects (outer.map Frame.core) f.node) (hrules : ∀ r ∈ rules, r.Resolves)
    (hl : outer.length < maxFrames) (h0 : Rank.given < a)
    (ha : ∀ passed r rest k as c m₁ f₁ outer₁, rules = passed ++ r :: rest →
      r.reach? (m.links.map (·.node)) = some k → m.prepare r k = (as, some c, m₁) →
      m₁.frames = f₁ :: outer₁ → Frame.rank { f₁ with phase := .asking k (r :: rest) } outer₁ < a)
    (n : Node) : Descends (ranks outer) a (consult n rules m) := by
  rcases consult_of_resolves n m hrules with h | ⟨passed, r, rest, k, hsplit, -, hk, h⟩
  · rw [h]
    exact descends_finish (m := (m.fault n _).2) hf (Nat.le_of_lt hl) h0 _
  · have hc := le_accessing_of_reach hP hS hf he hk
    obtain ⟨fs, hfs, hcore, hdrop, -⟩ := frames_prepare m r k
    rw [hf] at hcore hdrop
    obtain ⟨f₁, outer₁, rfl, -, hcore₁, hlen, hr₁⟩ := ranks_of_chain hcore hc hdrop
    rcases h with ⟨as, c, m₁, hprep, h⟩ | ⟨as, m₁, w, m₂, hprep, hans, h⟩
    · rw [hprep] at hfs
      dsimp only at hfs
      subst hfs
      rw [h, ← hr₁]
      exact descends_await rfl (.inl (hlen ▸ hl)) (ha _ _ _ _ _ _ _ _ _ hsplit hk hprep rfl) c
    · rw [hprep] at hfs
      dsimp only at hfs
      subst hfs
      rw [h]
      have hlt : k < (f₁ :: outer₁).length := by
        have := length_accessing_le (outer.map Frame.core)
        rw [List.length_map] at this
        rw [List.length_cons]
        omega
      obtain ⟨h₂, -⟩ := frames_answer hlt hans
      have hcore₂ := map_core_setResult w k (f₁ :: outer₁)
      obtain ⟨f₂, outer₂, hfr₂, -, -, hlen₂, hr₂⟩ :=
        ranks_of_chain hcore₂ (hcore₁ ▸ hc) (drop_setResult w k _)
      rw [finishResolved, h₂, hfr₂, ← hr₁, ← hr₂]
      exact descends_finish (h₂.trans hfr₂) (by omega) h0 _

/-- A question that has come up for the same rule before has one argument less missing. -/
theorem outstanding_lt {as : List Value} {c : Node} {f₁ : Frame} {outer₁ : List Frame} {j : Nat}
    {ψ : Phase} (hk : r.reach? ((accessorChain m.frames).map Frame.node) = some k)
    (hp : (m.addArgument j v).prepare r k = (as, some c, m₁)) (hf₁ : m₁.frames = f₁ :: outer₁) :
    outstanding ({ f₁ with phase := ψ } :: outer₁) k (r :: rules) <
      outstanding m.frames j (r :: rules) := by
  have hcore : m₁.frames.map Frame.core = m.frames.map Frame.core := by
    have h₁ := (alike_prepare (m.addArgument j v) r k).frames
    rw [hp] at h₁
    exact h₁.trans (alike_addArgument m j v).frames
  have hchain : (accessorChain ({ f₁ with phase := ψ } :: outer₁)).map Frame.node =
      (accessorChain m.frames).map Frame.node := by
    refine map_node_accessorChain ((map_node_of_core hcore).symm ▸ ?_)
    rw [hf₁]
    rfl
  obtain ⟨-, e, g, -, he, hg, hlt⟩ := gathered_of_prepare hp
  have hnew : outstanding ({ f₁ with phase := ψ } :: outer₁) k (r :: rules) =
      .some ((e.node.arguments.take g.wanted).length - g.values.length) := by
    rw [hf₁] at he
    obtain ⟨e', he', hn', hg'⟩ := exists_getElem?_phase ψ he
    rw [outstanding, hchain, if_pos hk, he']
    show e'.missing = _
    rw [Frame.missing, hg', hg, hn']
  rw [hnew, outstanding, hk]
  split
  · rename_i hj
    obtain rfl := Option.some.inj hj
    cases he₀ : m.frames[k]? with
    | none => exact WithTop.coe_lt_top _
    | some e₀ =>
      show _ < e₀.missing
      cases hg₀ : e₀.gathered with
      | none =>
        rw [Frame.missing, hg₀]
        exact WithTop.coe_lt_top _
      | some g₀ =>
        have he₁ : (m.addArgument k v).frames[k]? =
            some { e₀ with gathered := some { g₀ with values := g₀.values ++ [v] } } := by
          simp [addArgument, he₀, hg₀]
        rw [prepare_of_gathered hp he₁ rfl] at he
        obtain rfl := Option.some.inj (he₁.symm.trans he)
        obtain rfl := Option.some.inj hg
        rw [Frame.missing, hg₀]
        simp only [List.length_append, List.length_singleton] at hlt ⊢
        exact WithTop.coe_lt_coe.2 (by omega)
  · exact WithTop.coe_lt_top _

theorem descends_receiveArgument (hP : Program S) (hS : OfProgram S m.cores)
    (hf : m.frames = f :: outer) (hφ : f.phase = .asking k rules) (he : Expects m.cores x)
    (hrules : ∀ r ∈ rules, r.Resolves) (hfit : Fits m.cores) (v : Value) :
    Descends (ranks outer) (f.rank outer) (m.receiveArgument f.node k rules v) := by
  have hcores := cores_of_frames hf
  rw [hcores, hφ] at he
  rw [hcores, hφ] at hfit
  have hl : outer.length < maxFrames := by simpa using hfit.lt rfl
  have hc := he.le_accessing
  unfold receiveArgument
  dsimp only
  split
  · have hcore := map_core_setResult (m.cells.deref v) k m.frames
    have hdrop := drop_setResult (m.cells.deref v) k m.frames
    rw [hf] at hcore hdrop
    obtain ⟨f₁, outer₁, hfr, -, -, hlen, hr₁⟩ := ranks_of_chain hcore hc hdrop
    have hfr' : (m.setResult k (m.cells.deref v)).frames = f₁ :: outer₁ := by
      rw [setResult, hf, hfr]
    rw [finishResolved, hfr', ← hr₁]
    exact descends_finish hfr' (by omega) (given_lt_rank f outer) _
  · have ha := alike_addArgument m k (m.cells.deref v)
    have hcore := ha.frames
    have hdrop : (m.addArgument k (m.cells.deref v)).frames.drop (k + 1) =
        m.frames.drop (k + 1) :=
      List.drop_modify_of_lt _ k (k + 1) m.frames (Nat.lt_succ_self k)
    rw [hf] at hcore hdrop
    obtain ⟨f₁, outer₁, hfr, hn₁, hcore₁, hlen, hr₁⟩ := ranks_of_chain hcore hc hdrop
    rw [← hr₁]
    refine descends_consult hP (ha.cores_eq ▸ hS) hfr ?_ hrules (by omega) (given_lt_rank f outer) ?_ _
    · rw [hcore₁, hn₁]
      exact he.tail
    · intro passed r rest j as c m₁ f₂ outer₂ hsplit hj hp hf₂
      rw [rank_asking rfl, rank_asking hφ]
      cases passed with
      | cons q passed =>
        -- The host has gone on to a later rule.
        refine Rank.lt_of_left ?_
        rw [hsplit, List.length_append]
        simp only [List.length_cons]
        omega
      | nil =>
        obtain rfl : rules = r :: rest := hsplit
        rw [ha.links_node, map_node_links] at hj
        exact Rank.lt_of_missing (hf ▸ outstanding_lt hj hp hf₂)

/-! ## Steps -/

/-- The top frame goes on to a later stage. -/
theorem descends_later {ψ : Phase} (hf : m.frames = f :: outer) (hl : outer.length < maxFrames)
    (h : ψ.stage < f.phase.stage) (n : Node) :
    Descends (ranks outer) (f.rank outer) (m.await ψ n) :=
  descends_await hf (.inl hl) (rank_lt_of_stage h) n

theorem descends_nextStatement {rest : List Node} (hf : m.frames = f :: outer)
    (hl : outer.length < maxFrames) (h0 : Rank.given < a)
    (ha : ∀ s ss, rest = s :: ss → Rank.of 2 ss.length < a) (last : Value) :
    Descends (ranks outer) a (m.nextStatement last rest) := by
  cases rest with
  | nil => exact descends_finish hf (Nat.le_of_lt hl) h0 last
  | cons s ss =>
    refine descends_await hf (.inl hl) ?_ s
    rw [rank_of_ne_asking (by simp)]
    exact ha s ss rfl

theorem descends_nextArgument {callee : Closure} {done : List Value} {as : List Node}
    (hf : m.frames = f :: outer) (hl : outer.length ≤ maxFrames) (h1 : Rank.of 1 < a)
    (ha : ∀ c cs, as = c :: cs → Rank.of 2 cs.length < a) :
    Descends (ranks outer) a (m.nextArgument callee done as) := by
  have hroom : ∀ ψ : Phase, ψ.isActivating = true →
      outer.length < maxFrames ∨ ψ.isActivating = true ∧ outer.length = maxFrames := fun ψ hψ =>
    (Nat.lt_or_eq_of_le hl).imp_right fun h => ⟨hψ, h⟩
  cases as with
  | nil =>
    refine descends_await (m := { m with cells := activate m.cells callee done }) hf
      (hroom _ rfl) ?_ _
    rw [rank_of_ne_asking (by simp)]
    exact h1
  | cons c cs =>
    refine descends_await hf (hroom _ rfl) ?_ c
    rw [rank_of_ne_asking (by simp)]
    exact ha c cs rfl

/-- A call goes down too, although it pushes a frame: the frame of the call itself has only to wait
for its activation. -/
theorem descends_call {callee : Closure} (hf : m.frames = f :: outer)
    (hl : outer.length < maxFrames) (hφ : f.phase = .accessed) (n : Node) :
    Descends (ranks outer) (f.rank outer) (m.call n callee) := by
  unfold call
  rw [hf]
  have h : Descends (ranks ({ f with phase := .activation } :: outer)) .entered
      (nextArgument { m with frames := { node := n } :: { f with phase := .activation } :: outer }
        callee [] n.arguments) :=
    descends_nextArgument rfl hl (Rank.lt_of_stage (by decide))
      fun _ _ _ => Rank.lt_of_stage (by decide)
  refine ⟨h.fits, fun φ' hn => ?_⟩
  obtain ⟨b, rest, ht, -⟩ := h.falls φ' hn
  refine ⟨Frame.rank { f with phase := .activation } outer, b :: rest, ?_,
    rank_lt_of_stage (by simp [hφ, Phase.stage])⟩
  rw [ht, ranks, List.append_assoc]
  rfl

theorem Waits.stage_lt {c : Node} (h : Waits n φ c) : φ.stage < Phase.ready.stage := by
  cases h <;> simp [Phase.stage]

theorem descends_begin (hP : Program S) (hS : OfProgram S m.cores)
    (hh : ∀ r ∈ m.host, r.Resolves) (hf : m.frames = f :: outer) (hφ : f.phase = .ready)
    (he : Expects (outer.map Frame.core) f.node) (hfit : Fits m.cores) :
    Descends (ranks outer) (f.rank outer) (m.begin f.node) := by
  have hl : outer.length < maxFrames := by
    rw [cores_of_frames hf, hφ] at hfit
    simpa using hfit.lt rfl
  have h2 : ∀ l w, Rank.of 2 l w < f.rank outer := by
    intro l w
    rw [rank_of_ne_asking (by simp [hφ]), hφ]
    exact Rank.lt_of_stage (by decide)
  have hb := begin_beginning m f.node
  generalize m.begin f.node = r at hb
  cases hb with
  | await hw => exact descends_later hf hl (hφ ▸ Waits.stage_lt hw) _
  | ask =>
    refine descends_consult hP hS hf he (forall_rules hh) hl (given_lt_rank f outer) ?_ _
    intro passed r rest k as c m₁ f₁ outer₁ _ _ _ _
    rw [rank_asking rfl]
    exact h2 _ _
  | @block t ss locals g outer' hn hf' =>
    rw [hf] at hf'
    cases hf'
    exact descends_nextStatement (m := { m with
      frames := { f with phase := .statement ss } :: outer
      cells := m.cells.registerAll locals }) rfl hl (given_lt_rank f outer) (fun _ _ _ => h2 _ _) _
  | jump | finish => exact descends_finish hf (Nat.le_of_lt hl) (given_lt_rank f outer) _

theorem descends_receivePlain (hP : Program S) (hS : OfProgram S m.cores)
    (hf : m.frames = f :: outer) (he : Expects (outer.map Frame.core) f.node)
    (hloop : f.node.isLoop = false) (hfit : Fits m.cores) (v : Value) :
    Descends (ranks outer) (f.rank outer) (m.receivePlain f v) := by
  rw [cores_of_frames hf] at hfit
  have hle : outer.length ≤ maxFrames := by simpa using hfit.le
  have hlt : f.phase.isActivating = false → outer.length < maxFrames := fun h => by
    simpa using hfit.lt h
  have hfinish : ∀ m₁ : Machine, m₁.frames = f :: outer → ∀ w,
      Descends (ranks outer) (f.rank outer) (m₁.finish w) := fun m₁ hf₁ w =>
    descends_finish hf₁ hle (given_lt_rank f outer) w
  have hfault : ∀ n message, Descends (ranks outer) (f.rank outer) (m.finishFault n message) :=
    fun n message => hfinish (m.fault n message).2 hf _
  have hoperation : ∀ n r, Descends (ranks outer) (f.rank outer) (m.finishOperation n r) := by
    intro n r
    cases r with
    | ok w => exact hfinish m hf w
    | error message => exact hfault n message
  have hlast : ∀ {φ ψ : Phase} n, f.phase = φ → φ.stage = 3 → ψ.stage = 1 →
      Descends (ranks outer) (f.rank outer) (m.await ψ n) := by
    rintro φ ψ n rfl h3 h1
    exact descends_later hf (hlt (isActivating_of_stage h3)) (by omega) n
  unfold receivePlain
  dsimp only
  split
  · rename_i hφ _
    split
    · exact hlast _ hφ rfl rfl
    · exact hfinish m hf _
  · rename_i hφ _
    split
    · exact hfinish m hf _
    · exact hlast _ hφ rfl rfl
  · rename_i hφ _
    exact hlast _ hφ rfl rfl
  · split
    · exact hfinish m hf _
    · exact hoperation _ _
  · exact hoperation _ _
  · exact hfinish m hf _
  · split
    · exact hfinish { m with cells := m.cells.set _ _ } hf _
    · exact hfault _ _
  · rename_i hφ _
    split
    · exact hlast _ hφ rfl rfl
    · exact hfault _ _
  · exact hfinish { m with cells := m.cells.set _ _ } hf _
  · rename_i hφ _
    exact hlast _ hφ rfl rfl
  · rename_i hφ _
    split
    · exact hlast _ hφ rfl rfl
    · exact hfinish m hf _
  · -- The condition of a loop.
    rename_i hn
    simp [hn, Node.isLoop] at hloop
  · rename_i rest hφ
    refine descends_nextStatement hf (hlt (by rw [hφ]; rfl)) (given_lt_rank f outer) ?_ _
    rintro s ss rfl
    rw [rank_of_ne_asking (by simp [hφ]), hφ]
    exact Rank.lt_of_left (by simp [Phase.left])
  · rename_i hφ
    have hl := hlt (by rw [hφ]; rfl)
    split
    · exact hfinish m hf _
    · split
      · exact descends_call hf hl hφ _
      · refine descends_consult hP hS hf he (Host.resolves_members _) hl (given_lt_rank f outer) ?_ _
        intro passed r rest k as c m₁ f₁ outer₁ _ _ _ _
        exact rank_lt_of_stage (by simp [hφ, Phase.stage])
  · rename_i callee done rest hφ
    refine descends_nextArgument hf hle ?_ ?_
    · rw [rank_of_ne_asking (by simp [hφ]), hφ]
      exact Rank.lt_of_stage (by simp [Phase.stage])
    · rintro c cs rfl
      rw [rank_of_ne_asking (by simp [hφ]), hφ]
      exact Rank.lt_of_left (by simp [Phase.left])
  · exact hfinish m hf _

theorem descends_receive (hP : Program S) (hS : OfProgram S m.cores) (hf : m.frames = f :: outer)
    (hx : Expects m.cores x) (hloop : f.node.isLoop = false) (hfit : Fits m.cores)
    (hrules : ∀ k rules, f.phase = .asking k rules → ∀ r ∈ rules, r.Resolves) (v : Value) :
    Descends (ranks outer) (f.rank outer) (m.receive f v) := by
  have hle : outer.length ≤ maxFrames := by
    rw [cores_of_frames hf] at hfit
    simpa using hfit.le
  have hfinish : ∀ w, Descends (ranks outer) (f.rank outer) (m.finish w) := fun w =>
    descends_finish hf hle (given_lt_rank f outer) w
  have he : Expects (outer.map Frame.core) f.node := by
    rw [cores_of_frames hf] at hx
    exact hx.tail
  unfold receive
  split
  · unfold receiveBody
    split
    · exact hfinish _
    · exact hfinish _
    · exact hfinish _
    · -- The next round of a loop.
      rename_i hn
      simp [hn, Node.isLoop] at hloop
    · exact hfinish _
  · unfold receiveReturn
    split
    · exact hfinish _
    · rename_i culprit _ _
      exact descends_finish (m := (m.fault culprit illegalJump).2) hf hle (given_lt_rank f outer) _
    · exact hfinish _
    · exact hfinish _
  · rename_i k rules hφ
    exact descends_receiveArgument hP hS hf hφ hx (hrules k rules hφ) hfit v
  · exact hfinish _
  · exact hfinish _
  · split
    · exact hfinish _
    · exact descends_receivePlain hP hS hf he hloop hfit v

/-- A node that is entered gives a value or gets a frame, and both are below it. -/
theorem descends_enter (hfit : Fits m.cores) (n : Node) :
    Descends (ranks m.frames) .entered (m.enter n) := by
  have he := enter_entering m n
  generalize m.enter n = r at he
  cases he with
  | push h =>
    have hfits : Fits ((n, .ready) :: m.cores) := .inl (by simpa [cores] using h)
    have hrank : Frame.rank { node := n } m.frames < Rank.entered := rank_lt_entered _ _
    split <;> refine ⟨hfits, fun φ' hn => ?_⟩
    · obtain rfl := Option.some.inj hn
      exact ⟨_, [], rfl, hrank⟩
    · obtain rfl := Option.some.inj hn
      exact ⟨_, [], rfl, hrank⟩
  | _ =>
    refine ⟨hfit, fun φ' hn => ?_⟩
    obtain rfl := Option.some.inj hn
    exact ⟨_, [], rfl, Rank.lt_of_stage (by decide)⟩

/-- The first change from one trace to the other is to a lower rank. -/
def Falls (xs ys : List Rank) : Prop :=
  ∃ p a b rest rest', ys = p ++ a :: rest ∧ xs = p ++ b :: rest' ∧ b < a

theorem Descends.trace_falls {rest : List Rank} {r : Machine × Progress} (h : Descends p a r)
    {ψ : Focus} (hψ : r.2.next? = some ψ) : Falls (r.1.trace ψ) (p ++ a :: rest) := by
  obtain ⟨b, rest', ht, hb⟩ := h.falls ψ hψ
  exact ⟨p, a, b, rest, rest', rfl, ht, hb⟩

/-- **Every step goes down** in a program without loops, and respects the limit of frames. -/
theorem falls_step (hP : Program S) (hS : ∀ n, S n → n.isLoop = false) {φ ψ : Focus}
    (h : Orderly S m φ) (hfit : Fits m.cores) (hn : (m.step φ).2.next? = some ψ) :
    Fits (m.step φ).1.cores ∧ Falls ((m.step φ).1.trace ψ) (m.trace φ) := by
  have hO := h.ofProgram
  have hloop : ∀ f ∈ m.frames, f.node.isLoop = false := fun f hf =>
    hS _ (hO f.core (List.mem_map_of_mem hf)).1
  cases φ with
  | enter n =>
    have hd := descends_enter hfit n
    exact ⟨hd.fits, hd.trace_falls hn⟩
  | begin =>
    obtain ⟨x, cs, hc, he⟩ := h.poised
    obtain ⟨f, outer, hf, hfc, rfl⟩ := frames_of_cores hc
    obtain ⟨rfl, hφ⟩ := Prod.mk.inj hfc
    have hs : m.step .begin = m.begin f.node := by simp [step, hf]
    have hd := descends_begin hP hO (fun r hr => (h.host r hr).resolves) hf hφ he hfit
    rw [hs] at hn ⊢
    rw [trace, hf]
    exact ⟨hd.fits, hd.trace_falls hn⟩
  | give v =>
    obtain ⟨x, he⟩ := h.poised
    cases hf : m.frames with
    | nil => simp [step, hf, Progress.next?] at hn
    | cons f outer =>
      have hs : m.step (.give v) = m.receive f v := by simp [step, hf]
      have hq := h.calm.questions
      rw [hf] at hq
      have hd := descends_receive hP hO hf he (hloop f (by simp [hf])) hfit
        (fun k rules hφ r hr => ((hq.1 k rules hφ).1 r hr).1) v
      rw [hs] at hn ⊢
      rw [trace, hf, ranks, List.append_assoc]
      exact ⟨hd.fits, hd.trace_falls hn⟩

/-! ## Descents end -/

/-- **There is no endless descent** through traces of bounded length. -/
theorem wellFounded_falls (length : Nat) :
    WellFounded fun xs ys : List Rank => ys.length ≤ length ∧ Falls xs ys := by
  let padded (xs : List Rank) : Lex (Fin length → Rank) := toLex fun i => xs.getD i (.of 0)
  refine Subrelation.wf (fun {xs ys} h => ?_) (InvImage.wf padded wellFounded_lt)
  obtain ⟨hlen, p, a, b, rest, rest', rfl, rfl, hb⟩ := h
  have hp : p.length < length := by
    simp only [List.length_append, List.length_cons] at hlen
    omega
  refine ⟨⟨p.length, hp⟩, fun j hj => ?_, ?_⟩
  · have hj : j.val < p.length := hj
    simp [padded, List.getElem?_append_left hj]
  · simpa [padded] using hb

end Machine

end Steppable
