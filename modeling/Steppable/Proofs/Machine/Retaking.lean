import Steppable.Proofs.Machine.Inquiry
import Steppable.Proofs.Machine.Life

/-!
# Questions that are put again

When a stopped evaluation is taken up, a frame that has a result ends with it, and a name asks its
host anew, from the first rule on. By then the host may go by other rules than those that were asked
before the stop, and handlers that declined may answer.

No argument is mistaken for another one by that. The rules that have all they want are asked without
any evaluation (`Rounds`), and a rule that lacks an argument can lack only the one that is being
evaluated (`prepare_asked`). So a question that is put again ends the frame that puts it, or comes to
the same argument (`consult_again`). The stack is as before, or some frames at its top have ended
(`takenUp_resumption`), and at every moment, through all stops, each frame that asks waits for the
next argument of the accessor that it asks about (`attending_perpetual`). -/

namespace Steppable

variable {f g e : Frame} {fs gs hs outer : List Frame} {n : Node} {k : Nat} {r : Host.Rule}
  {rules : List Host.Rule} {host : Host}

/-- What is noted in a frame without arguments makes no difference. -/
theorem map_sketch_set {note : Option Gathered} (he : fs[k]? = some e)
    (harg : e.node.arguments = []) :
    (fs.set k { e with gathered := note }).map Frame.sketch = fs.map Frame.sketch := by
  refine map_set_of_eq he ?_
  simp [Frame.sketch, harg]

/-! ## Who waits for whom -/

theorem Phase.eq_or_asking {φ ψ : Phase} (h : φ.sketch = ψ.sketch) :
    φ = ψ ∨ ∃ k rules rules', φ = .asking k rules ∧ ψ = .asking k rules' := by
  cases ψ with
  | asking k rules' =>
    obtain ⟨rules, hφ, -⟩ := Phase.asking_of_sketch h
    exact .inr ⟨k, rules, rules', hφ, rfl⟩
  | _ => cases φ <;> simp_all [Phase.sketch]

theorem length_accessing_of_sketch (hs : gs.map Frame.sketch = fs.map Frame.sketch) :
    (accessing (gs.map Frame.core)).length = (accessing (fs.map Frame.core)).length := by
  have h : ∀ fs : List Frame, (accessing (fs.map Frame.core)).length =
      ((fs.map Frame.sketch).takeWhile (·.2.1.1.isAccessed)).length := by
    intro fs
    rw [accessing, List.takeWhile_map, List.takeWhile_map, List.length_map, List.length_map]
    congr 2
    funext f
    obtain ⟨n, φ, result, gathered⟩ := f
    cases φ <;> rfl
  rw [h, h, hs]

/-- Which rules a frame asks has no part in who waits for whom. -/
theorem Expects.of_sketch (h : Expects (fs.map Frame.core) n)
    (hs : gs.map Frame.sketch = fs.map Frame.sketch) : Expects (gs.map Frame.core) n := by
  induction fs generalizing gs n with
  | nil =>
    rw [List.map_nil, List.map_eq_nil_iff] at hs
    exact hs ▸ h
  | cons f fs ih =>
    cases gs with
    | nil => cases hs
    | cons g gs =>
      obtain ⟨hgf, hgs⟩ := List.cons.inj hs
      obtain ⟨hnode, hgf⟩ := Prod.mk.inj hgf
      have htail := ih (n := f.node) (Expects.tail (φ := f.phase) h) hgs
      have hlen := length_accessing_of_sketch hgs
      have hnodes : (gs.map Frame.core).map (·.1) = (fs.map Frame.core).map (·.1) := by
        simpa [Function.comp_def, Frame.core] using map_node_of_sketch hgs
      obtain ⟨x, φ, result, gathered⟩ := f
      obtain ⟨y, ψ, result', gathered'⟩ := g
      obtain rfl : y = x := hnode
      change Expects ((y, φ) :: fs.map Frame.core) n at h
      show Expects ((y, ψ) :: gs.map Frame.core) n
      rcases Phase.eq_or_asking (Prod.mk.inj hgf).1 with rfl | ⟨k, rules, rules', rfl, rfl⟩
      · cases h with
        | child hw => exact .child hw htail
        | statement => exact .statement n htail
        | activation => exact .activation htail
        | argument hn hrest => exact .argument hn hrest htail
        | body => exact .body htail
        | asked hk hy hn => exact .asked (hlen ▸ hk) (hnodes ▸ hy) hn htail
      · cases h with
        | child hw => cases hw
        | asked hk hy hn => exact .asked (hlen ▸ hk) (hnodes ▸ hy) hn htail

theorem Expects.of_append (cs : List (Node × Phase)) {ds : List (Node × Phase)}
    (h : Expects (cs ++ ds) n) :
    ∃ n', Expects ds n' := by
  induction cs generalizing n with
  | nil => exact ⟨n, h⟩
  | cons c cs ih => exact ih (Expects.tail (φ := c.2) h)

namespace Machine

variable {m m₁ m₂ : Machine} {v w : Value} {S : Node → Prop} {φ φ' : Focus} {as : List Value}

/-! ## Taking up a frame -/

theorem calls_answer (m : Machine) (r : Host.Rule) (k : Nat) (as : List Value) :
    (m.answer r k as).2.calls = ⟨r, ⟨as, m.links.take (k + 1)⟩⟩ :: m.calls := by
  have hfault : ∀ (m : Machine) (message : String), (m.setFault k message).2.calls = m.calls := by
    intro m message
    unfold setFault
    split <;> rfl
  unfold answer
  dsimp only
  split
  · rfl
  · rfl
  · exact hfault _ _
  · exact hfault _ _
  · rfl

/-- Some rules are asked, one after the other, and each has all the arguments that it wants. -/
inductive Rounds : Machine → Machine → Prop
  | still {m m' : Machine} : m'.calls = m.calls →
      m'.frames.map Frame.claim = m.frames.map Frame.claim → Rounds m m'
  | asked {m m₁ m' : Machine} {r : Host.Rule} {k : Nat} {as : List Value} :
      r.reach? (m.links.map (·.node)) = some k → m.prepare r k = (as, none, m₁) →
      Rounds (m₁.answer r k as).2 m' → Rounds m m'

/-- Rules have been asked, and nothing has changed that matters to a question. -/
structure Again (m m' : Machine) : Prop where
  frames : m'.frames.map Frame.sketch = m.frames.map Frame.sketch
  host : m'.host = m.host
  rounds : Rounds m m'

theorem Again.refl (m : Machine) : Again m m :=
  ⟨rfl, rfl, .still rfl rfl⟩

/-- While an argument of the accessor at `k` is being evaluated, a rule lacks this argument or none.
-/
theorem prepare_asked {j : Nat} (h : Asked m.frames n k rules)
    (hj : r.reach? (m.links.map (·.node)) = some j) :
    (∃ as, m.prepare r j = (as, some n, m) ∧ j = k) ∨
      ∃ as m₁, m.prepare r j = (as, none, m₁) ∧ m₁.host = m.host ∧
        m₁.frames.map Frame.sketch = m.frames.map Frame.sketch := by
  cases harity : r.ending.arity? with
  | none => exact .inr ⟨[], m, by simp [prepare, harity], rfl, rfl⟩
  | some arity =>
    obtain ⟨f, hf, hl⟩ := h.lacks
    have he := List.getElem?_eq_getElem (lt_length_of_reach hj)
    have hpassed := arguments_of_reach harity (map_node_links m ▸ hj)
    rcases Nat.lt_trichotomy j k with hlt | rfl | hlt
    · have harg := h.passed _ (List.mem_of_getElem? ((List.getElem?_take_of_lt hlt).trans he))
      have hp := prepare_noted harity he
      rw [harg, List.take_nil, List.getElem?_nil] at hp
      exact .inr ⟨_, _, hp, rfl, map_sketch_set he harg⟩
    · obtain ⟨g, hg, hsome⟩ := hl
      exact .inl ⟨g.values, by rw [prepare_kept harity hf hg, hsome], rfl⟩
    · have hmem := List.mem_of_getElem? ((List.getElem?_take_of_lt hlt).trans hf)
      exact (hl.ne_nil (hpassed f hmem)).elim

/-- **A question that is put again**, to whatever rules, ends the frame that puts it, or comes to the
same argument. -/
theorem consult_again (hf : m.frames = f :: outer)
    (hφ : f.phase.sketch = (Phase.asking k rules).sketch) (h : Asked m.frames n k rules) (x : Node)
    (rules' : List Host.Rule) :
    ∃ m₁, Again m m₁ ∧ ((∃ w, consult x rules' m = m₁.finish w) ∨
      consult x rules' m = (m₁, .running (.enter n))) := by
  induction rules' generalizing m f outer with
  | nil => exact ⟨(m.fault x _).2, ⟨rfl, rfl, .still rfl rfl⟩, .inl ⟨_, rfl⟩⟩
  | cons r rest ih =>
    cases hj : r.reach? (m.links.map (·.node)) with
    | none =>
      rw [consult_skip hj]
      exact ih hf hφ h
    | some j =>
      rcases prepare_asked h hj with ⟨as, hp, rfl⟩ | ⟨as, m₁, hp, hho, hs₁⟩
      · rw [consult_ask hj hp]
        simp only [await, hf]
        refine ⟨{ m with frames := { f with phase := .asking j (r :: rest) } :: outer },
          ⟨?_, rfl, .still rfl ?_⟩, .inr rfl⟩
        · have hphase : (Phase.asking j (r :: rest)).sketch = f.phase.sketch := by
            rw [hφ, Phase.sketch, Phase.sketch, List.isEmpty_eq_false_iff.2 h.nonempty]
            rfl
          rw [hf, List.map_cons, List.map_cons, Frame.sketch, hphase]
          rfl
        · rw [hf]
          rfl
      · have ha := alike_answer m₁ r j as
        have hs₂ : (m₁.answer r j as).2.frames.map Frame.sketch = m.frames.map Frame.sketch :=
          (map_answer (fun _ _ => rfl) m₁ r j as).trans hs₁
        rcases hans : m₁.answer r j as with ⟨w, m₂⟩
        rw [hans] at ha hs₂
        have hm₂ : m₂ = (m₁.answer r j as).2 := by rw [hans]
        cases w with
        | some w =>
          rw [consult_answer hj hp hans]
          refine ⟨m₂, ⟨hs₂, ha.host.trans hho, .asked hj hp (hm₂ ▸ .still rfl rfl)⟩, .inl ?_⟩
          unfold finishResolved
          split <;> exact ⟨_, rfl⟩
        | none =>
          rw [consult_pass hj hp hans]
          cases hf₂ : m₂.frames with
          | nil =>
            rw [hf₂, hf] at hs₂
            cases hs₂
          | cons f₂ outer₂ =>
            have hff := hs₂
            rw [hf₂, hf] at hff
            obtain ⟨hff, -⟩ := List.cons.inj hff
            have hφ₂ : f₂.phase.sketch = f.phase.sketch := (Prod.mk.inj (Prod.mk.inj hff).2).1
            obtain ⟨m₃, hagain, hc⟩ := ih hf₂ (hφ₂.trans hφ) (h.of_sketch hs₂ h.nonempty)
            exact ⟨m₃, ⟨hagain.frames.trans hs₂, hagain.host.trans (ha.host.trans hho),
              .asked hj hp (hm₂ ▸ hagain.rounds)⟩, hc⟩

/-- To take up a frame ends it, or changes nothing that matters to a question. -/
theorem again_takeUp (hf : m.frames = f :: outer)
    (hq : ∀ k rules, f.phase = .asking k rules → Asked m.frames n k rules) :
    ∃ m₁, Again m m₁ ∧ ((∃ w, m.takeUp f = m₁.finish w) ∨
      (m.takeUp f).1 = m₁ ∧ ∀ w, (m.takeUp f).2 ≠ .running (.give w)) := by
  unfold takeUp
  split
  · exact ⟨m, .refl m, .inl ⟨_, rfl⟩⟩
  · rename_i k rules t s _ hφ hn
    obtain ⟨m₁, ha, hw | hc⟩ :=
      consult_again hf (congrArg Phase.sketch hφ) (hq k rules hφ) f.node m.rules
    · exact ⟨m₁, ha, .inl hw⟩
    · exact ⟨m₁, ha, .inr (by rw [hc]; simp)⟩
  · exact ⟨m, .refl m, .inr (by simp)⟩

/-! ## Taking up a stack -/

theorem finish_eq (m : Machine) (v : Value) :
    (m.finish v).1.frames = m.frames.tail ∧ (m.finish v).1.host = m.host ∧
      (m.finish v).1.calls = m.calls := by
  unfold finish
  split
  · rename_i h
    exact ⟨by rw [h]; exact h, rfl, rfl⟩
  · rename_i h
    exact ⟨by rw [h]; rfl, rfl, rfl⟩

/-- The outermost frame of those that are put back ends with all others, or they follow. -/
theorem takeUpAll_again (f : Frame) (inner : List Frame) (m : Machine)
    (hq : Awaits (inner.reverse ++ f :: m.frames) n) :
    ∃ m₁, Again { m with frames := f :: m.frames } m₁ ∧
      ((∃ v cells, takeUpAll (f :: inner) m = ({ (m₁.finish v).1 with cells }, .give v)) ∨
        takeUpAll (f :: inner) m = takeUpAll inner m₁) := by
  obtain ⟨n', hqf⟩ := hq.of_append
  obtain ⟨m₁, ha, htake⟩ := again_takeUp (m := { m with frames := f :: m.frames }) rfl hqf.1
  refine ⟨m₁, ha, ?_⟩
  rcases takeUpAll_cons f inner m with ⟨v, m₂, ht, hall⟩ | ⟨hne, hall⟩
  · rcases htake with ⟨w, hw⟩ | ⟨-, hno⟩
    · rw [hw] at ht
      obtain ⟨rfl, hv⟩ : (m₁.finish w).1 = m₂ ∧ (m₁.finish w).2 = .running (.give v) := by
        rw [ht]
        exact ⟨rfl, rfl⟩
      rw [finish_snd] at hv
      obtain rfl : w = v := Focus.give.inj (Progress.running.inj hv)
      exact .inl ⟨w, _, hall⟩
    · exact (hno v (by rw [ht])).elim
  · rcases htake with ⟨w, hw⟩ | ⟨rfl, -⟩
    · exact (hne w (by rw [hw, finish_snd])).elim
    · exact .inr hall

/-- The stack `fs` of a stopped machine `m` has been taken up: all frames are back, or some at the
top have ended. -/
structure TakenUp (m : Machine) (fs : List Frame) (r : Machine × Focus) : Prop where
  host : r.1.host = m.host
  frames : ∃ gone left, fs = gone ++ left ∧
    r.1.frames.map Frame.sketch = left.map Frame.sketch ∧
    (gone = [] ∧ r.2 = .begin ∨ gone ≠ [] ∧ ∃ v, r.2 = .give v)

theorem TakenUp.of_again {r : Machine × Focus} (hho : m₁.host = m.host)
    (hs : gs.map Frame.sketch = fs.map Frame.sketch) (h : TakenUp m₁ gs r) : TakenUp m fs r := by
  obtain ⟨gone, left, rfl, hleft, hend⟩ := h.frames
  have hlen : gone.length + left.length = fs.length := by simpa using congrArg List.length hs
  refine ⟨h.host.trans hho, fs.take gone.length, fs.drop gone.length,
    (List.take_append_drop _ _).symm, ?_, ?_⟩
  · rw [hleft, List.map_drop, ← hs, ← List.map_drop]
    simp
  · refine hend.imp (fun h => ⟨by simp [h.1], h.2⟩) fun h => ⟨fun hnil => h.1 ?_, h.2⟩
    have hzero : (fs.take gone.length).length = 0 := by rw [hnil, List.length_nil]
    rw [List.length_take] at hzero
    exact List.length_eq_zero_iff.1 (by omega)

theorem takenUp (inner : List Frame) (m : Machine) (hq : Awaits (inner.reverse ++ m.frames) n) :
    TakenUp m (inner.reverse ++ m.frames) (takeUpAll inner m) := by
  induction inner generalizing m with
  | nil => exact ⟨rfl, [], m.frames, rfl, rfl, .inl ⟨rfl, rfl⟩⟩
  | cons f inner ih =>
    rw [List.reverse_cons, List.append_assoc, List.singleton_append] at hq ⊢
    obtain ⟨m₁, ha, ⟨v, cells, hall⟩ | hall⟩ := takeUpAll_again f inner m hq
    · obtain ⟨hfr, hho, -⟩ := finish_eq m₁ v
      rw [hall]
      refine ⟨hho.trans ha.host, inner.reverse ++ [f], m.frames, by simp, ?_,
        .inr ⟨by simp, v, rfl⟩⟩
      dsimp only
      rw [hfr, List.map_tail, ha.frames]
      rfl
    · have hs : (inner.reverse ++ m₁.frames).map Frame.sketch =
          (inner.reverse ++ f :: m.frames).map Frame.sketch := by
        rw [List.map_append, List.map_append, ha.frames]
      rw [hall]
      exact (ih m₁ (hq.of_sketch hs)).of_again ha.host hs

/-- **Taking up a stopped evaluation** restores its frames, or ends some of them. -/
theorem takenUp_resumption (hq : Awaits m.frames n) : TakenUp m m.frames m.resumption := by
  have h := takenUp m.frames.reverse { m with frames := [] } (n := n) (by simpa using hq)
  rw [List.reverse_reverse, List.append_nil] at h
  exact ⟨h.host, h.frames⟩

/-! ## All the time -/

/-- All that the machine holds belongs to a program, its frames wait for one another, and those that
ask wait for the next argument. -/
structure Attending (S : Node → Prop) (m : Machine) (φ : Focus) : Prop where
  aligned : Aligned S m φ
  attends : Attends m φ

theorem poised_of_sketch (hp : Poised m .begin)
    (hs : m₁.frames.map Frame.sketch = m.frames.map Frame.sketch) : Poised m₁ .begin := by
  obtain ⟨x, outer, hc, he⟩ := hp
  obtain ⟨f, fs, hf, hfc, rfl⟩ := frames_of_cores hc
  obtain ⟨rfl, hφ⟩ := Prod.mk.inj hfc
  rw [hf, List.map_cons] at hs
  obtain ⟨f₁, fs₁, hf₁, hff, hfs⟩ := List.map_eq_cons_iff.1 hs
  obtain ⟨hnode, hff⟩ := Prod.mk.inj hff
  refine ⟨f₁.node, fs₁.map Frame.core, ?_, hnode ▸ he.of_sketch hfs⟩
  rw [cores_of_frames hf₁]
  rcases Phase.eq_or_asking (Prod.mk.inj hff).1 with h | ⟨k, rules, rules', -, h⟩
  · rw [h, hφ]
  · rw [hφ] at h
    cases h

theorem TakenUp.poised {r : Machine × Focus} (h : TakenUp m m.frames r) (hp : Poised m .begin) :
    Poised r.1 r.2 := by
  obtain ⟨gone, left, hsplit, hleft, hend⟩ := h.frames
  rcases hend with ⟨rfl, hr⟩ | ⟨hgone, v, hr⟩
  · rw [hr]
    exact poised_of_sketch hp (hsplit ▸ hleft)
  · rw [hr]
    obtain ⟨x, outer, hc, he⟩ := hp
    obtain ⟨f, gone, rfl⟩ := List.exists_cons_of_ne_nil hgone
    have hm := congrArg (List.map Frame.core) hsplit
    rw [← cores, hc, List.cons_append, List.map_cons, List.map_append] at hm
    obtain ⟨n, hn⟩ := Expects.of_append (gone.map Frame.core) ((List.cons.inj hm).2 ▸ he)
    exact ⟨n, hn.of_sketch hleft⟩

theorem TakenUp.attends {r : Machine × Focus} (h : TakenUp m m.frames r)
    (hq : Awaits m.frames n) : Attends r.1 r.2 := by
  obtain ⟨gone, left, hsplit, hleft, hend⟩ := h.frames
  rw [hsplit] at hq
  obtain ⟨n', hq⟩ := hq.of_append
  have hq := hq.of_sketch hleft
  rcases hend with ⟨-, hr⟩ | ⟨-, v, hr⟩ <;> exact hr ▸ ⟨n', hq⟩

/-- **Questions stay**, through all steps and stops. -/
theorem Attending.lasting (hP : Program S) : Lasting (Attending S) where
  step _ _ _ h hn :=
    ⟨h.aligned.step hP hn, h.attends.step hP h.aligned.ofProgram h.aligned.poised hn⟩
  resumption m h := by
    obtain ⟨n, hq⟩ := h.attends
    have ht := takenUp_resumption hq
    exact ⟨⟨(Custody.lasting (programCustody_lawful hP)).resumption m h.aligned.held,
      ht.poised h.aligned.poised⟩, ht.attends hq⟩
  stops m φ b stopNext h := by
    have hheld := (Custody.lasting (programCustody_lawful hP)).stops m φ b stopNext h.aligned.held
    refine ⟨⟨hheld, ?_⟩, ?_⟩
    · cases φ <;> exact h.aligned.poised
    · cases φ <;> exact h.attends

/-- Between two calls a machine that is stopped can be taken up, and in any case it holds only what
belongs to the program. -/
structure Attentive (S : Node → Prop) (m : Machine) : Prop where
  held : (programCustody S).Machines m
  waiting : m.isPending = true → Poised m .begin ∧ Attends m .begin

/-- **A machine attends to its questions all its life.** -/
theorem attending_perpetual {ts : List Node} (hP : Program (nodesOf ts)) :
    Perpetual ts (Attentive (nodesOf ts)) (Attending (nodesOf ts)) where
  lasting := Attending.lasting hP
  globals m ds h := by
    have hheld := Custody.machines_declareGlobals h.held (fun _ _ _ => ⟨trivial, fun _ h => h⟩) ds
    have hfr := (declareGlobals_frames m ds).1
    refine ⟨hheld, fun hp => ?_⟩
    rw [isPending, hfr] at hp
    obtain ⟨⟨x, outer, hc, he⟩, hq⟩ := h.waiting hp
    refine ⟨⟨x, outer, ?_, he⟩, ?_⟩
    · rw [cores, hfr]
      exact hc
    · show ∃ n, Awaits _ n
      rw [hfr]
      exact hq
  stops m b stopNext h := ⟨⟨h.held.cells, h.held.frames, h.held.result, h.held.host⟩, h.waiting⟩
  start m n h hp hn := by
    have hf : m.fresh.frames = [] := frames_of_isPending hp
    refine ⟨⟨⟨⟨h.held.cells, h.held.frames, by simp [fresh], h.held.host⟩, n, hn, .refl n⟩, ?_⟩, ?_⟩
    · show Expects (cores _) n
      rw [cores, hf]
      exact .root n
    · show Awaits _ n
      rw [hf]
      trivial
  taken m h hp := ⟨⟨⟨h.held, trivial⟩, (h.waiting hp).1⟩, (h.waiting hp).2⟩
  stopped m h := ⟨h.aligned.held.1, fun _ => ⟨h.aligned.poised, h.attends⟩⟩
  ended m w h hf := by
    refine ⟨Custody.machines_settle h.aligned.held, fun hp => ?_⟩
    rw [isPending_of_frames ((settle_frames m w).2.1.trans hf)] at hp
    cases hp
  reset m h :=
    ⟨Custody.machines_reset (programCustody_lawful hP) h.held, by simp [isPending, reset]⟩

theorem attentive_new (hh : ∀ r ∈ host, r.Faithful True fun f => ∃ t, S (.function t f.code))
    (next : Nat) : Attentive S { host, next } :=
  ⟨Custody.machines_new trivial hh next, by simp [isPending]⟩

/-- A machine with frames attends to its questions, and is about to go on if it is stopped. -/
theorem exists_attending {x : Moment} (hx : Throughout (Attentive S) (Attending S) x)
    (hf : x.1.frames ≠ []) : ∃ φ, Attending S x.1 φ := by
  obtain ⟨m, φ?⟩ := x
  cases φ? with
  | none =>
    cases hp : m.isPending with
    | true =>
      obtain ⟨hpoised, hq⟩ := hx.waiting hp
      exact ⟨.begin, ⟨⟨hx.held, trivial⟩, hpoised⟩, hq⟩
    | false => exact (hf (frames_of_isPending hp)).elim
  | some φ => exact ⟨φ, hx⟩

end Machine

end Steppable
