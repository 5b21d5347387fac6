import Mathlib.Data.List.Basic
import Steppable.Proofs.Machine.Retaking

/-!
# What an accessor is linked to

Whether one frame evaluates what the accessor of another one is applied to is told by an identity
alone. Much that stands above an accessor could be mistaken for it: the activation above a call has
the node of the call, the body of a function belongs to another tree perhaps, an argument is
evaluated right above the accessor that it is for or above a name several frames further in, and a
compound assignment has one node in two places. With one wrong link a host would answer for a frame
of another expression.

**Theorem (`linked_exactly`).** Of any two neighbouring frames, at any moment in the life of a
machine that evaluates trees which have been read, the inner one is linked to the outer one exactly
if it evaluates what the accessor of the outer one is applied to and the outer one waits for that.

The frames wait for one another at every moment (`attending_perpetual`), so what the outer frame
waits for tells which node the inner one has, and in a program none of the others has the identity of
what the accessor is applied to (`isOperandOf_iff`).
-/

namespace Steppable

variable {f g e : Frame} {inner outer : List Frame} {n : Node} {S : Node → Prop} {k : Nat}

/-- The frame stands right above `outer` and evaluates what the accessor is applied to. -/
def Frame.Applied (f outer : Frame) : Prop :=
  outer.phase = .accessed ∧ outer.node.left? = some f.node

/-- What holds of the frame `f` right above `g`, where `outer` are the frames below. -/
structure Neighbours (outer : List Frame) (g f : Frame) : Prop where
  linked : f.isOperandOf g = true ↔ f.Applied g
  /-- The activation above a call has the same node. -/
  activation : g.phase = .activation → f.node = g.node ∧ f.isOperandOf g = false
  argument : ∀ callee done rest, g.phase = .argument callee done rest →
    f.node ∈ g.node.arguments ∧ f.isOperandOf g = false
  /-- What a host asks for is an argument or an index of an accessor that may be further out; it is
  linked neither to that one nor to the frame that asks. -/
  asked : ∀ k rules, g.phase = .asking k rules → f.isOperandOf g = false ∧
    ∃ e, (g :: outer)[k]? = some e ∧ f.node ∈ e.node.arguments ∧ f.isOperandOf e = false
  body : ∀ callee, g.phase = .running callee →
    f.node = callee.code.body ∧ f.isOperandOf g = false
  /-- So a host that is asked at `f` sees it and the accessors below that wait so, and no others. -/
  chain : accessorChain (f :: g :: outer) = f :: (g :: outer).takeWhile (·.phase.isAccessed)

/-- Frames that wait for one another are linked only as they should be. -/
theorem neighbours_of_expects (hP : Program S) (hS : OfProgram S ((g :: outer).map Frame.core))
    (h : Expects ((g :: outer).map Frame.core) f.node) : Neighbours outer g f := by
  have hiff := isOperandOf_iff hP hS h
  have hno : g.phase.isAccessed = false → f.isOperandOf g = false := fun hg =>
    Bool.eq_false_iff.2 fun hf => Bool.false_ne_true (hg.symm.trans (hiff.1 hf))
  have hchain := accessorChain_eq hP hS h
  obtain ⟨x, φ, result, gathered⟩ := g
  change Expects ((x, φ) :: outer.map Frame.core) f.node at h
  refine ⟨⟨fun hf => ?_, fun hf => hiff.2 (by rw [hf.1]; rfl)⟩, ?_, ?_, ?_, ?_, hchain⟩
  · obtain rfl := Phase.isAccessed_iff.1 (hiff.1 hf)
    exact ⟨rfl, h.left_of_accessed⟩
  · rintro rfl
    refine ⟨?_, hno rfl⟩
    cases h with
    | child hw => cases hw
    | activation => rfl
  · rintro callee done rest rfl
    refine ⟨?_, hno rfl⟩
    cases h with
    | child hw => cases hw
    | argument hn => exact hn
  · rintro k rules rfl
    refine ⟨hno rfl, ?_⟩
    cases h with
    | child hw => cases hw
    | @asked _ y _ _ _ _ hk hy hn he =>
      have hye : ∃ e, (({ node := x, phase := .asking k rules, result, gathered } : Frame) ::
          outer)[k]? = some e ∧ e.node = y := by
        have hmap : (x :: (outer.map Frame.core).map (·.1)) =
            (({ node := x, phase := .asking k rules, result, gathered } : Frame) :: outer).map
              Frame.node := by
          simp [Frame.core, Function.comp_def]
        rw [hmap, List.getElem?_map] at hy
        exact Option.map_eq_some_iff.1 hy
      obtain ⟨e, hek, rfl⟩ := hye
      refine ⟨e, hek, hn, Bool.eq_false_iff.2 fun hf => ?_⟩
      obtain ⟨l, hl, hid⟩ := isOperandOf_iff_left.1 hf
      exact hP.argument (hS.tail.of_getElem (hS _ List.mem_cons_self).1 hy) (.refl _) hl hn hid.symm
  · rintro callee rfl
    refine ⟨?_, hno rfl⟩
    generalize f.node = y at h
    cases h with
    | child hw => cases hw
    | body => rfl

namespace Machine

variable {host : Host} {ts : List Node} {x : Moment} {next : Nat}

/-- **Links are never accidental**, at any moment and of any two neighbouring frames. -/
theorem linked_exactly (hr : ReadInTurn ts next)
    (hh : ∀ r ∈ host, r.Faithful True fun f => ∃ t, nodesOf ts (.function t f.code))
    (hx : Reached host ts x) (hf : x.1.frames = inner ++ f :: g :: outer) :
    Neighbours outer g f := by
  have hP := hr.program
  have hthrough := (attending_perpetual hP).of_reached (attentive_new hh) hx
  obtain ⟨φ, ha⟩ := exists_attending hthrough (by simp [hf])
  have hS := ha.aligned.ofProgram
  rw [cores, hf, List.map_append] at hS
  exact neighbours_of_expects hP (fun c hc => hS c (by simp_all))
    (ha.aligned.poised.expects_inner hf)

/-- The call waits for the operation that it is applied to. -/
theorem linked_exactly_call :
    ∃ x f g, Reached Host.standard [((Parser.new {}).parse "(!null)(!true)").1] x ∧
      x.1.frames = [f, g] ∧ f.isOperandOf g = true ∧ Neighbours [] g f := by
  have hrun : (advance 3 {} (.enter ((Parser.new {}).parse "(!null)(!true)").1)).map
      (fun z => (z.1.frames.length, (accessorChain z.1.frames).length)) = some (2, 2) := by
    decide +kernel
  obtain ⟨z, hz, hlen⟩ := Option.map_eq_some_iff.1 hrun
  obtain ⟨hframes, hchain⟩ := Prod.mk.inj hlen
  obtain ⟨f, g, hf⟩ := List.length_eq_two.1 hframes
  have hx : Reached Host.standard [((Parser.new {}).parse "(!null)(!true)").1] (z.1, some z.2) :=
    reached_of_advance hz
  have hf' : z.1.frames = [] ++ [f, g] := hf
  refine ⟨_, f, g, hx, hf, ?_, linked_exactly (.read _ (.none 1) (.new {} 1) (Nat.le_refl 1))
    (Host.forall_always (Host.faithful_standard _ _)) hx hf'⟩
  rw [hf, accessorChain] at hchain
  split at hchain
  · assumption
  · simp at hchain

end Machine

end Steppable
