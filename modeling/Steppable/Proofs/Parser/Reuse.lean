import Steppable.Proofs.Parser.Diagnosis
import Steppable.Proofs.Parser.Mirroring
import Steppable.Proofs.Parser.Sources

/-!
# A parser can be used again

An error ends the reading of a source anywhere: in a list of parameters, in a block, in a function
inside a function. Whatever has been opened until then is closed again, so the next source finds the
parser as if there had been no source before it.

**Theorem (`reusable`).** After every source the same scopes are open as before it, and the names that
still refer to something are global. Without a global scope the next source gives the tree that a
parser gives that has read nothing: only the identities in it are higher.
-/

namespace Steppable.Parser

variable {p p' : Parser} {k : Nat}

/-- The parser at the beginning of a source. -/
def starting (p : Parser) (source : String) : Parser :=
  { p with cursor := .ofSource source, failed := false, functions := [] }

/-- What is made of a source depends on what parsers have in common. -/
theorem Alike.parse {source : String} (h : (p.starting source).Alike k (p'.starting source)) :
    (p'.parse source).1 = (p.parse source).1.raised k ∧
      (p.parse source).2.Alike k (p'.parse source).2 := by
  obtain ⟨n, q, hrun, -⟩ := covers_analyse (fuelled_source p source)
  obtain ⟨q', hrun', hq⟩ := mirrors_analyse (Nat.le_refl _) _ _ h n q hrun
  have hrun' : (analyse _).run { p' with cursor := .ofSource source } = some (n.raised k, q') :=
    hrun'
  rw [Parser.parse, Parser.parse, hrun, hrun']
  exact ⟨rfl, hq⟩

/-- Between two sources nothing is visible, if no scope is global. -/
theorem Idle.alike_new (h : p.Idle) (hg : p.scope.options.global = false) (source : String) :
    ((Parser.new p.scope.options 0).starting source).Alike p.next (p.starting source) := by
  have hlevels : p.scope.levels = [] := by rw [h.levels, hg]; rfl
  have hchain (x : String) : p.scope.chain x = [] := by
    have hx := h.coherent.tidy x
    rwa [hlevels, List.flatMap_nil, List.filter_nil, List.map_eq_nil_iff] at hx
  have hnew (x : String) : (Scope.new p.scope.options).chain x = [] := by
    simp [Scope.new, Scope.chain]
  refine ⟨rfl, ⟨rfl, ?_, fun x => ?_, fun x e he => ?_⟩, rfl, rfl, (Nat.zero_add _).symm⟩
  · simp [starting, Parser.new, Scope.new, hg, hlevels]
  · exact (hchain x).trans (by rw [starting, Parser.new, hnew]; rfl)
  · rw [starting, Parser.new, hnew] at he
    cases he

theorem Idle.depth_eq (h : p.Idle) : p.scope.depth = p.scope.options.global.toNat := by
  rw [Scope.depth, h.levels]
  cases p.scope.options.global <;> rfl

/-- Names that refer to something between two sources are global. -/
theorem Idle.mem_globals {x : String} {d : Declaration} (h : p.Idle)
    (hf : p.scope.find? x = some d) : d ∈ p.scope.globals := by
  have hd := h.coherent.tidy.mem_of_find hf
  rw [h.levels] at hd
  split at hd
  · simpa using hd
  · simp at hd

/-- **A parser can be used again, whatever it has read.** After a source as many scopes are open as
before it, and all names that refer to something refer to global declarations. If no scope is global,
then every source gives the same tree as with a new parser under the same rules; the identities of
both are the same when each is counted from the first one that its parser had left. -/
theorem reusable (h : p.Used) (source : String) :
    (p.parse source).2.scope.depth = p.scope.depth ∧
    (∀ x d, (p.parse source).2.scope.find? x = some d → d ∈ (p.parse source).2.scope.globals) ∧
    (p.scope.options.global = false → ∀ next,
      (p.parse source).1.raised next =
        ((Parser.new p.scope.options next).parse source).1.raised p.next) := by
  have hs := parse_sound h.idle source
  refine ⟨?_, fun x d => hs.idle.mem_globals, fun hg next => ?_⟩
  · rw [hs.idle.depth_eq, h.idle.depth_eq, hs.options]
  · -- Both trees come from the one whose identities begin at zero.
    have hused := (h.idle.alike_new hg source).parse.1
    have hnew := ((idle_new p.scope.options next).alike_new hg source).parse.1
    rw [hused, hnew, Node.raised_raised, Node.raised_raised]
    exact congrArg (Node.raised · _) (Nat.add_comm p.next next)

/-- A source breaks off in the parameters of a function inside a block; the next one is read as if it
were the first. -/
theorem reusable_after_error :
    ∃ p, p = ((Parser.new {}).parse "\x7b function (").2 ∧ p.failed = true ∧
      (p.parse "f").1.raised 1 = ((Parser.new {}).parse "f").1.raised p.next := by
  have hfailed : ((Parser.new {}).parse "\x7b function (").2.failed = true := by decide +kernel
  have hused := (Used.new {} 1).parse "\x7b function ("
  have hoptions := (parse_sound (idle_new {} 1) "\x7b function (").options
  refine ⟨_, rfl, hfailed, ?_⟩
  generalize ((Parser.new {}).parse "\x7b function (").2 = p at hused hoptions
  have h := (reusable hused "f").2.2 (by rw [hoptions]; rfl) 1
  rwa [hoptions] at h

end Steppable.Parser
