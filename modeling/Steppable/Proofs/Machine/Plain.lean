import Steppable.Proofs.Lexical.Renaming
import Steppable.Proofs.Machine.Abruptness
import Steppable.Proofs.Machine.Life

/-!
# To read a variable is to come to a plain value

A write stores what the value is when it is read, and only a plain value is written: an error or a
signal goes outwards instead. So no cell ever holds a variable, an error or a signal, whatever the
host answers: to read a variable once is to come to a plain value. This holds all the life of a
machine (`plain_perpetual`).
-/

namespace Steppable

/-! ## Cells -/

namespace Cells

variable {s : Cells} {v : Value}

/-- No cell holds a variable, an error or a signal. -/
def Plain (s : Cells) : Prop :=
  s.Each fun v => v.isReference = false ∧ v.isAbrupt = false

theorem plain_empty : Plain {} := by
  intro c
  simp [get, Value.isReference, Value.isAbrupt, Value.isError, Value.isSignal]

/-- What is read is plain. -/
theorem Plain.deref (h : s.Plain) (hv : v.isAbrupt = false) :
    (s.deref v).isReference = false ∧ (s.deref v).isAbrupt = false := by
  cases v with
  | reference c => exact h c
  | _ => exact ⟨rfl, hv⟩

/-- To read what has been read changes nothing. -/
theorem Plain.deref_deref (h : s.Plain) (v : Value) : s.deref (s.deref v) = s.deref v := by
  cases v with
  | reference c =>
    have hc : (s.get c).isReference = false := (h c).1
    show s.deref (s.get c) = s.get c
    generalize s.get c = w at hc
    cases w with
    | reference => cases hc
    | _ => rfl
  | _ => rfl

theorem Plain.set (h : s.Plain) (cell : Nat) (hv : v.isAbrupt = false) : (s.set cell v).Plain :=
  Each.set h cell (h.deref hv)

theorem Plain.unwind (h : s.Plain) (fs : List Frame) : (s.unwind fs).Plain :=
  Each.unwind h ⟨rfl, rfl⟩ fs

theorem Plain.captureAll (h : s.Plain) (ds : List Declaration) :
    (Machine.captureAll s ds).2.Plain :=
  Each.captureAll h ds

theorem Plain.activate (h : s.Plain) (callee : Closure) {vs : List Value}
    (hv : ∀ v ∈ vs, v.isAbrupt = false) : (Machine.activate s callee vs).Plain :=
  Each.activate h ⟨rfl, rfl⟩ callee fun v hm _ hs => Plain.deref hs (hv v hm)

end Cells

/-- The values that a frame keeps in this phase are neither errors nor signals. -/
def Phase.Plain (ψ : Phase) : Prop :=
  ∀ v ∈ ψ.values, v.isAbrupt = false

theorem Phase.plain_of_values {ψ : Phase} (h : ψ.values = []) : ψ.Plain := by
  simp [Phase.Plain, h]

namespace Machine

variable {m m₁ : Machine} {φ : Focus} {f : Frame} {n : Node} {v : Value} {ψ : Phase}

/-- The cells hold plain values, and the frames keep neither errors nor signals. -/
structure Plain (m : Machine) : Prop where
  cells : m.cells.Plain
  phases : ∀ c ∈ m.cores, c.2.Plain

/-! ## Parts of a step -/

theorem Alike.plain (ha : Alike m m₁) (h : m.Plain) : m₁.Plain :=
  ⟨ha.cells ▸ h.cells, ha.cores_eq ▸ h.phases⟩

theorem Plain.withCells (h : m.Plain) {s : Cells} (hs : s.Plain) :
    Plain { m with cells := s } :=
  ⟨hs, h.phases⟩

/-- The frames `fs` take the place of the top frame. -/
theorem Plain.withTop (h : m.Plain) {outer : List Frame} (fs : List Frame)
    (hf : m.frames = f :: outer) (hfs : ∀ g ∈ fs, g.phase.Plain) :
    Plain { m with frames := fs ++ outer } := by
  refine ⟨h.cells, fun c hc => ?_⟩
  obtain ⟨g, hg, rfl⟩ := List.mem_map.1 hc
  rcases List.mem_append.1 hg with hg | hg
  · exact hfs g hg
  · refine h.phases g.core ?_
    rw [cores_of_frames hf]
    exact List.mem_cons_of_mem _ (List.mem_map_of_mem hg)

theorem Plain.finish (h : m.Plain) (v : Value) : (m.finish v).1.Plain := by
  unfold Machine.finish
  split
  · exact h
  · rename_i f outer hf
    exact (h.withTop [] hf (by simp)).withCells (h.cells.unwind [f])

theorem Plain.await (h : m.Plain) (hψ : ψ.Plain) (n : Node) : (m.await ψ n).1.Plain := by
  unfold Machine.await
  split
  · exact h
  · rename_i f outer hf
    exact h.withTop [{ f with phase := ψ }] hf (by simpa using hψ)

theorem Plain.consult (h : m.Plain) (n : Node) (rules : List Host.Rule) :
    (consult n rules m).1.Plain := by
  obtain ⟨m₁, ha, ⟨w, hc⟩ | ⟨k, rules', a, hc, -⟩⟩ := consult_cases n rules m
  · rw [hc]
    exact (ha.plain h).finish w
  · rw [hc]
    exact (ha.plain h).await (Phase.plain_of_values rfl) a

theorem Plain.nextStatement (h : m.Plain) (last : Value) (ss : List Node) :
    (m.nextStatement last ss).1.Plain := by
  cases ss with
  | nil => exact h.finish last
  | cons n rest => exact h.await (Phase.plain_of_values rfl) n

theorem Plain.nextArgument (h : m.Plain) (callee : Closure) {done : List Value}
    (hd : ∀ v ∈ done, v.isAbrupt = false) (as : List Node) :
    (m.nextArgument callee done as).1.Plain := by
  cases as with
  | nil =>
    refine (h.withCells (h.cells.activate callee hd)).await (fun v hv => ?_) _
    obtain rfl := List.mem_singleton.1 hv
    rfl
  | cons a as =>
    refine h.await (fun v hv => ?_) a
    rcases List.mem_cons.1 hv with rfl | hv
    · rfl
    · exact hd v hv

theorem Plain.call (h : m.Plain) (n : Node) (callee : Closure) : (m.call n callee).1.Plain := by
  unfold Machine.call
  refine Plain.nextArgument ?_ callee (List.forall_mem_nil _) n.arguments
  split
  · rename_i f outer hf
    exact h.withTop [{ node := n }, { f with phase := .activation }] hf
      (by simp [Phase.Plain, Phase.values])
  · refine ⟨h.cells, fun c hc => ?_⟩
    obtain rfl := List.mem_singleton.1 hc
    exact Phase.plain_of_values rfl

/-! ## Steps -/

theorem plain_enter (h : m.Plain) (n : Node) : (m.enter n).1.Plain := by
  have he := enter_entering m n
  generalize m.enter n = r at he
  cases he with
  | @function t code captures cells hn hc =>
    have := h.cells.captureAll code.free
    rw [hc] at this
    exact ⟨this, h.phases⟩
  | @named t code captures cells d cell hn hc =>
    have := h.cells.captureAll code.free
    rw [hc] at this
    exact ⟨Cells.Plain.set this cell rfl, h.phases⟩
  | unbound code => exact ⟨h.cells.captureAll code.free, h.phases⟩
  | fault => exact ⟨h.cells, h.phases⟩
  | push =>
    have hpush : ∀ c ∈ (n, Phase.ready) :: m.cores, c.2.Plain :=
      List.forall_mem_cons.2 ⟨Phase.plain_of_values rfl, h.phases⟩
    split <;> exact ⟨h.cells, hpush⟩
  | _ => exact h

theorem plain_begin (h : m.Plain) (n : Node) : (m.begin n).1.Plain := by
  have hb := begin_beginning m n
  generalize m.begin n = r at hb
  cases hb with
  | await _ hv => exact h.await (Phase.plain_of_values hv) _
  | ask => exact h.consult n m.rules
  | @block t ss locals f outer _ hf =>
    have hs := h.withTop [{ f with phase := .statement ss }] hf
      (by simp [Phase.Plain, Phase.values])
    exact (hs.withCells (Cells.Each.registerAll h.cells ⟨rfl, rfl⟩ locals)).nextStatement _ _
  | jump | finish => exact h.finish _

theorem plain_receive (h : m.Plain) (hf : f.core ∈ m.cores) (v : Value) :
    (m.receive f v).1.Plain := by
  have hplain : v.isAbrupt = false → (m.cells.deref v).isAbrupt = false :=
    fun hv => (h.cells.deref hv).2
  have hr := receive_reaction m f v
  generalize m.receive f v = r at hr
  cases hr with
  | pass | abrupt | yield | result | unwrap => exact h.finish _
  | fault culprit message => exact ((alike_fault m culprit message).plain h).finish _
  | @write cell x w _ _ hx _ hv =>
    have hwritten : x.isAbrupt = false := by
      rcases hx with rfl | hx
      · exact hplain hv
      · exact Value.isAbrupt_of_isData hx
    exact (h.withCells (h.cells.set cell hwritten)).finish w
  | @await ψ c _ _ hvalues _ hv =>
    rcases hv with hv | hv
    · exact h.await (Phase.plain_of_values hv) c
    · exact h.await (fun w hw => hvalues w hw ▸ hplain hv) c
  | statement => exact h.nextStatement _ _
  | call => exact h.call _ _
  | members => exact h.consult _ _
  | @argument callee done rest hφ hv =>
    have hphase : f.phase.Plain := h.phases f.core hf
    rw [hφ] at hphase
    refine h.nextArgument callee (fun w hw => ?_) rest
    rcases List.mem_append.1 hw with hw | hw
    · exact hphase w (List.mem_cons_of_mem _ hw)
    · exact List.mem_singleton.1 hw ▸ hplain hv
  | @ask k rules =>
    unfold receiveArgument
    dsimp only
    split
    · unfold finishResolved
      split <;> exact ((alike_setResult m k _).plain h).finish _
    · exact ((alike_addArgument m k _).plain h).consult _ rules

/-- **A step stores nothing but plain values.** -/
theorem plain_step (h : m.Plain) (φ : Focus) : (m.step φ).1.Plain := by
  cases φ with
  | enter n => exact plain_enter h n
  | begin =>
    rw [step]
    split
    · exact plain_begin h _
    · exact h
  | give v =>
    rw [step]
    split
    · rename_i f outer hf
      exact plain_receive h (by simp [cores_of_frames hf, Frame.core]) v
    · exact h

/-! ## The life of a machine -/

theorem plain_takeUpAll {inner : List Frame} (hi : ∀ f ∈ inner, f.phase.Plain) (h : m.Plain) :
    (takeUpAll inner m).1.Plain := by
  induction inner generalizing m with
  | nil => exact h
  | cons f inner ih =>
    obtain ⟨hhead, hrest⟩ := List.forall_mem_cons.1 hi
    have hpush : Plain { m with frames := f :: m.frames } :=
      ⟨h.cells, List.forall_mem_cons.2 ⟨hhead, h.phases⟩⟩
    have hf : (({ m with frames := f :: m.frames } : Machine).takeUp f).1.Plain := by
      rcases takeUp_cases { m with frames := f :: m.frames } f with ⟨v, ht⟩ | ⟨-, ht⟩ | ht
      · rw [ht]
        exact hpush.finish v
      · rw [ht]
        exact hpush.consult _ _
      · rw [ht]
        exact hpush
    rcases takeUpAll_cons f inner m with ⟨v, m₁, ht, hall⟩ | ⟨-, hall⟩
    · rw [ht] at hf
      rw [hall]
      exact hf.withCells (hf.cells.unwind _)
    · rw [hall]
      exact ih hrest hf

theorem plain_declareGlobals (h : m.Plain) (ds : List Declaration) :
    (m.declareGlobals ds).Plain := by
  unfold declareGlobals
  induction ds generalizing m with
  | nil => exact h
  | cons d ds ih =>
    rw [List.foldl_cons]
    split
    · exact ih h
    · exact ih (m := { m with globals := d.id :: m.globals, cells := (m.cells.register d).2 })
        ⟨Cells.Each.register h.cells ⟨rfl, rfl⟩ d, h.phases⟩

/-- **No cell ever holds a variable, an error or a signal.** -/
theorem plain_perpetual (ts : List Node) : Perpetual ts Plain (fun m _ => m.Plain) where
  lasting := {
    step := fun m φ _ h _ => plain_step h φ
    resumption := fun m h =>
      plain_takeUpAll (m := { m with frames := [] })
        (fun f hf => h.phases f.core (List.mem_map_of_mem (List.mem_reverse.1 hf)))
        ⟨h.cells, List.forall_mem_nil _⟩
    stops := fun _ _ _ _ h => ⟨h.cells, h.phases⟩ }
  globals m ds h := plain_declareGlobals h ds
  stops _ _ _ h := ⟨h.cells, h.phases⟩
  start _ _ h _ _ := ⟨h.cells, h.phases⟩
  taken _ h _ := h
  stopped _ h := h
  ended m w h _ := by
    obtain ⟨hc, hf, -⟩ := settle_frames m w
    refine ⟨hc ▸ h.cells, ?_⟩
    rw [cores, hf]
    exact h.phases
  reset m h := ⟨h.cells.unwind m.frames, List.forall_mem_nil _⟩

theorem plain_of_reached {host : Host} {ts : List Node} (h : Reached host ts (m, none)) :
    m.Plain :=
  (plain_perpetual ts).of_reached (fun _ => ⟨Cells.plain_empty, List.forall_mem_nil _⟩) h

end Machine

end Steppable
