import Steppable.Proofs.Machine.Life
import Steppable.Proofs.Machine.Resolution
import Steppable.Proofs.Machine.Stops

/-!
# Stepping is transparent

An evaluation may be stopped at any breakpoints, resumed under others and stepped through node by
node. With a host that resolves what it is asked and goes by the same rules whatever it remembers,
none of this can be observed in the end: the run that is stopped goes through the same moments as the
one that is not.

Two facts are put together. Without its stops a run does the same (`mirrors_run`), and to take up a
stopped evaluation changes nothing, because the machine is orderly wherever it stops
(`Orderly.lasting`). So a schedule of calls is one run cut into pieces.

Other hosts do observe it (`stepping_observed`), for a question is put again after a stop: a host
that goes by what it remembers may by then have another answer, and one that leaves an error and
passes is not asked again at all.
-/

namespace Steppable

/-- The custody of the functions whose code belongs to a program. -/
def programCustody (S : Node → Prop) : Custody where
  nodes := S
  cells _ := True
  functions _ f := ∃ t, S (.function t f.code)
  rules r := r.Faithful True fun f => ∃ t, S (.function t f.code)
  references := True

/-- Of the trees it is enough to know that they are closed and that their literals are data. -/
theorem programCustody_lawful_of {S : Node → Prop}
    (children : ∀ {n c : Node}, S n → c ∈ n.children → S c)
    (literal : ∀ {t : Tag} {v : Value}, S (.constant t v) → v.isData = true) :
    (programCustody S).Lawful where
  children := children
  literal := literal
  code h := h
  renew _ _ h := h
  register _ _ _ _ := ⟨trivial, fun _ h => h⟩
  unregister _ _ _ := ⟨trivial, fun _ h => h⟩
  set _ _ _ _ := ⟨trivial, fun _ h => h⟩
  capture _ _ := ⟨trivial, fun _ h => h⟩
  push _ _ _ := ⟨trivial, fun _ h => h⟩
  make _ _ hn _ := ⟨_, hn⟩
  faithful _ _ hr := hr
  members v := Host.faithful_members _ _ v

theorem programCustody_lawful {S : Node → Prop} (hP : Program S) : (programCustody S).Lawful :=
  programCustody_lawful_of hP.children hP.literal

/-- The rule settles what it is asked about, and answers with no function that is foreign to the
program. -/
structure Host.Rule.Tame (S : Node → Prop) (r : Host.Rule) : Prop where
  resolves : r.Resolves
  native : r.Faithful True fun f => ∃ t, S (.function t f.code)

theorem Host.tame_standard (S : Node → Prop) : ∀ r ∈ Host.standard, r.Tame S :=
  fun r hr => ⟨Host.resolves_standard r hr, Host.faithful_standard _ _ r hr⟩

/-- The handler leaves a result on the accessor that the rule has reached, but the rules after it may
be tried all the same. -/
def Host.Rule.Settles (r : Host.Rule) : Prop :=
  ∀ q record, (r.handler q record).1 ≠ .decline

namespace Machine

variable {m m' m₁ : Machine} {φ : Focus} {S : Node → Prop} {v : Value} {j k : Nat} {n : Node}

/-! ## Orderly machines -/

/-- What a machine holds that belongs to a program is of the program. -/
theorem ofProgram_of_machines (h : (programCustody S).Machines m) : OfProgram S m.cores := by
  intro c hc
  obtain ⟨f, hf, rfl⟩ := List.mem_map.1 hc
  have hk := h.frames f hf
  refine ⟨hk.node, fun callee hφ => ?_⟩
  exact hk.values (.function callee) (by rw [show f.phase = .running callee from hφ]; simp [Phase.values])

/-- All that the machine holds belongs to a program, its frames wait for one another, and no result
and no question is left open. -/
structure Orderly (S : Node → Prop) (m : Machine) (φ : Focus) : Prop where
  host : ∀ r ∈ m.host, r.Tame S
  steady : m.host.Steady
  held : (programCustody S).Holds m φ
  poised : Poised m φ
  calm : Calm m φ

theorem Orderly.ofProgram (h : Orderly S m φ) : OfProgram S m.cores :=
  ofProgram_of_machines h.held.1

theorem Orderly.obliging (h : Orderly S m φ) : ∀ r ∈ m.host, r.Resolves ∧ r.Respects m.host :=
  fun r hr => ⟨(h.host r hr).resolves, h.steady r hr⟩

/-- **An orderly machine stays so**, wherever it is stopped. -/
theorem Orderly.lasting (hP : Program S) : Lasting (Orderly S) where
  step m φ φ' h hn := {
    host := by
      rw [show (m.step φ).1.host = m.host from congrArg Prod.fst (settings_step m φ)]
      exact h.host
    steady := by
      rw [show (m.step φ).1.host = m.host from congrArg Prod.fst (settings_step m φ)]
      exact h.steady
    held := (Custody.lasting (programCustody_lawful hP)).step m φ φ' h.held hn
    poised := h.poised.step hP h.ofProgram hn
    calm := h.calm.step hP h.obliging h.ofProgram h.poised hn }
  resumption m h := by
    rw [resumption_eq_of_calm h.calm]
    exact h
  stops m φ b stopNext h := ⟨h.host, h.steady, (Custody.lasting (programCustody_lawful hP)).stops m φ
    b stopNext h.held, by cases φ <;> exact h.poised, h.calm.results, h.calm.questions⟩

/-- Between two calls the machine is orderly if it is stopped, and in any case holds only what
belongs to the program. -/
structure Settled (S : Node → Prop) (m : Machine) : Prop where
  host : ∀ r ∈ m.host, r.Tame S
  steady : m.host.Steady
  held : (programCustody S).Machines m
  waiting : m.isPending = true → Poised m .begin ∧ Calm m .begin

theorem Orderly.settled (h : Orderly S m .begin) : Settled S m :=
  ⟨h.host, h.steady, h.held.1, fun _ => ⟨h.poised, h.calm⟩⟩

theorem settled_new {host : Host} (hh : ∀ r ∈ host, r.Tame S) (hs : host.Steady) (next : Nat) :
    Settled S { host, next } :=
  ⟨hh, hs, Custody.machines_new trivial (fun r hr => (hh r hr).native) next, by simp [isPending]⟩

theorem settled_always {rules : List Host.Rule} (hh : ∀ r ∈ rules, r.Tame S) (next : Nat) :
    Settled S { host := rules, next } :=
  settled_new (Host.forall_always hh) (Host.steady_always rules) next

/-- **A machine is orderly all its life.** -/
theorem orderly_perpetual {ts : List Node} (hP : Program (nodesOf ts)) :
    Perpetual ts (Settled (nodesOf ts)) (Orderly (nodesOf ts)) where
  lasting := Orderly.lasting hP
  globals m ds h := by
    have hheld := Custody.machines_declareGlobals h.held (fun _ _ _ => ⟨trivial, fun _ h => h⟩) ds
    obtain ⟨hfr, hho⟩ := declareGlobals_frames m ds
    refine ⟨hho ▸ h.host, hho ▸ h.steady, hheld, fun hp => ?_⟩
    rw [isPending, hfr] at hp
    obtain ⟨⟨x, outer, hc, he⟩, hcalm⟩ := h.waiting hp
    refine ⟨⟨x, outer, ?_, he⟩, hfr ▸ hcalm.results, ?_⟩
    · rw [cores, hfr]
      exact hc
    · rw [hho, rules_declareGlobals, hfr]
      exact hcalm.questions
  stops m b stopNext h :=
    ⟨h.host, h.steady, ⟨h.held.cells, h.held.frames, h.held.result, h.held.host⟩, fun hp =>
      ⟨(h.waiting hp).1, (h.waiting hp).2.results, (h.waiting hp).2.questions⟩⟩
  start m n h hp hn := by
    have hf : m.fresh.frames = [] := frames_of_isPending hp
    refine ⟨h.host, h.steady,
      ⟨⟨h.held.cells, h.held.frames, by simp [fresh], h.held.host⟩, n, hn, .refl n⟩, ?_, ?_, ?_⟩
    · show Expects (cores _) n
      rw [cores, hf]
      exact .root n
    · rw [hf]
      exact fun f hf => by simp at hf
    · rw [hf]
      trivial
  taken m h hp :=
    ⟨h.host, h.steady, ⟨h.held, trivial⟩, (h.waiting hp).1, (h.waiting hp).2⟩
  stopped m h := h.settled
  ended m w h hf := by
    obtain ⟨-, hfr, hset⟩ := settle_frames m w
    have hho : (m.settle w).2.host = m.host := congrArg Prod.fst hset
    refine ⟨hho ▸ h.host, hho ▸ h.steady, Custody.machines_settle h.held, fun hp => ?_⟩
    rw [isPending_of_frames (hfr.trans hf)] at hp
    simp at hp
  reset m h :=
    ⟨h.host, h.steady, Custody.machines_reset (programCustody_lawful hP) h.held,
      by simp [isPending, reset]⟩

/-- A machine keeps its host all its life. -/
theorem host_perpetual (host : Host) (ts : List Node) :
    Perpetual ts (fun m => m.host = host) (fun m _ => m.host = host) where
  lasting := {
    step := fun m φ _ h _ => (congrArg Prod.fst (settings_step m φ)).trans h
    resumption := fun m h => (congrArg Prod.fst (settings_resumption m)).trans h
    stops := fun _ _ _ _ h => h }
  globals m ds h := (declareGlobals_frames m ds).2.trans h
  stops _ _ _ h := h
  start _ _ h _ _ := h
  taken _ h _ := h
  stopped _ h := h
  ended m w h _ := (congrArg Prod.fst (settle_frames m w).2.2).trans h
  reset _ h := h

/-! ## Runs without their stops -/

theorem settle_quiet (m : Machine) (w : Value) :
    m.quiet.settle w = ((m.settle w).1, (m.settle w).2.quiet) := by
  unfold settle
  cases w with
  | signal kind culprit v => cases kind <;> rfl
  | _ => rfl

/-- What the run of a machine without stops is, if the run with them ends so. -/
def Mirrors (k : Nat) (m : Machine) (φ : Focus) : Machine × Status → Prop
  | (m', .finished v) => run k m.quiet φ = (m'.quiet, .finished v)
  | (m', .suspended) => ∃ i, 0 < i ∧ i ≤ k ∧ Path i m.quiet φ m'.quiet .begin
  | (_, .exhausted) => (run k m.quiet φ).2 = .exhausted

theorem mirrors_run (k : Nat) (m : Machine) (φ : Focus) : Mirrors k m φ (run k m φ) := by
  induction k generalizing m φ with
  | zero => exact rfl
  | succ k ih =>
    rw [run]
    rcases hs : m.step φ with ⟨m₁, p⟩
    have hq : ∀ ψ, p.next? = some ψ → m.quiet.step φ = (m₁.quiet, .running ψ) := by
      intro ψ hn
      have := quiet_step_of_next (m := m) (φ := φ) (ψ := ψ) (by rw [hs]; exact hn)
      rwa [hs] at this
    cases p with
    | running ψ =>
      have hi := ih m₁ ψ
      have hrun : run (k + 1) m.quiet φ = run k m₁.quiet ψ := by rw [run, hq ψ rfl]
      dsimp only
      rcases hres : run k m₁ ψ with ⟨m', s⟩
      rw [hres] at hi
      cases s with
      | finished v => exact hrun.trans hi
      | exhausted => exact (congrArg Prod.snd hrun).trans hi
      | suspended =>
        obtain ⟨i, -, hik, hp⟩ := hi
        exact ⟨i + 1, Nat.succ_pos i, Nat.succ_le_succ hik, .step (hq ψ rfl) hp⟩
    | suspended => exact ⟨1, Nat.one_pos, Nat.succ_le_succ (Nat.zero_le k), .single (hq .begin rfl)⟩
    | finished w =>
      obtain ⟨rfl, hf, rfl⟩ := step_finished hs
      have h₂ : m₁.quiet.step (.give w) = (m₁.quiet, .finished w) := by
        have : m₁.quiet.frames = [] := hf
        simp [step, this]
      show run (k + 1) m₁.quiet (.give w) = ((m₁.settle w).2.quiet, .finished (m₁.settle w).1)
      rw [run, h₂]
      dsimp only
      rw [settle_quiet]

theorem run_finished_mono (h : run j m φ = (m', .finished v)) (hjk : j ≤ k) :
    run k m φ = (m', .finished v) := by
  obtain ⟨i, m₁, φ₁, m₂, w, hi, hp, hs, hw⟩ := run_eq_finished h
  exact run_of_path_finished hp hs hw (Nat.lt_of_lt_of_le hi hjk)

/-- However many steps are allowed, an evaluation ends in one way. -/
theorem run_finished_unique {m₂ : Machine} {w : Value} (h : run j m φ = (m₁, .finished v))
    (h' : run k m φ = (m₂, .finished w)) : m₁ = m₂ ∧ v = w := by
  have he := (run_finished_mono h (Nat.le_max_left j k)).symm.trans
    (run_finished_mono h' (Nat.le_max_right j k))
  obtain ⟨hm, hs⟩ := Prod.mk.inj he
  exact ⟨hm, Status.finished.inj hs⟩

/-- No path is longer than a run that ends. -/
theorem Path.lt_of_run_finished {φ₁ : Focus} (hp : Path j m φ m₁ φ₁)
    (h : run k m φ = (m', .finished v)) : j < k := by
  apply Nat.lt_of_not_le
  intro hkj
  have hj := run_finished_mono h hkj
  have hex : run j m φ = (m₁, .exhausted) := run_of_path (k := 0) hp
  simp [hex] at hj

/-! ## Schedules -/

theorem isPending_of_poised (h : Poised m .begin) : m.isPending = true := by
  obtain ⟨x, outer, hc, -⟩ := h
  obtain ⟨f, fs, hf, -⟩ := frames_of_cores hc
  simp [isPending, hf]

/-- To continue an orderly machine is to run it on. -/
theorem obey_of_orderly (hP : Program S) (h : Orderly S m .begin) (c : Command) :
    ∃ m₁, m₁.quiet = m.quiet ∧ Orderly S m₁ .begin ∧ m.obey c = .ok (run c.steps m₁ .begin) := by
  have h₁ := (Orderly.lasting hP).stops m .begin c.breakpoints (c.into || m.stopNext) h
  refine ⟨m.withStops c.breakpoints (c.into || m.stopNext), rfl, h₁, ?_⟩
  rw [obey_of_isPending c (isPending_of_poised h.poised), resumption_eq_of_calm h₁.calm]

/-- Where a schedule ends, the run without stops ends in the same way. -/
theorem run_quiet_of_drive (hP : Program S) (h : Orderly S m φ) (k : Nat) (cs : List Command)
    (hd : drive cs (run k m φ) = (m', .finished v)) :
    ∃ j, run j m.quiet φ = (m'.quiet, .finished v) := by
  induction cs generalizing m φ k with
  | nil =>
    have hm := mirrors_run k m φ
    have hd : run k m φ = (m', .finished v) := hd
    rw [hd] at hm
    exact ⟨k, hm⟩
  | cons c cs ih =>
    have hm := mirrors_run k m φ
    have hret := (Orderly.lasting hP).run k h
    rcases hr : run k m φ with ⟨m₁, s⟩
    rw [hr] at hd hm hret
    cases s with
    | finished w =>
      have hd : (m₁, Status.finished w) = (m', .finished v) := hd
      rw [hd] at hm
      exact ⟨k, hm⟩
    | exhausted =>
      have hd : (m₁, Status.exhausted) = (m', .finished v) := hd
      simp at hd
    | suspended =>
      obtain ⟨i, -, -, hp⟩ := hm
      obtain ⟨m₂, hq, h₂, ho⟩ := obey_of_orderly hP hret c
      rw [drive, ho] at hd
      obtain ⟨j, hj⟩ := ih h₂ c.steps hd
      rw [hq] at hj
      exact ⟨i + j, (run_of_path hp).trans hj⟩

/-- Where the run without stops ends, so does every schedule that goes on long enough. -/
theorem drive_of_run_quiet (hP : Program S) (h : Orderly S m φ)
    (hj : run j m.quiet φ = (m', .finished v)) (hk : j ≤ k) (cs : List Command)
    (hc : ∀ c ∈ cs, j ≤ c.steps) (hl : j ≤ cs.length) :
    ∃ m₁, drive cs (run k m φ) = (m₁, .finished v) ∧ m₁.quiet = m' := by
  induction j using Nat.strongRecOn generalizing m φ k cs with
  | ind j ih =>
    have hm := mirrors_run k m φ
    have hret := (Orderly.lasting hP).run k h
    have hjk := run_finished_mono hj hk
    rcases hr : run k m φ with ⟨m₁, s⟩
    rw [hr] at hm hret
    cases s with
    | finished w =>
      refine ⟨m₁, ?_⟩
      have he : (m₁.quiet, Status.finished w) = (m', .finished v) := Eq.trans hm.symm hjk
      obtain ⟨h₁, h₂⟩ := Prod.mk.inj he
      obtain rfl := Status.finished.inj h₂
      exact ⟨by cases cs <;> rfl, h₁⟩
    | exhausted =>
      have he : (run k m.quiet φ).2 = .exhausted := hm
      simp [hjk] at he
    | suspended =>
      -- The rest of the run without stops is shorter, and there is a command for it.
      obtain ⟨i, hi, -, hp⟩ := hm
      have hij : i < j := hp.lt_of_run_finished hj
      cases cs with
      | nil => simp at hl; omega
      | cons c cs =>
        obtain ⟨m₂, hq, h₂, ho⟩ := obey_of_orderly hP hret c
        have hrest : run (j - i) m₂.quiet .begin = (m', .finished v) := by
          rw [hq, ← run_of_path hp, Nat.add_sub_cancel' (Nat.le_of_lt hij)]
          exact hj
        rw [drive, ho]
        refine ih (j - i) (by omega) h₂ hrest ?_ cs (fun c' hc' => ?_) ?_
        · have := hc c (by simp)
          omega
        · have := hc c' (by simp [hc'])
          omega
        · simp only [List.length_cons] at hl
          omega

/-- No breakpoints and no schedule make a difference to the evaluation of `n`: if a schedule ends
then so does the one call that starts the evaluation without breakpoints, with the same value, the
same cells, the same calls of the host and the same memory of it; and if that call ends, then so does
every schedule that goes on long enough. -/
structure Transparent (m : Machine) (n : Node) : Prop where
  single : ∀ (b : Breakpoints) (steps : Nat) (cs : List Command) (m₁ : Machine) (v : Value),
    ({ m with breakpoints := b }.start n steps).map (drive cs) = .ok (m₁, .finished v) →
    ∃ j m₂, (∀ k, j ≤ k → { m with breakpoints := {} }.start n k = .ok (m₂, .finished v)) ∧
      m₂.cells = m₁.cells ∧ m₂.calls = m₁.calls ∧ m₂.record = m₁.record
  schedule : ∀ (j : Nat) (m₂ : Machine) (v : Value),
    { m with breakpoints := {} }.start n j = .ok (m₂, .finished v) →
    ∀ (b : Breakpoints) (steps : Nat) (cs : List Command),
      j ≤ steps → (∀ c ∈ cs, j ≤ c.steps) → j ≤ cs.length →
      ∃ m₁, ({ m with breakpoints := b }.start n steps).map (drive cs) = .ok (m₁, .finished v) ∧
        m₁.cells = m₂.cells ∧ m₁.calls = m₂.calls ∧ m₁.record = m₂.record

/-- **Stepping is transparent** on every idle machine whose host resolves what it is asked and does
not go by what it remembers, for all trees that have been read in turn. -/
theorem stepping_transparent {host : Host} {ts : List Node} {next : Nat}
    (ht : ReadInTurn ts next) (hh : ∀ r ∈ host, r.Tame (nodesOf ts)) (hs : host.Steady)
    (hm : Reached host ts (m, none)) (hi : m.isPending = false) (hn : n ∈ ts) : Transparent m n := by
  have hP := ht.program
  have hperp := orderly_perpetual hP
  have hstart : ∀ b, Orderly (nodesOf ts) (fresh { m with breakpoints := b }) (.enter n) := fun b =>
    hperp.start _ n (hperp.of_reached (settled_new hh hs) (hm.turn (.breakpoints m b))) hi hn
  have hquiet : ∀ b, quiet (fresh { m with breakpoints := b }) = fresh { m with breakpoints := {} } :=
    fun _ => rfl
  constructor
  · intro b steps cs m₁ v hd
    rw [start_eq (m := { m with breakpoints := b }) hi] at hd
    obtain ⟨j, hj⟩ := run_quiet_of_drive hP (hstart b) steps cs (Except.ok.inj hd)
    rw [hquiet] at hj
    refine ⟨j, m₁.quiet, fun k hk => ?_, rfl, rfl, rfl⟩
    rw [start_eq (m := { m with breakpoints := {} }) hi, run_finished_mono hj hk]
  · intro j m₂ v hj b steps cs hsteps hcs hlen
    rw [start_eq (m := { m with breakpoints := {} }) hi, ← hquiet b] at hj
    obtain ⟨m₁, hd, hq⟩ :=
      drive_of_run_quiet hP (hstart b) (Except.ok.inj hj) hsteps cs hcs hlen
    refine ⟨m₁, ?_, by rw [← hq]; rfl, by rw [← hq]; rfl, by rw [← hq]; rfl⟩
    rw [start_eq (m := { m with breakpoints := b }) hi]
    exact congrArg Except.ok hd

/-- The standard host on a new machine is one case. -/
theorem stepping_transparent_standard :
    Transparent {} ((Parser.new {}).parse "var i = 0; while (i < 3) i = i + Number('1'); i").1 :=
  stepping_transparent (.read _ (.none 1) (.new {} 1) (Nat.le_refl 1))
    (Host.forall_always (Host.tame_standard _)) (Host.steady_always _) (reached_new _ _ 1) rfl
    (List.mem_append_right [] (List.mem_singleton_self _))

/-! ## Hosts that observe stepping -/

/-- A machine whose host answers for `f` in another way once `g` has been called. -/
def fickle : Machine :=
  { host := ⟨fun record => [⟨["g"], .call 0, Host.noteArguments⟩,
      ⟨["f"], .call 1, Host.answering fun _ => .value (.boolean record.log.isEmpty)⟩]⟩ }

/-- A machine whose host leaves an error on `f` before it notes the arguments. -/
def reluctant : Machine :=
  { host := Host.always [⟨[], .get "f", Host.answering fun _ => .failAndPass "odd"⟩,
      ⟨["f"], .call 1, Host.noteArguments⟩] }

/-- What is known of an evaluation that has ended: the calls of handlers and the value. -/
def told : Except Misuse (Machine × Status) → Option (List Host.Call × Value)
  | .ok (m, .finished v) => some (m.calls, v)
  | _ => none

theorem told_eq_some {r : Except Misuse (Machine × Status)} {calls : List Host.Call}
    (h : told r = some (calls, v)) : ∃ m, r = .ok (m, .finished v) ∧ m.calls = calls := by
  unfold told at h
  split at h
  · obtain ⟨rfl, rfl⟩ := Prod.mk.inj (Option.some.inj h)
    exact ⟨_, rfl, rfl⟩
  · cases h

/-- Stops before every node that evaluation can stop before, so many times. -/
def patiently (k : Nat) : List Command :=
  List.replicate k { breakpoints := { always := true }, steps := k }

/-- It is enough to see a difference in the calls and the value. -/
theorem not_transparent (k : Nat) (test : List Host.Call × Value → Bool)
    (h : (told ({ m with breakpoints := {} }.start n k)).map test = some true)
    (h' : (told (({ m with breakpoints := { always := true } }.start n k).map
      (drive (patiently k)))).map test = some false) : ¬ Transparent m n := by
  intro ht
  obtain ⟨⟨calls, v⟩, hr, htrue⟩ := Option.map_eq_some_iff.1 h
  obtain ⟨m₂, hstart, rfl⟩ := told_eq_some hr
  obtain ⟨m₁, hdrive, -, hcalls, -⟩ := ht.schedule k m₂ v hstart { always := true } k (patiently k)
    (Nat.le_refl k) (fun c hc => List.eq_of_mem_replicate hc ▸ Nat.le_refl k) (by simp [patiently])
  rw [hdrive, told, Option.map_some, hcalls, htrue] at h'
  cases h'

/-- **Hosts can tell whether evaluation stops**, although their handlers resolve all that they are
asked: by rules that depend on what they remember, and by handlers that leave an error and pass. -/
theorem stepping_observed :
    (∀ S, ∀ r ∈ fickle.host, r.Tame S) ∧
      ¬ Transparent fickle ((Parser.new {}).parse "f(g() || (true && true))").1 ∧
    reluctant.host.Steady ∧ (∀ r ∈ reluctant.host, r.Settles) ∧
      ¬ Transparent reluctant ((Parser.new {}).parse "f(true && true)").1 := by
  refine ⟨?_, ?_, Host.steady_always _, ?_, ?_⟩
  · rintro S r ⟨record, hr⟩
    simp only [fickle, List.mem_cons, List.not_mem_nil, or_false] at hr
    rcases hr with rfl | rfl
    · exact ⟨fun _ _ => rfl, fun _ _ _ => trivial⟩
    · exact ⟨fun _ _ => rfl, fun _ _ _ => trivial⟩
  · exact not_transparent 40 (·.2.text == "true") (by decide +kernel) (by decide +kernel)
  · refine Host.forall_always fun r hr => ?_
    simp only [List.mem_cons, List.not_mem_nil, or_false] at hr
    rcases hr with rfl | rfl <;> simp [Host.Rule.Settles, Host.answering, Host.noteArguments]
  · exact not_transparent 40 (·.1.length == 2) (by decide +kernel) (by decide +kernel)

end Machine

end Steppable
