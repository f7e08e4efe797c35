import PlsqlLint.Analysis.Pool
import PlsqlLint.Proofs.Reuse

/-!
# Pools of workers

However the turns of the workers follow each other, and whichever workers perish, a pool reports on each unit what the
analysis of this unit alone reports, or that the worker failed (`Analyzer.reports_run`).  If all workers start and none
perishes, no worker fails, and the rounds of `Analyzer.analyzeOn` are enough to get there.

A turn can do four things (`Pool.Turned`).  What a pool holds stays right in all of them (`Pool.Sound`), and if no
worker perishes no unit gets lost (`Pool.Whole`).  In every round in which something is left to do, the work that is
left gets less (`Pool.potential`).
-/

namespace PlsqlLint

namespace Analyzer

/-- A worker hands in these reports, whatever units it has dealt with before. -/
def HandsIn (a : Analyzer) (report : SourceUnit → Report) : Prop :=
  ∀ e : Engine, e.Like a.engine → ∀ unit, (a.analyzeWithin a.config.workerBudget e unit).1 = report unit ∧
    (a.analyzeWithin a.config.workerBudget e unit).2.Like a.engine

/-- The report on a unit by a worker that deals with it first. -/
def workerReport (a : Analyzer) (unit : SourceUnit) : Report :=
  (a.analyzeWithin a.config.workerBudget a.engine unit).1

theorem handsIn_workerReport {a : Analyzer} (hc : ∀ c ∈ a.checks, c.Resets) : a.HandsIn a.workerReport :=
  fun _ he unit => analyzeWithin_like hc he _ unit

private theorem handsIn_analyze {a : Analyzer} (hworker : (a.limits a.config.workerBudget).Ample)
    (hdefault : (a.limits Limits.defaultBudget).Ample) (hc : ∀ c ∈ a.checks, c.Resets) : a.HandsIn a.analyze :=
  fun _ he unit => analyzeWithin_eq hworker hdefault hc he unit

end Analyzer

namespace Worker

/-- The engine of the worker is like a new one, and the unit it has taken is the one of its slot. -/
def Sound (a : Analyzer) (units : List SourceUnit) : Worker → Prop
  | .absent => True
  | .idle engine => engine.Like a.engine
  | .busy engine unit slot => engine.Like a.engine ∧ units[slot]? = some unit

def isBusy : Worker → Bool
  | .busy .. => true
  | _ => false

/-- The worker has taken the unit of the slot. -/
def Holds (slot : Nat) : Worker → Prop
  | .busy _ _ slot' => slot' = slot
  | _ => False

end Worker

namespace Pool

/-! ### One turn -/

/-- What a turn can do: the worker perishes, it has nothing to do, it takes a unit, or it hands in a report. -/
inductive Turned (a : Analyzer) (p : Pool) (turn : Turn) : Pool → Prop
  | perished (h : turn.perishes = true) : Turned a p turn { p with workers := p.workers.set turn.worker .absent }
  | rested (h : turn.perishes = false) (hw : ∀ w, p.workers[turn.worker]? = some w → rests p.queue w = true) :
      Turned a p turn p
  | took {engine unit slot queue} (h : turn.perishes = false) (hw : p.workers[turn.worker]? = some (.idle engine))
      (hq : p.queue = (unit, slot) :: queue) :
      Turned a p turn { p with queue, workers := p.workers.set turn.worker (.busy engine unit slot) }
  | handedIn {engine unit slot report engine'} (h : turn.perishes = false)
      (hw : p.workers[turn.worker]? = some (.busy engine unit slot))
      (hr : a.analyzeWithin a.config.workerBudget engine unit = (report, engine')) :
      Turned a p turn
        { p with workers := p.workers.set turn.worker (.idle engine'), slots := p.slots.set slot (some report) }

private theorem turned_step (a : Analyzer) (p : Pool) (turn : Turn) : Turned a p turn (p.step a turn) := by
  unfold step
  cases h : turn.perishes with
  | true => exact .perished h
  | false =>
    simp only [Bool.false_eq_true, if_false]
    split
    · rename_i hw hq
      exact .took h hw hq
    · rename_i hw
      exact .handedIn h hw rfl
    · rename_i hbusy hidle
      refine .rested h fun w hw => ?_
      cases w with
      | absent => rfl
      | idle engine =>
        cases hq : p.queue with
        | nil => rfl
        | cons x queue => exact absurd hq (hidle engine x.1 x.2 queue hw)
      | busy engine unit slot => exact absurd hw (hbusy engine unit slot)

variable {a : Analyzer} {units : List SourceUnit} {p : Pool}

private theorem run_append (schedule more : List Turn) : p.run a (schedule ++ more) = (p.run a schedule).run a more :=
  List.foldl_append

private theorem run_cons (turn : Turn) (schedule : List Turn) :
    p.run a (turn :: schedule) = (p.step a turn).run a schedule := rfl

/-- What every turn of a schedule keeps, the schedule keeps. -/
theorem run_induction {P : Pool → Prop} (h : P p) (schedule : List Turn)
    (hstep : ∀ q q' turn, P q → turn ∈ schedule → Turned a q turn q' → P q') : P (p.run a schedule) := by
  induction schedule generalizing p with
  | nil => exact h
  | cons turn schedule ih =>
    rw [run_cons]
    have hturn := hstep p _ turn h List.mem_cons_self (turned_step a p turn)
    exact ih hturn fun q q' t hq ht => hstep q q' t hq (List.mem_cons_of_mem _ ht)

private theorem length_workers_run (p : Pool) (schedule : List Turn) :
    (p.run a schedule).workers.length = p.workers.length := by
  refine run_induction (P := fun q => q.workers.length = p.workers.length) rfl schedule ?_
  intro q q' turn hq _ hturn
  cases hturn with
  | rested => exact hq
  | perished | took | handedIn => simpa using hq

/-! ### What a pool holds is right -/

/-- Units go with their slots, and the reports are the ones that `report` gives for each unit alone. -/
structure Sound (a : Analyzer) (report : SourceUnit → Report) (units : List SourceUnit) (p : Pool) : Prop where
  queue : ∀ x ∈ p.queue, units[x.2]? = some x.1
  workers : ∀ w ∈ p.workers, w.Sound a units
  slots : List.Forall₂ (fun unit slot => ∀ r, slot = some r → r = report unit) units p.slots

variable {report : SourceUnit → Report}

private theorem forall₂_set {α β : Type*} {R : α → β → Prop} {xs : List α} {ys : List β} (h : List.Forall₂ R xs ys)
    {i : Nat} {x : α} {y : β} (hx : xs[i]? = some x) (hy : R x y) : List.Forall₂ R xs (ys.set i y) := by
  induction h generalizing i with
  | nil => cases hx
  | cons hab hrest ih =>
    cases i with
    | zero =>
      obtain rfl := Option.some.inj hx
      exact .cons hy hrest
    | succ i => exact .cons hab (ih hx)

theorem sound_start (workers : Nat) (starts : Nat → Bool) : Sound a report units (start a workers starts units) where
  queue x hx := List.mem_zipIdx_iff_getElem?.1 hx
  workers w hw := by
    obtain ⟨i, -, rfl⟩ := List.mem_map.1 hw
    split
    · exact rfl
    · trivial
  slots := by
    show List.Forall₂ _ units (units.map fun _ => none)
    rw [List.forall₂_map_right_iff]
    exact List.forall₂_same.2 fun unit _ report h => by cases h

/-- Whatever happens in a turn, what the pool holds stays right. -/
theorem Sound.turned {p' : Pool} {turn : Turn} (h : p.Sound a report units) (ht : Turned a p turn p')
    (hreport : a.HandsIn report) : p'.Sound a report units := by
  have hset : ∀ w' : Worker, w'.Sound a units → ∀ w ∈ p.workers.set turn.worker w', w.Sound a units := by
    intro w' hw' w hw
    rcases List.mem_or_eq_of_mem_set hw with hw | rfl
    · exact h.workers w hw
    · exact hw'
  cases ht with
  | perished => exact ⟨h.queue, hset .absent trivial, h.slots⟩
  | rested => exact h
  | took _ hw hq =>
    have hqueue := h.queue
    rw [hq, List.forall_mem_cons] at hqueue
    have hengine := h.workers _ (List.mem_of_getElem? hw)
    exact ⟨hqueue.2, hset _ ⟨hengine, hqueue.1⟩, h.slots⟩
  | @handedIn engine unit slot _ engine' _ hw hr =>
    obtain ⟨hengine, hunit⟩ := h.workers _ (List.mem_of_getElem? hw)
    have hanalysis := hreport engine hengine unit
    rw [hr] at hanalysis
    refine ⟨h.queue, hset _ hanalysis.2, forall₂_set h.slots hunit ?_⟩
    intro r hr
    rw [← Option.some.inj hr]
    exact hanalysis.1

private theorem sound_of_handsIn (hreport : a.HandsIn report) (workers : Nat) (starts : Nat → Bool)
    (schedule : List Turn) :
    ((start a workers starts units).run a schedule).Sound a report units :=
  run_induction (sound_start _ _) schedule fun _ _ _ hq _ ht => hq.turned ht hreport

/-- The reports of a pool are those of the units alone, but for those that are missing. -/
theorem Sound.reports (h : p.Sound a report units) :
    List.Forall₂ (fun unit r => r = report unit ∨ r = ⟨unit.name, .error .workerFailed⟩) units
      (p.reports units) := by
  have hslots := h.slots
  unfold Pool.reports
  generalize p.slots = slots at hslots ⊢
  clear h
  induction hslots with
  | nil => exact .nil
  | @cons unit slot units slots hslot _ ih =>
    rw [List.zipWith_cons_cons]
    refine .cons ?_ ih
    cases slot with
    | none => exact .inr rfl
    | some r => exact .inl (hslot r rfl)

private theorem Sound.reports_eq (h : p.Sound a report units) (hfull : none ∉ p.slots) :
    p.reports units = units.map report := by
  have hslots := h.slots
  unfold Pool.reports
  generalize p.slots = slots at hslots hfull ⊢
  clear h
  induction hslots with
  | nil => rfl
  | @cons unit slot units slots hslot _ ih =>
    rw [List.mem_cons, not_or] at hfull
    rw [List.zipWith_cons_cons, List.map_cons, ih hfull.2]
    cases slot with
    | none => exact absurd rfl hfull.1
    | some r => rw [Option.getD_some, hslot r rfl]

/-! ### No unit gets lost -/

/-- All workers are at work, and every unit has a report, is waiting, or is with a worker. -/
structure Whole (p : Pool) : Prop where
  present : .absent ∉ p.workers
  covered : ∀ i, p.slots[i]? = some none → (∃ unit, (unit, i) ∈ p.queue) ∨ ∃ w ∈ p.workers, w.Holds i

private theorem mem_set_of_ne {α : Type*} {xs : List α} {i : Nat} {x y z : α} (hx : x ∈ xs) (hy : xs[i]? = some y)
    (hne : x ≠ y) : x ∈ xs.set i z := by
  obtain ⟨j, hj⟩ := List.mem_iff_getElem?.1 hx
  refine List.mem_iff_getElem?.2 ⟨j, ?_⟩
  rw [List.getElem?_set_ne ?_, hj]
  rintro rfl
  exact hne (Option.some.inj (hj.symm.trans hy))

private theorem mem_set_self {α : Type*} {xs : List α} {i : Nat} {y : α} (hy : xs[i]? = some y) (z : α) :
    z ∈ xs.set i z := List.mem_set (List.getElem?_eq_some_iff.1 hy).1 z

private theorem whole_start {workers : Nat} {starts : Nat → Bool} (h : ∀ i < workers, starts i = true) :
    Whole (start a workers starts units) where
  present := by
    intro habsent
    obtain ⟨i, hi, hw⟩ := List.mem_map.1 habsent
    rw [h i (List.mem_range.1 hi)] at hw
    cases hw
  covered i hi := by
    have hlt : i < units.length := by simpa [start] using (List.getElem?_eq_some_iff.1 hi).1
    exact .inl ⟨units[i], List.mem_zipIdx_iff_getElem?.2 (List.getElem?_eq_getElem hlt)⟩

/-- In a turn in which the worker does not perish, no unit gets lost. -/
theorem Whole.turned {p' : Pool} {turn : Turn} (h : p.Whole) (ht : Turned a p turn p') (hp : turn.perishes = false) :
    p'.Whole := by
  have hset : ∀ w : Worker, w ≠ .absent → .absent ∉ p.workers.set turn.worker w := by
    intro w hw habsent
    rcases List.mem_or_eq_of_mem_set habsent with habsent | rfl
    · exact h.present habsent
    · exact hw rfl
  cases ht with
  | perished hperish => rw [hp] at hperish; cases hperish
  | rested => exact h
  | @took engine unit slot queue _ hw hq =>
    refine ⟨hset _ (by simp), fun i hi => ?_⟩
    rcases h.covered i hi with ⟨unit', hunit⟩ | ⟨w, hmem, hholds⟩
    · rw [hq] at hunit
      rcases List.mem_cons.1 hunit with heq | hunit
      · cases heq
        exact .inr ⟨_, mem_set_self hw _, rfl⟩
      · exact .inl ⟨unit', hunit⟩
    · exact .inr ⟨w, mem_set_of_ne hmem hw (by rintro rfl; exact hholds), hholds⟩
  | @handedIn engine unit slot report engine' _ hw hr =>
    refine ⟨hset _ (by simp), fun i hi => ?_⟩
    have hne : slot ≠ i := by
      rintro rfl
      simp [List.getElem?_set] at hi
    rw [List.getElem?_set_ne hne] at hi
    rcases h.covered i hi with hwaiting | ⟨w, hmem, hholds⟩
    · exact .inl hwaiting
    · exact .inr ⟨w, mem_set_of_ne hmem hw (by rintro rfl; exact hne hholds), hholds⟩

theorem whole_run {workers : Nat} {starts : Nat → Bool} (h : ∀ i < workers, starts i = true) {schedule : List Turn}
    (hp : ∀ turn ∈ schedule, turn.perishes = false) : ((start a workers starts units).run a schedule).Whole :=
  run_induction (whole_start h) schedule fun _ _ turn hq hmem ht => hq.turned ht (hp turn hmem)

/-- When no worker has anything left to do, there is a report on every unit. -/
theorem Whole.full (h : p.Whole) (hs : p.isSettled = true) (hw : p.workers ≠ []) : none ∉ p.slots := by
  have hrests : ∀ w ∈ p.workers, rests p.queue w = true := List.all_eq_true.1 hs
  intro hnone
  obtain ⟨i, hi⟩ := List.mem_iff_getElem?.1 hnone
  rcases h.covered i hi with ⟨unit, hunit⟩ | ⟨w, hmem, hholds⟩
  · obtain ⟨w, hmem⟩ := List.exists_mem_of_ne_nil _ hw
    have hrest := hrests w hmem
    cases w with
    | absent => exact h.present hmem
    | idle engine =>
      rw [rests, List.isEmpty_iff] at hrest
      rw [hrest] at hunit
      cases hunit
    | busy => cases hrest
  · have hrest := hrests w hmem
    cases w with
    | absent => exact hholds
    | idle => exact hholds
    | busy => cases hrest

/-! ### The work gets done -/

/-- The number of turns that the units still need. -/
def potential (p : Pool) : Nat := 2 * p.queue.length + p.workers.countP Worker.isBusy

private theorem potential_start (workers : Nat) (starts : Nat → Bool) :
    (start a workers starts units).potential = 2 * units.length := by
  have hbusy : (start a workers starts units).workers.countP Worker.isBusy = 0 := by
    refine List.countP_eq_zero.2 fun w hw => ?_
    obtain ⟨i, -, rfl⟩ := List.mem_map.1 hw
    split <;> simp [Worker.isBusy]
  rw [potential, hbusy]
  simp [start]

/-- A turn changes nothing, because the worker has nothing to do, or some work gets done. -/
theorem Turned.progress {p' : Pool} {turn : Turn} (h : Turned a p turn p') (hp : turn.perishes = false) :
    (p' = p ∧ ∀ w, p.workers[turn.worker]? = some w → rests p.queue w = true) ∨ p'.potential < p.potential := by
  cases h with
  | perished hperish => rw [hp] at hperish; cases hperish
  | rested _ hw => exact .inl ⟨rfl, hw⟩
  | took _ hw hq =>
    right
    obtain ⟨hlt, hget⟩ := List.getElem?_eq_some_iff.1 hw
    simp only [potential, hq, List.length_cons, List.countP_set hlt, hget, Worker.isBusy, Bool.false_eq_true, if_true,
      if_false]
    omega
  | handedIn _ hw _ =>
    right
    obtain ⟨hlt, hget⟩ := List.getElem?_eq_some_iff.1 hw
    have hpos : 0 < p.workers.countP Worker.isBusy := List.countP_pos_iff.2 ⟨_, List.mem_of_getElem? hw, rfl⟩
    simp only [potential, List.countP_set hlt, hget, Worker.isBusy, Bool.false_eq_true, if_true, if_false]
    omega

/-- The same for several turns. -/
private theorem progress_run (p : Pool) {schedule : List Turn} (h : ∀ turn ∈ schedule, turn.perishes = false) :
    (p.run a schedule = p ∧ ∀ turn ∈ schedule, ∀ w, p.workers[turn.worker]? = some w → rests p.queue w = true) ∨
      (p.run a schedule).potential < p.potential := by
  induction schedule generalizing p with
  | nil => exact .inl ⟨rfl, by simp⟩
  | cons turn schedule ih =>
    rw [List.forall_mem_cons] at h
    rw [run_cons]
    rcases (turned_step a p turn).progress h.1 with ⟨hsame, hrests⟩ | hless
    · rw [hsame]
      exact (ih p h.2).imp_left fun ⟨hrun, hall⟩ => ⟨hrun, List.forall_mem_cons.2 ⟨hrests, hall⟩⟩
    · rcases ih (p.step a turn) h.2 with ⟨hrun, _⟩ | hmore
      · right
        rwa [hrun]
      · exact .inr (Nat.lt_trans hmore hless)

/-- A pool that is settled stays as it is. -/
theorem run_of_settled (h : p.isSettled = true) {schedule : List Turn} (hs : ∀ turn ∈ schedule, turn.perishes = false) :
    p.run a schedule = p := by
  have hrests : ∀ w ∈ p.workers, rests p.queue w = true := List.all_eq_true.1 h
  induction schedule with
  | nil => rfl
  | cons turn schedule ih =>
    rw [List.forall_mem_cons] at hs
    have hstep : p.step a turn = p := by
      have ht := turned_step a p turn
      generalize p.step a turn = p' at ht
      cases ht with
      | perished hperish => rw [hs.1] at hperish; cases hperish
      | rested => rfl
      | took _ hw hq =>
        have hrest := hrests _ (List.mem_of_getElem? hw)
        rw [hq] at hrest
        cases hrest
      | handedIn _ hw _ => cases hrests _ (List.mem_of_getElem? hw)
    rw [run_cons, hstep, ih hs.2]

/-- A turn of each worker. -/
def round (workers : Nat) : List Turn := (List.range workers).map (⟨·, false⟩)

private theorem perishes_round {workers : Nat} {turn : Turn} (h : turn ∈ round workers) : turn.perishes = false := by
  obtain ⟨i, -, rfl⟩ := List.mem_map.1 h
  rfl

theorem perishes_rounds {k workers : Nat} :
    ∀ turn ∈ (List.range k).flatMap (fun _ => round workers), turn.perishes = false := by
  intro turn hturn
  obtain ⟨_, _, hmem⟩ := List.mem_flatMap.1 hturn
  exact perishes_round hmem

/-- In a round some work gets done, unless there is nothing left to do. -/
theorem progress_round (p : Pool) :
    p.isSettled = true ∨ (p.run a (round p.workers.length)).potential < p.potential := by
  rcases p.progress_run (a := a) (fun _ => perishes_round) with ⟨_, hrests⟩ | hless
  · left
    refine List.all_eq_true.2 fun w hw => ?_
    obtain ⟨i, hi⟩ := List.mem_iff_getElem?.1 hw
    have hlt := (List.getElem?_eq_some_iff.1 hi).1
    exact hrests ⟨i, false⟩ (List.mem_map.2 ⟨i, List.mem_range.2 hlt, rfl⟩) w hi
  · exact .inr hless

private theorem isSettled_of_potential (h : p.potential = 0) : p.isSettled = true := by
  obtain ⟨hqueue, hbusy⟩ := Nat.add_eq_zero_iff.1 h
  refine List.all_eq_true.2 fun w hw => ?_
  cases w with
  | absent => rfl
  | idle => exact List.isEmpty_iff_length_eq_zero.2 (by omega)
  | busy => exact absurd rfl (List.countP_eq_zero.1 hbusy _ hw)

/-- As many rounds as turns are needed are enough. -/
theorem isSettled_rounds (p : Pool) {k : Nat} (h : p.potential ≤ k) :
    (p.run a ((List.range k).flatMap fun _ => round p.workers.length)).isSettled = true := by
  induction k generalizing p with
  | zero => exact isSettled_of_potential (Nat.le_zero.1 h)
  | succ k ih =>
    rcases p.progress_round (a := a) with hsettled | hless
    · rw [run_of_settled hsettled perishes_rounds]
      exact hsettled
    · have hrounds := ih (p.run a (round p.workers.length)) (by omega)
      rw [length_workers_run p _] at hrounds
      rw [List.range_succ_eq_map, List.flatMap_cons, List.flatMap_map, run_append]
      exact hrounds

/-- The rounds for so many units leave nothing to do. -/
theorem isSettled_start (workers : Nat) (starts : Nat → Bool) (units : List SourceUnit) :
    ((start a workers starts units).run a (Turn.rounds workers units.length)).isSettled = true := by
  have hrounds := (start a workers starts units).isSettled_rounds (a := a) (Nat.le_of_eq (potential_start _ _))
  simpa [start, Turn.rounds, round] using hrounds

end Pool

/-! ### Pools of an analyzer -/

namespace Analyzer

variable {a : Analyzer}

private theorem workersFor_pos (a : Analyzer) (units : Nat) : 0 < a.workersFor units := by
  unfold workersFor
  omega

/-- If all workers start and none perishes, every unit is reported on in the end. -/
theorem reports_of_handsIn {report : SourceUnit → Report} (hreport : a.HandsIn report) {units : List SourceUnit}
    {starts : Nat → Bool} (hstarts : ∀ i < a.workersFor units.length, starts i = true) {schedule : List Turn}
    (hperish : ∀ turn ∈ schedule, turn.perishes = false)
    (hsettled : ((Pool.start a (a.workersFor units.length) starts units).run a schedule).isSettled = true) :
    ((Pool.start a (a.workersFor units.length) starts units).run a schedule).reports units = units.map report := by
  refine (Pool.sound_of_handsIn hreport _ starts schedule).reports_eq
    ((Pool.whole_run hstarts hperish).full hsettled ?_)
  rw [← List.length_pos_iff, Pool.length_workers_run _ schedule]
  simpa [Pool.start] using a.workersFor_pos units.length

/-- However many workers there are, whichever of them start, and in whatever order they have their turns and perish, if
the budget of stack of a worker and the one of the analysis of a single unit are enough: there is a report on each unit,
in the order of the units and with their names, and it is the one on the unit alone or says that the worker failed.  If
all workers start and none perishes, no worker has failed when none has anything left to do; with the rounds of
`Analyzer.analyzeOn` this comes about. -/
theorem reports_run (a : Analyzer) (hc : ∀ c ∈ a.checks, c.Resets) (hworker : (a.limits a.config.workerBudget).Ample)
    (hdefault : (a.limits Limits.defaultBudget).Ample) (units : List SourceUnit) (starts : Nat → Bool) :
    let p := Pool.start a (a.workersFor units.length) starts units
    (∀ schedule, List.Forall₂
      (fun unit report => report.name = unit.name ∧
        (report.outcome = (a.analyze unit).outcome ∨ report.outcome = .error .workerFailed))
      units ((p.run a schedule).reports units)) ∧
    ((∀ i < a.workersFor units.length, starts i = true) →
      (∀ schedule, (∀ turn ∈ schedule, turn.perishes = false) → (p.run a schedule).isSettled = true →
        ∀ report ∈ (p.run a schedule).reports units, report.outcome ≠ .error .workerFailed) ∧
      a.analyzeOn starts units = units.map a.analyze) := by
  intro p
  have hhands := handsIn_analyze hworker hdefault hc
  refine ⟨fun schedule => ?_, fun hstarts => ⟨fun schedule hperish hsettled report hreport => ?_, ?_⟩⟩
  · refine (Pool.sound_of_handsIn hhands _ starts schedule).reports.imp ?_
    rintro unit report (rfl | rfl)
    · exact ⟨name_analyze unit, .inl rfl⟩
    · exact ⟨rfl, .inr rfl⟩
  · rw [reports_of_handsIn hhands hstarts hperish hsettled] at hreport
    obtain ⟨unit, -, rfl⟩ := List.mem_map.1 hreport
    exact outcome_analyze_ne unit
  · refine reports_of_handsIn hhands hstarts Pool.perishes_rounds ?_
    have hrounds := p.isSettled_rounds (a := a) (Nat.le_of_eq (Pool.potential_start _ _))
    simpa [p, Pool.start, Turn.rounds, Pool.round] using hrounds

/-- Two workers take a unit each.  The one that has taken the first perishes, and the other hands in its report. -/
theorem reports_run_perished :
    let a := Analyzer.standard ⟨4, 2, Config.defaultWorkerStack⟩ ⟨2, fun _ _ => true, (Limits.forDepth 4).stackUse⟩
    let units : List SourceUnit := [⟨"first", "/"⟩, ⟨"second", "("⟩]
    let p := (Pool.start a (a.workersFor units.length) (fun _ => true) units).run a
      [⟨0, false⟩, ⟨1, false⟩, ⟨0, true⟩, ⟨1, false⟩]
    (∀ c ∈ a.checks, c.Resets) ∧ (a.limits a.config.workerBudget).Ample ∧ (a.limits Limits.defaultBudget).Ample ∧
    List.Forall₂
      (fun unit report => report.name = unit.name ∧
        (report.outcome = (a.analyze unit).outcome ∨ report.outcome = .error .workerFailed))
      units (p.reports units) ∧
    a.analyzeOn (fun _ => true) units = units.map a.analyze := by
  intro a units p
  have hworker : (a.limits a.config.workerBudget).Ample := (Limits.ample_forDepth 4).mono rfl rfl (by decide)
  have hdefault : (a.limits Limits.defaultBudget).Ample := (Limits.ample_forDepth 4).mono rfl rfl (by decide)
  have hreports := reports_run a Check.resets_builtIn hworker hdefault units (fun _ => true)
  exact ⟨Check.resets_builtIn, hworker, hdefault, hreports.1 _, (hreports.2 fun _ _ => rfl).2⟩

end Analyzer

end PlsqlLint
