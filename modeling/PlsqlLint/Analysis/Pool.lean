import PlsqlLint.Analysis.Basic

/-!
# Analysis of many units

A pool of workers takes units from a common queue.  Each worker has an engine of its own; it takes a unit in one turn
and writes the report into the slot of the unit in a later one.  In which order the workers have their turns is given
by a schedule, and in any turn a worker may perish, with the unit that it holds.  A unit whose slot stays empty is
reported as failed.
-/

namespace PlsqlLint

/-- What a worker is doing. -/
inductive Worker where
  /-- It has not started, or it has perished. -/
  | absent
  | idle (engine : Engine)
  /-- It has taken a unit, whose report goes into a slot. -/
  | busy (engine : Engine) (unit : SourceUnit) (slot : Nat)

/-- A turn of a worker. -/
structure Turn where
  worker : Nat
  perishes : Bool
deriving DecidableEq, Repr

/-- The state of a pool. -/
structure Pool where
  /-- The units that nobody has taken, with the numbers of their slots. -/
  queue : List (SourceUnit × Nat)
  workers : List Worker
  slots : List (Option Report)

namespace Pool

/-- The pool before the first turn; `starts` says which workers get to work. -/
def start (a : Analyzer) (workers : Nat) (starts : Nat → Bool) (units : List SourceUnit) : Pool where
  queue := units.zipIdx
  workers := (List.range workers).map fun i => if starts i then .idle a.engine else .absent
  slots := units.map fun _ => none

/-- One turn: an idle worker takes the next unit, if there is one, and a busy worker hands in its report. -/
def step (a : Analyzer) (p : Pool) (turn : Turn) : Pool :=
  if turn.perishes then { p with workers := p.workers.set turn.worker .absent }
  else
    match p.workers[turn.worker]?, p.queue with
    | some (.idle engine), (unit, slot) :: queue =>
      { p with queue, workers := p.workers.set turn.worker (.busy engine unit slot) }
    | some (.busy engine unit slot), _ =>
      let (report, engine) := a.analyzeWithin a.config.workerBudget engine unit
      { p with workers := p.workers.set turn.worker (.idle engine), slots := p.slots.set slot (some report) }
    | _, _ => p

/-- The pool after a schedule. -/
def run (a : Analyzer) (p : Pool) (schedule : List Turn) : Pool := schedule.foldl (step a) p

/-- Whether a worker has nothing left to do when the queue is `queue`. -/
def rests (queue : List (SourceUnit × Nat)) : Worker → Bool
  | .absent => true
  | .idle _ => queue.isEmpty
  | .busy .. => false

/-- Whether no worker has anything left to do. -/
def isSettled (p : Pool) : Bool := p.workers.all (rests p.queue)

/-- The reports on the units, in their order. -/
def reports (p : Pool) (units : List SourceUnit) : List Report :=
  List.zipWith (fun unit slot => slot.getD ⟨unit.name, .error .workerFailed⟩) units p.slots

end Pool

/-- A schedule of rounds, in each of which every worker has a turn.  There are two rounds for each unit, so that one
worker alone can deal with all of them. -/
def Turn.rounds (workers units : Nat) : List Turn :=
  (List.range (2 * units)).flatMap fun _ => (List.range workers).map fun i => ⟨i, false⟩

namespace Analyzer

/-- The number of workers for so many units: as many as asked for, but one at least, and not more than units. -/
def workersFor (a : Analyzer) (units : Nat) : Nat := min (max a.config.threads 1) (max units 1)

/-- Analyses units with a pool of workers, of which those get to work that `starts` names. -/
def analyzeOn (a : Analyzer) (starts : Nat → Bool) (units : List SourceUnit) : List Report :=
  let workers := a.workersFor units.length
  ((Pool.start a workers starts units).run a (Turn.rounds workers units.length)).reports units

/-- Analyses units with a pool of workers, of which those get to work that the machine can start. -/
def analyzeAll (a : Analyzer) (units : List SourceUnit) : List Report :=
  a.analyzeOn (a.host.starts a.config.workerStack) units

end Analyzer

end PlsqlLint
