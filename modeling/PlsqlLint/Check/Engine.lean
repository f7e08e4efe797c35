import PlsqlLint.Check.Subscription
import PlsqlLint.Tree.Traversal

/-!
# The check engine

An engine holds checks in the order of their registration.  A scan of a tree calls every check at the beginning; on
entering a node the checks that subscribe to its symbol; on leaving it, behind everything below it, the same checks in
reverse order; at the end every check in reverse order.  The walk keeps what is still to be entered and to be left on a
stack, so a deep tree needs no deep recursion.

All checks report into one common list of issues.  A check that fails is left out for the rest of the scan, and the list
is cut back to the length that it had before the failing call.
-/

namespace PlsqlLint

/-- What a scan finds, in the order of the calls. -/
structure Outcome where
  issues : List Issue
  diagnostics : List Diagnostic
deriving DecidableEq, Repr

/-! ### Calls -/

/-- A call of the check with the given number in the order of registration. -/
structure Call where
  index : Nat
  occasion : Occasion
  tree : Tree

/-- A call that has been made, with the issues that the check reported and, if it failed, the diagnostic. -/
structure LogEntry where
  call : Call
  issues : List Issue
  diagnostic : Option Diagnostic

/-- A check during a scan. -/
structure Slot where
  check : Check
  /-- Whether the check has failed in this scan. -/
  disabled : Bool

/-- Calls the check of a slot. -/
def Slot.answer (slot : Slot) (c : Call) : LogEntry × Slot :=
  let reaction := slot.check.react c.occasion c.tree slot.check.state
  let place := c.tree.span.start
  let diagnostic := reaction.failure.map fun e => ⟨slot.check.metadata.key, e.message, place.line, place.column⟩
  (⟨c, reaction.issues, diagnostic⟩, ⟨{ slot.check with state := reaction.state }, reaction.failure.isSome⟩)

/-- The state of a scan. -/
structure Scan where
  slots : List Slot
  issues : Array Issue
  diagnostics : Array Diagnostic
  /-- The calls so far. -/
  log : Array LogEntry

namespace Scan

/-- The state before the first call. -/
def start (checks : List Check) : Scan := ⟨checks.map (⟨·, false⟩), #[], #[], #[]⟩

/-- Makes a call, unless the check has failed before. -/
def call (s : Scan) (c : Call) : Scan :=
  match s.slots[c.index]? with
  | none => s
  | some slot =>
    if slot.disabled then s
    else
      let mark := s.issues.size
      let (entry, slot) := slot.answer c
      let issues := s.issues ++ entry.issues
      let slots := s.slots.set c.index slot
      let log := s.log.push entry
      match entry.diagnostic with
      | none => { s with slots, issues, log }
      | some diagnostic =>
        { slots, issues := issues.shrink mark, diagnostics := s.diagnostics.push diagnostic, log }

/-- Makes calls one after the other. -/
def callAll (s : Scan) (calls : List Call) : Scan := calls.foldl call s

def outcome (s : Scan) : Outcome := ⟨s.issues.toList, s.diagnostics.toList⟩

end Scan

/-- The calls for one occasion.  What is entered or begun in one order is left or ended in the other. -/
def Occasion.calls (occasion : Occasion) (t : Tree) (indices : List Nat) : List Call :=
  match occasion with
  | .openUnit | .enterNode => indices.map (⟨·, occasion, t⟩)
  | .leaveNode | .closeUnit => indices.reverse.map (⟨·, occasion, t⟩)

/-! ### The walk -/

/-- A step of the walk through a tree. -/
inductive Event where
  | enter (tree : Tree)
  | leave (tree : Tree)

namespace Event

/-- A measure of the steps that an event still leads to. -/
def weight : Event → Nat
  | .enter tree => 2 * tree.size
  | .leave _ => 1

def weightAll : List Event → Nat
  | [] => 0
  | e :: stack => e.weight + weightAll stack

private theorem weightAll_append (stack more : List Event) :
    weightAll (stack ++ more) = weightAll stack + weightAll more := by
  induction stack with
  | nil => simp [weightAll]
  | cons e stack ih => simp only [List.cons_append, weightAll, ih]; omega

private theorem weightAll_enter (ts : List Tree) : weightAll (ts.map .enter) = 2 * Tree.sizeAll ts := by
  induction ts with
  | nil => rfl
  | cons t ts ih =>
    rw [List.map_cons, weightAll, weight, ih, Tree.sizeAll]; omega

end Event

namespace Scan

/-- Goes through the events of a stack and all that they lead to.  A node that nobody subscribes to is entered without
a call, and there is nothing to be done on leaving it. -/
def walk (table : SubscriptionTable) : List Event → Scan → Scan
  | [], s => s
  | .enter t :: stack, s =>
    match table.find? t.symbol with
    | some subscribers =>
      walk table (t.children.map .enter ++ .leave t :: stack) (s.callAll (Occasion.enterNode.calls t subscribers))
    | none => walk table (t.children.map .enter ++ stack) s
  | .leave t :: stack, s =>
    match table.find? t.symbol with
    | some subscribers => walk table stack (s.callAll (Occasion.leaveNode.calls t subscribers))
    | none => walk table stack s
termination_by stack => Event.weightAll stack
decreasing_by
  · have := Tree.sizeAll_children_lt t
    rw [Event.weightAll_append, Event.weightAll_enter]
    simp only [Event.weightAll, Event.weight]; omega
  · have := Tree.sizeAll_children_lt t
    rw [Event.weightAll_append, Event.weightAll_enter]
    simp only [Event.weightAll, Event.weight]; omega
  · simp [Event.weightAll, Event.weight]
  · simp [Event.weightAll, Event.weight]

end Scan

/-! ### Engines -/

/-- The registered checks, in the order of their registration. -/
structure Engine where
  checks : List Check

namespace Engine

/-- The numbers of all checks. -/
def everyone (e : Engine) : List Nat := List.range e.checks.length

/-- What the checks have asked for. -/
def subscriptions (e : Engine) : SubscriptionTable := SubscriptionTable.empty.registerAll 0 e.checks

def isSubscribed (e : Engine) (symbol : Symbol) : Bool := (e.subscriptions.find? symbol).isSome

/-- The state at the end of a scan. -/
def run (e : Engine) (root : Tree) : Scan :=
  let s := (Scan.start e.checks).callAll (Occasion.openUnit.calls root e.everyone)
  let s := s.walk e.subscriptions [.enter root]
  s.callAll (Occasion.closeUnit.calls root e.everyone)

/-- Scans a tree.  The engine keeps the states that its checks have reached. -/
def scan (e : Engine) (root : Tree) : Outcome × Engine :=
  let s := e.run root
  (s.outcome, ⟨s.slots.map (·.check)⟩)

end Engine

end PlsqlLint
