import PlsqlLint.Check.Basic

/-!
# Scripted checks

Checks that are given by data: for each occasion a list of actions.  A scripted check counts the nodes it has entered
and those it has left; an action may be tied to one value of the counter of its occasion.
-/

namespace PlsqlLint

/-- What a scripted check counts. -/
structure Counters where
  entered : Nat
  left : Nat
deriving DecidableEq, Repr

/-- An argument for a message template. -/
inductive ScriptArgument where
  | text (s : String)
  /-- The name of the symbol of the node. -/
  | kind
  /-- The text of the first token of the node. -/
  | value
  | entered
  | left
deriving DecidableEq, Repr

namespace ScriptArgument

def eval (t : Tree) (counters : Counters) : ScriptArgument → String
  | .text s => s
  | .kind => t.symbol.name
  | .value => t.value?.getD "<none>"
  | .entered => toString counters.entered
  | .left => toString counters.left

end ScriptArgument

/-- A place relative to the node of a call. -/
inductive ScriptPlace where
  | firstChild | lastChild | itself
deriving DecidableEq, Repr

namespace ScriptPlace

def tree? (t : Tree) : ScriptPlace → Option Tree
  | .firstChild => t.firstChild?
  | .lastChild => t.lastChild?
  | .itself => some t

end ScriptPlace

/-- What a scripted check does. -/
inductive ScriptDeed where
  /-- Reports an issue with the message of the template. -/
  | issue (args : List ScriptArgument) (secondary : List (ScriptPlace × String))
  /-- Reports an issue with a message of its own. -/
  | issueWith (message : String) (secondary : List (ScriptPlace × String))
  | fail (message : String)
  /-- Fails for want of a child. -/
  | missing (expected : String)
  | breakOff (message : Option String)
deriving DecidableEq, Repr

/-- A deed, done always or only at one value of the counter. -/
structure ScriptAction where
  onlyAt : Option Nat
  deed : ScriptDeed
deriving DecidableEq, Repr

/-- The description of a check. -/
structure Script where
  metadata : Metadata
  subscriptions : List Symbol
  /-- Whether the counters go on from unit to unit. -/
  keep : Bool
  onOpen : List ScriptAction
  onEnter : List ScriptAction
  onLeave : List ScriptAction
  onClose : List ScriptAction

namespace Script

/-- Adds secondary places to an issue; those that do not exist are skipped. -/
def withSecondary (t : Tree) (secondary : List (ScriptPlace × String)) (i : Issue) : Issue :=
  secondary.foldl (fun i s => match s.1.tree? t with | some u => i.also u s.2 | none => i) i

/-- The issues reported by a list of actions, and the failure that ends it. -/
def perform (m : Metadata) (t : Tree) (counters : Counters) (counter : Nat) :
    List ScriptAction → List Issue × Option CheckError
  | [] => ([], none)
  | action :: actions =>
    if action.onlyAt.all (· == counter) then
      match action.deed with
      | .issue args secondary =>
        let issue := withSecondary t secondary (m.issue t (args.map (·.eval t counters)))
        let (issues, failure) := perform m t counters counter actions
        (issue :: issues, failure)
      | .issueWith message secondary =>
        let issue := withSecondary t secondary (m.issueWith t message)
        let (issues, failure) := perform m t counters counter actions
        (issue :: issues, failure)
      | .fail message => ([], some (.failed message))
      | .missing expected => ([], some (.missing t expected))
      | .breakOff message => ([], some (.brokeOff message))
    else perform m t counters counter actions

/-- The check that a script describes. -/
def toCheck (s : Script) : Check where
  metadata := s.metadata
  subscriptions := s.subscriptions
  State := Counters
  state := ⟨0, 0⟩
  react occasion t counters :=
    let (counters, counter, actions) : Counters × Nat × List ScriptAction :=
      match occasion with
      | .openUnit =>
        let counters := if s.keep then counters else ⟨0, 0⟩
        (counters, counters.entered, s.onOpen)
      | .enterNode => ({ counters with entered := counters.entered + 1 }, counters.entered + 1, s.onEnter)
      | .leaveNode => ({ counters with left := counters.left + 1 }, counters.left + 1, s.onLeave)
      | .closeUnit => (counters, counters.entered, s.onClose)
    let (issues, failure) := perform s.metadata t counters counter actions
    ⟨counters, issues, failure⟩

end Script

end PlsqlLint
