import PlsqlLint.Check.Issue

/-!
# Checks

A check is a state machine.  It is called at the beginning and at the end of a unit, and on entering and on leaving
every node with a symbol that it subscribes to; each time it may report issues, change its state and fail.
-/

namespace PlsqlLint

/-- When a check is called. -/
inductive Occasion where
  | openUnit | enterNode | leaveNode | closeUnit
deriving DecidableEq, Repr

/-- What a check does when it is called: its next state, the issues it reports and, if it fails, why.  The state
counts also if it fails. -/
structure Reaction (State : Type) where
  state : State
  issues : List Issue
  failure : Option CheckError

/-- A check. -/
structure Check where
  metadata : Metadata
  /-- The symbols whose nodes it is called for. -/
  subscriptions : List Symbol
  State : Type
  state : State
  react : Occasion → Tree → State → Reaction State

namespace Check

def subscribesTo (c : Check) (symbol : Symbol) : Bool := c.subscriptions.contains symbol

/-- A check that remembers nothing: on entering a node it reports issues or fails. -/
def onVisit (metadata : Metadata) (subscriptions : List Symbol) (visit : Tree → Except CheckError (List Issue)) :
    Check where
  metadata := metadata
  subscriptions := subscriptions
  State := Unit
  state := ()
  react
    | .enterNode, t, _ =>
      match visit t with
      | .ok issues => ⟨(), issues, none⟩
      | .error e => ⟨(), [], some e⟩
    | _, _, _ => ⟨(), [], none⟩

/-- A check that remembers nothing and never fails: it reports issues on entering a node. -/
def onEnter (metadata : Metadata) (subscriptions : List Symbol) (issues : Tree → List Issue) : Check :=
  onVisit metadata subscriptions fun t => .ok (issues t)

end Check

end PlsqlLint
