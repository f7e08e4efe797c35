import PlsqlLint.Check.Basic

/-!
# Subscriptions

A check that is registered asks for symbols, as often as it likes; each of them counts once (`Registration`).  The
table of an engine has an entry for every symbol that some check has asked for, with the numbers of these checks in the
order of their registration.  It grows with every check that is registered.
-/

namespace PlsqlLint

/-- The symbols that a check has asked for, in the order in which it first did so. -/
structure Registration where
  symbols : List Symbol
  nodup : symbols.Nodup

namespace Registration

def empty : Registration := ⟨[], List.nodup_nil⟩

/-- Asks for a symbol, unless this has been done before. -/
def add (r : Registration) (symbol : Symbol) : Registration :=
  if h : symbol ∈ r.symbols then r
  else ⟨r.symbols ++ [symbol], List.nodup_append.2 ⟨r.nodup, by simp, by grind⟩⟩

/-- Asks for more symbols. -/
def subscribeTo (r : Registration) (symbols : List Symbol) : Registration := symbols.foldl add r

end Registration

/-- What a check asks for when it is registered. -/
def Check.registration (c : Check) : Registration := Registration.empty.subscribeTo c.subscriptions

/-- The numbers of the checks that have asked for a symbol, for every symbol that some check has asked for. -/
structure SubscriptionTable where
  entries : List (Symbol × List Nat)

namespace SubscriptionTable

def empty : SubscriptionTable := ⟨[]⟩

def find? (table : SubscriptionTable) (symbol : Symbol) : Option (List Nat) := table.entries.lookup symbol

/-- Puts a number at the end of the entry of a symbol, which is made if there is none. -/
def push (symbol : Symbol) (index : Nat) : List (Symbol × List Nat) → List (Symbol × List Nat)
  | [] => [(symbol, [index])]
  | (other, indices) :: entries =>
    if other = symbol then (other, indices ++ [index]) :: entries
    else (other, indices) :: push symbol index entries

/-- Enters a check. -/
def register (table : SubscriptionTable) (index : Nat) (r : Registration) : SubscriptionTable :=
  ⟨r.symbols.foldl (fun entries symbol => push symbol index entries) table.entries⟩

/-- The table of checks that are registered one after the other, the first of them with the number `n`. -/
def registerAll (table : SubscriptionTable) (n : Nat) : List Check → SubscriptionTable
  | [] => table
  | c :: checks => (table.register n c.registration).registerAll (n + 1) checks

end SubscriptionTable

end PlsqlLint
