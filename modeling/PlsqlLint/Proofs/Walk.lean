import Mathlib
import PlsqlLint.Check.Engine

/-!
# The walk of a scan

The stack of a scan holds nodes that are to be entered and nodes that are to be left.  What it still leads to is, event
by event, a part of the walk by recursion on the tree (`Tree.tour`): a node that is to be entered stands for its whole
tour, a node that is to be left for the end of its tour.  So a scan makes the calls of the recursive walk, in its order
(`Engine.run_eq`), and it skips only checks that have failed (`Scan.calls_callAll`).

The table of subscriptions, which grows check by check, comes out as the list of the subscribers of each symbol
(`Engine.find?_subscriptions`).
-/

namespace PlsqlLint

/-! ### The table of subscriptions -/

namespace Registration

private theorem mem_add {r : Registration} {s t : Symbol} : s ∈ (r.add t).symbols ↔ s ∈ r.symbols ∨ s = t := by
  unfold add
  split
  · rename_i ht
    constructor
    · exact .inl
    · rintro (hs | rfl)
      · exact hs
      · exact ht
  · simp

/-- However often a symbol is asked for, it has been asked for. -/
private theorem mem_subscribeTo {r : Registration} {s : Symbol} {symbols : List Symbol} :
    s ∈ (r.subscribeTo symbols).symbols ↔ s ∈ r.symbols ∨ s ∈ symbols := by
  induction symbols generalizing r with
  | nil => simp [subscribeTo]
  | cons t symbols ih =>
    have hstep : r.subscribeTo (t :: symbols) = (r.add t).subscribeTo symbols := rfl
    rw [hstep, ih, mem_add, List.mem_cons, or_assoc]

end Registration

private theorem Check.mem_registration {c : Check} {s : Symbol} :
    s ∈ c.registration.symbols ↔ c.subscribesTo s = true := by
  rw [registration, Registration.mem_subscribeTo, subscribesTo, List.contains_iff_mem]
  simp [Registration.empty]

namespace SubscriptionTable

private theorem lookup_push (s t : Symbol) (n : Nat) (entries : List (Symbol × List Nat)) :
    (push t n entries).lookup s =
      if s = t then some ((entries.lookup s).getD [] ++ [n]) else entries.lookup s := by
  induction entries with
  | nil =>
    rw [push, List.lookup_cons]
    by_cases hs : s = t
    · simp [hs]
    · rw [beq_eq_false_iff_ne.2 hs, if_neg hs]
  | cons entry entries ih =>
    obtain ⟨u, indices⟩ := entry
    unfold push
    by_cases hu : u = t
    · subst hu
      rw [if_pos rfl, List.lookup_cons, List.lookup_cons]
      by_cases hs : s = u
      · simp [hs]
      · rw [beq_eq_false_iff_ne.2 hs, if_neg hs]
    · rw [if_neg hu, List.lookup_cons, List.lookup_cons, ih]
      by_cases hs : s = u
      · have ht : s ≠ t := fun h => hu (hs ▸ h)
        rw [beq_iff_eq.2 hs]
        simp only [if_neg ht]
      · rw [beq_eq_false_iff_ne.2 hs]

private theorem lookup_pushes (s : Symbol) (n : Nat) {symbols : List Symbol} (h : symbols.Nodup)
    (entries : List (Symbol × List Nat)) :
    (symbols.foldl (fun entries symbol => push symbol n entries) entries).lookup s =
      if s ∈ symbols then some ((entries.lookup s).getD [] ++ [n]) else entries.lookup s := by
  induction symbols generalizing entries with
  | nil => simp
  | cons t symbols ih =>
    rw [List.nodup_cons] at h
    rw [List.foldl_cons, ih h.2, lookup_push]
    by_cases hs : s = t
    · -- the symbol does not come again, so its number is entered once
      subst hs
      simp [h.1]
    · simp [hs]

/-- A check is entered at the symbols that it has asked for, once at each. -/
theorem find?_register (table : SubscriptionTable) (n : Nat) (r : Registration) (s : Symbol) :
    (table.register n r).find? s =
      if s ∈ r.symbols then some ((table.find? s).getD [] ++ [n]) else table.find? s :=
  lookup_pushes s n r.nodup table.entries

/-- The entry of a symbol after checks with the given numbers have asked for it. -/
def extend (entry : Option (List Nat)) (more : List Nat) : Option (List Nat) :=
  if more = [] then entry else some (entry.getD [] ++ more)

private theorem find?_registerAll (table : SubscriptionTable) (n : Nat) (checks : List Check) (s : Symbol) :
    (table.registerAll n checks).find? s =
      extend (table.find? s) (((checks.zipIdx n).filter (·.1.subscribesTo s)).map (·.2)) := by
  induction checks generalizing table n with
  | nil => rfl
  | cons c checks ih =>
    rw [registerAll, ih, find?_register, List.zipIdx_cons, List.filter_cons]
    by_cases hc : c.subscribesTo s = true
    · rw [if_pos (Check.mem_registration.2 hc), if_pos hc, List.map_cons]
      unfold extend
      split
      · rename_i hnil
        simp [hnil]
      · simp
    · rw [if_neg (fun h => hc (Check.mem_registration.1 h)), if_neg hc]

end SubscriptionTable

/-- The numbers of the checks that subscribe to a symbol, in the order of their registration. -/
def Engine.subscribers (e : Engine) (symbol : Symbol) : List Nat :=
  (e.checks.zipIdx.filter (·.1.subscribesTo symbol)).map (·.2)

namespace Engine

variable {e : Engine} {s : Symbol}

/-- The table has the subscribers of every symbol, and no entry where there are none. -/
theorem find?_subscriptions (e : Engine) (s : Symbol) :
    e.subscriptions.find? s = if e.subscribers s = [] then none else some (e.subscribers s) := by
  rw [subscriptions, SubscriptionTable.find?_registerAll]
  rfl

private theorem subscribers_of_some {indices : List Nat} (h : e.subscriptions.find? s = some indices) :
    e.subscribers s = indices := by
  rw [find?_subscriptions] at h
  split at h
  · cases h
  · exact Option.some.inj h

private theorem subscribers_of_none (h : e.subscriptions.find? s = none) : e.subscribers s = [] := by
  rw [find?_subscriptions] at h
  split at h
  · assumption
  · cases h

end Engine

/-! ### The walk by recursion -/

namespace Tree

mutual

/-- What is done on entering the root, then the tours of its children, then what is done on leaving the root. -/
def tour {α : Type} (enter leave : Tree → List α) : Tree → List α
  | .leaf token => enter (.leaf token) ++ leave (.leaf token)
  | .node rule span children =>
    enter (.node rule span children) ++ tourAll enter leave children ++ leave (.node rule span children)

/-- The tours of trees one after the other. -/
def tourAll {α : Type} (enter leave : Tree → List α) : List Tree → List α
  | [] => []
  | t :: ts => t.tour enter leave ++ tourAll enter leave ts

end

variable {α : Type} (enter leave : Tree → List α)

private theorem tourAll_eq (ts : List Tree) : tourAll enter leave ts = ts.flatMap (tour enter leave) := by
  induction ts with
  | nil => rfl
  | cons t ts ih => rw [tourAll, ih, List.flatMap_cons]

theorem tour_eq (t : Tree) :
    t.tour enter leave = enter t ++ t.children.flatMap (tour enter leave) ++ leave t := by
  cases t with
  | leaf token => simp [tour, children]
  | node rule span ts => rw [tour, tourAll_eq, children]

variable {enter leave}

/-- What is done with lists part by part can be done during the tour. -/
theorem tour_hom {β : Type} (f : List α → List β) (hnil : f [] = []) (happ : ∀ xs ys, f (xs ++ ys) = f xs ++ f ys)
    (t : Tree) : f (t.tour enter leave) = t.tour (fun u => f (enter u)) (fun u => f (leave u)) := by
  induction t with
  | leaf token => rw [tour, tour, happ]
  | node rule span ts ih =>
    rw [tour_eq, tour_eq, happ, happ, children]
    congr 2
    induction ts with
    | nil => exact hnil
    | cons t ts ihts =>
      rw [List.flatMap_cons, List.flatMap_cons, happ, ih t List.mem_cons_self,
        ihts fun u hu => ih u (List.mem_cons_of_mem _ hu)]

/-- Whatever is done on a tour is done on entering or on leaving some node. -/
theorem mem_tour {t : Tree} {x : α} (h : x ∈ t.tour enter leave) : ∃ u, x ∈ enter u ∨ x ∈ leave u := by
  induction t with
  | leaf token =>
    rw [tour, List.mem_append] at h
    exact ⟨_, h⟩
  | node rule span ts ih =>
    rw [tour_eq, List.mem_append, List.mem_append] at h
    rcases h with (h | h) | h
    · exact ⟨_, .inl h⟩
    · obtain ⟨t, ht, hx⟩ := List.mem_flatMap.1 h
      exact ih t ht hx
    · exact ⟨_, .inr h⟩

end Tree

namespace Engine

/-- The calls on entering a node. -/
def entering (e : Engine) (t : Tree) : List Call := (e.subscribers t.symbol).map (⟨·, .enterNode, t⟩)

/-- The calls on leaving a node: the same checks in reverse order. -/
def leaving (e : Engine) (t : Tree) : List Call := (e.subscribers t.symbol).reverse.map (⟨·, .leaveNode, t⟩)

/-- The calls of the recursive walk: all checks at the beginning, then the tour of the tree, then all checks in reverse
order at the end. -/
def course (e : Engine) (root : Tree) : List Call :=
  (List.range e.checks.length).map (⟨·, .openUnit, root⟩) ++
  root.tour e.entering e.leaving ++
  (List.range e.checks.length).reverse.map (⟨·, .closeUnit, root⟩)

/-- The calls that an event on the stack still leads to. -/
def pending (e : Engine) : Event → List Call
  | .enter t => t.tour e.entering e.leaving
  | .leave t => e.leaving t

private theorem pending_children (e : Engine) (t : Tree) :
    (t.children.map Event.enter).flatMap e.pending = t.children.flatMap (Tree.tour e.entering e.leaving) := by
  rw [List.flatMap_map]
  rfl

end Engine

/-! ### The walk with a stack -/

namespace Scan

private theorem callAll_append (s : Scan) (calls more : List Call) :
    s.callAll (calls ++ more) = (s.callAll calls).callAll more := List.foldl_append

/-- The stack makes the calls that its events lead to, one event after the other. -/
theorem walk_eq (e : Engine) (stack : List Event) (s : Scan) :
    s.walk e.subscriptions stack = s.callAll (stack.flatMap e.pending) := by
  fun_induction walk e.subscriptions stack s with
  | case1 s => rfl
  | case2 t stack s subscribers hfind ih =>
    -- the tour begins with the calls on entering; the others are still on the stack
    obtain rfl := Engine.subscribers_of_some hfind
    rw [ih, ← callAll_append, List.flatMap_append, e.pending_children, List.flatMap_cons, List.flatMap_cons]
    simp only [Engine.pending, Tree.tour_eq _ _ t, List.append_assoc]
    rfl
  | case3 t stack s hfind ih =>
    have hnone := Engine.subscribers_of_none hfind
    rw [ih, List.flatMap_append, e.pending_children, List.flatMap_cons]
    simp [Engine.pending, Tree.tour_eq _ _ t, Engine.entering, Engine.leaving, hnone]
  | case4 t stack s subscribers hfind ih =>
    obtain rfl := Engine.subscribers_of_some hfind
    rw [ih, ← callAll_append, List.flatMap_cons]
    rfl
  | case5 t stack s hfind ih =>
    have hnone := Engine.subscribers_of_none hfind
    rw [ih, List.flatMap_cons]
    simp [Engine.pending, Engine.leaving, hnone]

end Scan

/-- A scan makes the calls of the recursive walk, in its order. -/
theorem Engine.run_eq (e : Engine) (root : Tree) : e.run root = (Scan.start e.checks).callAll (e.course root) := by
  unfold run course
  dsimp only
  rw [Scan.walk_eq, List.flatMap_singleton, ← Scan.callAll_append, ← Scan.callAll_append, ← List.append_assoc]
  rfl

/-! ### One call after the other -/

/-- The issues of a call that stay: all that the check reported, or none if it failed. -/
def LogEntry.kept (x : LogEntry) : List Issue := if x.diagnostic.isSome then [] else x.issues

namespace Scan

variable {s : Scan} {c : Call} {slot : Slot}

/-- The state after a check has been called. -/
def answered (s : Scan) (index : Nat) (answer : LogEntry × Slot) : Scan where
  slots := s.slots.set index answer.2
  issues := s.issues ++ answer.1.kept
  diagnostics := s.diagnostics ++ answer.1.diagnostic.toList
  log := s.log.push answer.1

private theorem shrink_append {α : Type} (xs : Array α) (ys : List α) : (xs ++ ys).shrink xs.size = xs := by
  rw [← Array.toList_inj]
  simp

/-- A check that has not failed is called.  If it fails now, the list of issues is as long as before. -/
theorem call_enabled (h : s.slots[c.index]? = some slot) (hd : slot.disabled = false) :
    s.call c = s.answered c.index (slot.answer c) := by
  unfold call answered LogEntry.kept
  rw [h]
  simp only [hd, Bool.false_eq_true, if_false]
  split
  · rename_i hnone
    simp [hnone]
  · rename_i diagnostic hsome
    rw [shrink_append]
    simp [hsome]

/-- A check that has failed is not called. -/
theorem call_disabled (h : s.slots[c.index]? = some slot) (hd : slot.disabled = true) : s.call c = s := by
  simp [call, h, hd]

theorem call_cases (s : Scan) (c : Call) :
    s.call c = s ∨
    ∃ slot, s.slots[c.index]? = some slot ∧ slot.disabled = false ∧ s.call c = s.answered c.index (slot.answer c) := by
  cases h : s.slots[c.index]? with
  | none => exact .inl (by simp [call, h])
  | some slot =>
    cases hd : slot.disabled with
    | true => exact .inl (call_disabled h hd)
    | false => exact .inr ⟨slot, rfl, hd, call_enabled h hd⟩

theorem callAll_cons (s : Scan) (c : Call) (calls : List Call) :
    s.callAll (c :: calls) = (s.call c).callAll calls := rfl

/-- What one call keeps, all calls keep. -/
theorem callAll_induction {P : Scan → Prop} (h : P s) (calls : List Call)
    (hstep : ∀ s slot c, P s → c ∈ calls → s.slots[c.index]? = some slot → slot.disabled = false →
      P (s.answered c.index (slot.answer c))) : P (s.callAll calls) := by
  induction calls generalizing s with
  | nil => exact h
  | cons c calls ih =>
    rw [callAll_cons]
    have hcall : P (s.call c) := by
      rcases s.call_cases c with hsame | ⟨slot, hslot, hd, hcall⟩
      · rwa [hsame]
      · rw [hcall]
        exact hstep s slot c h List.mem_cons_self hslot hd
    exact ih hcall fun s slot c hs hc => hstep s slot c hs (List.mem_cons_of_mem _ hc)

end Scan

namespace Engine

private theorem lt_of_mem_subscribers {e : Engine} {symbol : Symbol} {i : Nat} (h : i ∈ e.subscribers symbol) :
    i < e.checks.length := by
  unfold subscribers at h
  obtain ⟨⟨c, j⟩, hc, rfl⟩ := List.mem_map.1 h
  have hj := List.mem_zipIdx (List.mem_filter.1 hc).1
  omega

/-- All calls of the walk are calls of registered checks. -/
theorem lt_of_mem_course {e : Engine} {root : Tree} {c : Call} (h : c ∈ e.course root) :
    c.index < e.checks.length := by
  unfold course at h
  rw [List.mem_append, List.mem_append] at h
  rcases h with (h | h) | h
  · obtain ⟨i, hi, rfl⟩ := List.mem_map.1 h
    exact List.mem_range.1 hi
  · obtain ⟨t, h | h⟩ := Tree.mem_tour h
    · obtain ⟨i, hi, rfl⟩ := List.mem_map.1 h
      exact lt_of_mem_subscribers hi
    · obtain ⟨i, hi, rfl⟩ := List.mem_map.1 h
      exact lt_of_mem_subscribers (List.mem_reverse.1 hi)
  · obtain ⟨i, hi, rfl⟩ := List.mem_map.1 h
    exact List.mem_range.1 (List.mem_reverse.1 hi)

end Engine

end PlsqlLint
