import PlsqlLint.Proofs.Walk

/-!
# Checks do not disturb each other

What a check contributes to a scan is what it would contribute alone (`Engine.run_isolated`): the issues of its calls up
to the first that fails, and a diagnostic for this one.  Nothing that other checks do, or fail to do, has an influence.

The outcome of a scan can be read off its log (`Scan.outcome_callAll`), so cutting back the common list of issues takes
away what the failing call has reported and nothing else.  The part of the log that belongs to one check follows the
calls of this check only (`Scan.logOf_callAll`), and these are the calls that it has when it is alone
(`Engine.filter_course`).
-/

namespace PlsqlLint

/-! ### The log and the outcome -/

namespace Outcome

/-- What the calls of a log have contributed to the outcome. -/
def ofLog (log : List LogEntry) : Outcome := ⟨log.flatMap LogEntry.kept, log.filterMap LogEntry.diagnostic⟩

private theorem ofLog_concat (log : List LogEntry) (x : LogEntry) :
    ofLog (log ++ [x]) = ⟨(ofLog log).issues ++ x.kept, (ofLog log).diagnostics ++ x.diagnostic.toList⟩ := by
  unfold ofLog
  cases h : x.diagnostic with
  | none => simp [h]
  | some d => simp [h]

end Outcome

namespace Scan

/-- The issues and diagnostics of a scan are those that its log says, in the order of the calls. -/
theorem outcome_callAll {s : Scan} (h : s.outcome = .ofLog s.log.toList) (calls : List Call) :
    (s.callAll calls).outcome = .ofLog (s.callAll calls).log.toList := by
  refine callAll_induction (P := fun t => t.outcome = .ofLog t.log.toList) h calls ?_
  intro t slot c ht _ _ _
  rw [answered, Array.toList_push, Outcome.ofLog_concat, ← ht]
  simp [outcome]

/-- The part of the log that belongs to the check with a number. -/
def logOf (s : Scan) (i : Nat) : List LogEntry := s.log.toList.filter (·.call.index == i)

end Scan

theorem Engine.outcome_run (e : Engine) (root : Tree) : (e.run root).outcome = .ofLog (e.run root).log.toList := by
  rw [run_eq]
  exact Scan.outcome_callAll rfl _

/-! ### The calls of one check -/

/-- The entries of a check that is called time and again, until it fails. -/
def Slot.answers (slot : Slot) : List Call → List LogEntry
  | [] => []
  | c :: calls => if slot.disabled then [] else (slot.answer c).1 :: (slot.answer c).2.answers calls

private theorem Slot.answers_disabled {slot : Slot} (h : slot.disabled = true) (calls : List Call) :
    slot.answers calls = [] := by
  cases calls with
  | nil => rfl
  | cons c calls => rw [answers, if_pos h]

namespace Scan

variable {s : Scan} {c : Call} {slot : Slot} {i : Nat}

/-- The call of one check leaves all others as they are. -/
theorem call_other (hc : c.index ≠ i) : (s.call c).slots[i]? = s.slots[i]? ∧ (s.call c).logOf i = s.logOf i := by
  rcases s.call_cases c with hsame | ⟨slot, _, _, hcall⟩
  · rw [hsame]
    exact ⟨rfl, rfl⟩
  · rw [hcall]
    constructor
    · exact List.getElem?_set_ne hc
    · have hb : (c.index == i) = false := beq_eq_false_iff_ne.2 hc
      simp [logOf, answered, Slot.answer, List.filter_append, hb]

/-- What the log says of one check depends on the calls of this check only. -/
theorem logOf_callAll (h : s.slots[i]? = some slot) (calls : List Call) :
    (s.callAll calls).logOf i = s.logOf i ++ slot.answers (calls.filter (·.index == i)) := by
  induction calls generalizing s slot with
  | nil => simp [callAll, Slot.answers]
  | cons c calls ih =>
    rw [callAll_cons, List.filter_cons]
    by_cases hc : c.index = i
    · rw [if_pos (beq_iff_eq.2 hc)]
      have hi : s.slots[c.index]? = some slot := hc ▸ h
      cases hd : slot.disabled with
      | true =>
        rw [call_disabled hi hd, ih h, Slot.answers_disabled hd, Slot.answers_disabled hd]
      | false =>
        have hset : (s.answered c.index (slot.answer c)).slots[i]? = some (slot.answer c).2 := by
          have hlt : c.index < s.slots.length := (List.getElem?_eq_some_iff.1 hi).1
          rw [← hc]
          exact List.getElem?_set_self hlt
        have hlog : (s.answered c.index (slot.answer c)).logOf i = s.logOf i ++ [(slot.answer c).1] := by
          simp [logOf, answered, Slot.answer, List.filter_append, hc]
        rw [call_enabled hi hd, ih hset, hlog, Slot.answers, hd, List.append_assoc]
        rfl
    · rw [if_neg (fun h => hc (beq_iff_eq.1 h))]
      obtain ⟨hslots, hlog⟩ := call_other (s := s) hc
      rw [ih (hslots.trans h), hlog]

end Scan

/-! ### A check on its own -/

namespace Check

/-- The calls that the walk through a tree makes to a check. -/
def course (c : Check) (root : Tree) : List (Occasion × Tree) :=
  (.openUnit, root) ::
    root.tour (fun t => if c.subscribesTo t.symbol then [(.enterNode, t)] else [])
      (fun t => if c.subscribesTo t.symbol then [(.leaveNode, t)] else []) ++ [(.closeUnit, root)]

/-- The entries of the check with the number `i` for calls that are all made, whether it fails or not. -/
def replay (c : Check) (i : Nat) : c.State → List (Occasion × Tree) → List LogEntry
  | _, [] => []
  | state, (occasion, t) :: calls =>
    let reaction := c.react occasion t state
    let diagnostic := reaction.failure.map fun e =>
      ⟨c.metadata.key, e.message, t.span.start.line, t.span.start.column⟩
    ⟨⟨i, occasion, t⟩, reaction.issues, diagnostic⟩ :: c.replay i reaction.state calls

/-- The number of a check shows in its entries and has no influence on them. -/
private theorem replay_map (c : Check) (i j : Nat) (state : c.State) (calls : List (Occasion × Tree)) :
    (c.replay i state calls).map (fun x => { x with call := ⟨j, x.call.occasion, x.call.tree⟩ }) =
      c.replay j state calls := by
  induction calls generalizing state with
  | nil => rfl
  | cons call calls ih =>
    simp only [replay, List.map_cons, ih]

end Check

/-- The entries in front of the first failure, and this one. -/
def upToFailure (log : List LogEntry) : List LogEntry :=
  log.takeWhile (·.diagnostic.isNone) ++ (log.find? (·.diagnostic.isSome)).toList

/-- Up to the first failure, the calls contribute the issues of those that do not fail and the diagnostic of the one
that does. -/
private theorem Outcome.ofLog_upToFailure (log : List LogEntry) :
    ofLog (upToFailure log) =
      ⟨(log.takeWhile (·.diagnostic.isNone)).flatMap (·.issues),
       (log.find? (·.diagnostic.isSome)).toList.filterMap (·.diagnostic)⟩ := by
  unfold ofLog upToFailure
  induction log with
  | nil => rfl
  | cons x log ih =>
    cases h : x.diagnostic with
    | none =>
      rw [Outcome.mk.injEq] at ih ⊢
      simpa [h, LogEntry.kept] using ih
    | some d => simp [h, LogEntry.kept]

private theorem Slot.answers_eq (c : Check) (i : Nat) (state : c.State) (calls : List (Occasion × Tree)) :
    Slot.answers ⟨{ c with state := state }, false⟩ (calls.map fun x => ⟨i, x.1, x.2⟩) =
      upToFailure (c.replay i state calls) := by
  induction calls generalizing state with
  | nil => rfl
  | cons call calls ih =>
    obtain ⟨occasion, t⟩ := call
    rw [List.map_cons, answers, if_neg (by simp), Check.replay]
    unfold upToFailure at ih ⊢
    cases hf : (c.react occasion t state).failure with
    | none =>
      have hnext := ih (c.react occasion t state).state
      simp [answer, hf, hnext]
    | some e =>
      rw [answers_disabled (by simp [answer, hf])]
      simp [answer, hf]

namespace Engine

variable {e : Engine} {c : Check} {i : Nat}

private theorem nodup_subscribers (e : Engine) (symbol : Symbol) : (e.subscribers symbol).Nodup := by
  have hsub : (e.subscribers symbol).Sublist (e.checks.zipIdx.map (·.2)) := List.filter_sublist.map _
  refine hsub.nodup ?_
  rw [List.zipIdx_map_snd]
  exact List.nodup_range'

theorem mem_subscribers (h : e.checks[i]? = some c) {symbol : Symbol} :
    i ∈ e.subscribers symbol ↔ c.subscribesTo symbol = true := by
  unfold subscribers
  simp only [List.mem_map, List.mem_filter, Prod.exists, exists_eq_right]
  constructor
  · rintro ⟨d, hd, hsub⟩
    have hget := List.mem_zipIdx_iff_getElem?.1 hd
    obtain rfl : c = d := Option.some.inj (h.symm.trans hget)
    exact hsub
  · intro hsub
    exact ⟨c, List.mem_zipIdx_iff_getElem?.2 h, hsub⟩

private theorem filter_nodup {l : List Nat} (hl : l.Nodup) (i : Nat) :
    l.filter (· == i) = if i ∈ l then [i] else [] := by
  rw [List.filter_beq]
  split
  · rename_i hi
    rw [List.count_eq_one_of_mem hl hi]
    rfl
  · rename_i hi
    rw [List.count_eq_zero_of_not_mem hi]
    rfl

/-- Of calls that are made to some checks, those of one check. -/
private theorem filter_calls {l : List Nat} (hl : l.Nodup) (i : Nat) (occasion : Occasion) (t : Tree) :
    (l.map (Call.mk · occasion t)).filter (·.index == i) = if i ∈ l then [⟨i, occasion, t⟩] else [] := by
  rw [List.filter_map]
  have hcomp : ((fun c : Call => c.index == i) ∘ fun j => Call.mk j occasion t) = (· == i) := rfl
  rw [hcomp, filter_nodup hl]
  split <;> rfl

/-- The calls of the walk that one check gets, whatever the other checks are. -/
theorem filter_course (h : e.checks[i]? = some c) (root : Tree) :
    (e.course root).filter (·.index == i) = (c.course root).map fun x => ⟨i, x.1, x.2⟩ := by
  have hi : i ∈ List.range e.checks.length := List.mem_range.2 (List.getElem?_eq_some_iff.1 h).1
  have hrange := List.nodup_range (n := e.checks.length)
  have htour : (root.tour e.entering e.leaving).filter (·.index == i) =
      (root.tour (fun t => if c.subscribesTo t.symbol then [(Occasion.enterNode, t)] else [])
        (fun t => if c.subscribesTo t.symbol then [(Occasion.leaveNode, t)] else [])).map
        fun x => (⟨i, x.1, x.2⟩ : Call) := by
    rw [Tree.tour_hom (List.filter _) rfl (fun _ _ => List.filter_append ..),
      Tree.tour_hom (List.map _) rfl (fun _ _ => List.map_append)]
    congr 1
    · funext t
      rw [entering, filter_calls (e.nodup_subscribers _), if_congr (mem_subscribers h) rfl rfl]
      split <;> rfl
    · funext t
      rw [leaving, filter_calls (List.nodup_reverse.2 (e.nodup_subscribers _)),
        if_congr (List.mem_reverse.trans (mem_subscribers h)) rfl rfl]
      split <;> rfl
  unfold course Check.course
  rw [List.filter_append, List.filter_append, filter_calls hrange, if_pos hi,
    filter_calls (List.nodup_reverse.2 hrange), if_pos (List.mem_reverse.2 hi), htour, List.map_append, List.map_cons]
  rfl

/-- The part of the log that belongs to one check is what the check answers to its own calls. -/
theorem logOf_run (h : e.checks[i]? = some c) (root : Tree) :
    (e.run root).logOf i = upToFailure (c.replay i c.state (c.course root)) := by
  have hslot : (Scan.start e.checks).slots[i]? = some ⟨c, false⟩ := by simp [Scan.start, h]
  rw [run_eq, Scan.logOf_callAll hslot, filter_course h, Slot.answers_eq]
  rfl

/-- The log of an engine with one check is all about this check. -/
private theorem logOf_run_single (c : Check) (root : Tree) :
    ((Engine.mk [c]).run root).logOf 0 = ((Engine.mk [c]).run root).log.toList := by
  have hzero : ∀ x ∈ ((Engine.mk [c]).run root).log.toList, x.call.index = 0 := by
    rw [run_eq]
    refine Scan.callAll_induction (P := fun s => ∀ x ∈ s.log.toList, x.call.index = 0) (by simp [Scan.start]) _ ?_
    intro s slot call hs hcall _ _ x hx
    rw [Scan.answered, Array.toList_push, List.mem_append, List.mem_singleton] at hx
    rcases hx with hx | rfl
    · exact hs x hx
    · exact Nat.lt_one_iff.1 (lt_of_mem_course hcall)
  exact List.filter_eq_self.2 fun x hx => beq_iff_eq.2 (hzero x hx)

/-- What the check with the number `i` contributes to a scan is what it contributes when it is the only check: the
issues of its calls in front of the first that fails, and the diagnostic of this one, if there is one; it is not called
any more after it.  All that a scan reports is the contribution of some call in its log. -/
theorem run_isolated (checks : List Check) (root : Tree) (i : Fin checks.length) :
    let e : Engine := ⟨checks⟩
    let own := (e.run root).logOf i
    let entries := checks[i].replay i checks[i].state (checks[i].course root)
    (e.scan root).1 = .ofLog (e.run root).log.toList ∧
    .ofLog own = ((Engine.mk [checks[i]]).scan root).1 ∧
    own = entries.takeWhile (·.diagnostic.isNone) ++ (entries.find? (·.diagnostic.isSome)).toList ∧
    .ofLog own = (⟨(entries.takeWhile (·.diagnostic.isNone)).flatMap (·.issues),
      (entries.find? (·.diagnostic.isSome)).toList.filterMap (·.diagnostic)⟩ : Outcome) := by
  intro e own entries
  have hown : own = upToFailure entries := logOf_run (List.getElem?_eq_getElem i.2) root
  have hsolo : ((Engine.mk [checks[i]]).scan root).1 =
      .ofLog (upToFailure (checks[i].replay 0 checks[i].state (checks[i].course root))) := by
    have hlog := logOf_run (e := ⟨[checks[i]]⟩) (i := 0) rfl root
    rw [logOf_run_single] at hlog
    rw [← hlog]
    exact outcome_run _ root
  refine ⟨outcome_run e root, ?_, hown, ?_⟩
  · rw [hown, hsolo, Outcome.ofLog_upToFailure, Outcome.ofLog_upToFailure, ← Check.replay_map _ i 0]
    simp only [entries, List.takeWhile_map, List.find?_map, Function.comp_def, List.flatMap_map]
    cases List.find? _ (checks[i].replay i checks[i].state (checks[i].course root)) with
    | none => rfl
    | some x => rfl
  · rw [hown, Outcome.ofLog_upToFailure]

end Engine

end PlsqlLint
