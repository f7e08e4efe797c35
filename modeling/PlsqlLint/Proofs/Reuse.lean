import PlsqlLint.Analysis.Basic
import PlsqlLint.Proofs.Depth
import PlsqlLint.Proofs.Walk

/-!
# Engines that are used again

An engine keeps the states of its checks from one scan to the next.  If every check begins a unit in the same way,
whatever its state (`Check.Resets`), this does not show: after the calls at the beginning of a unit two scans with
different states are the same (`Engine.scan_congr`).

A parse does the same with any budget of stack that is enough, so all in all a unit is analysed like with a new engine
(`Analyzer.analyzeWithin_eq`).
-/

namespace PlsqlLint

/-! ### Budgets of stack -/

/-- Two parses of the same tokens with the same bound on nesting, with enough stack for both. -/
def Simulation.ofBudgets {limits₁ limits₂ : Limits} (hd : limits₁.maxDepth = limits₂.maxDepth) (h₁ : limits₁.Ample)
    (h₂ : limits₂.Ample) : Simulation :=
  { ofBounds hd.le h₁ h₂ with
    gaveUp := fun _ => False
    horizon := .none _ _
    room := by
      rintro s _ rfl levels wanted rules left₁ left₂ hlevels
      right
      show Option.Rel Eq (Matcher.shortage? levels wanted ⟨limits₁, rules, left₁⟩ s)
        (Matcher.shortage? (levels + (limits₂.maxDepth - limits₁.maxDepth)) wanted ⟨limits₂, rules, left₂⟩ s)
      rw [hd, Nat.sub_self, Nat.add_zero]
      by_cases hw : levels < wanted
      · unfold Matcher.shortage?
        rw [if_pos hw, if_pos hw, hd]
        exact .some rfl
      · have hle := Nat.le_of_not_lt hw
        rw [Matcher.shortage?_eq_none hle ⟨h₁, hlevels⟩, Matcher.shortage?_eq_none hle ⟨h₂, hd ▸ hlevels⟩]
        exact .none }

namespace Parser

theorem parse_budget (tokens : List Token) {limits₁ limits₂ : Limits} (hd : limits₁.maxDepth = limits₂.maxDepth)
    (h₁ : limits₁.Ample) (h₂ : limits₂.Ample) :
    (ofTokens tokens limits₁).parse.1 = (ofTokens tokens limits₂).parse.1 := by
  have hagree : (Simulation.ofBudgets hd h₁ h₂).Agree (Rule.fileInput.root.matchAt limits₁ (.ofTokens tokens))
      (Rule.fileInput.root.matchAt limits₂ (.ofTokens tokens)) := Simulation.matchAt_agree _ _ rfl
  show conclude (Rule.fileInput.root.matchAt limits₁ (.ofTokens tokens)) =
    conclude (Rule.fileInput.root.matchAt limits₂ (.ofTokens tokens))
  generalize Rule.fileInput.root.matchAt limits₁ (.ofTokens tokens) = r₁,
    Rule.fileInput.root.matchAt limits₂ (.ofTokens tokens) = r₂ at hagree
  cases hagree with
  | matched hx hs =>
    obtain rfl : _ = _ := hs
    obtain rfl : _ = _ := List.forall₂_eq_eq_eq ▸ hx
    rfl
  | mismatch hs =>
    obtain rfl : _ = _ := hs
    rfl
  | fatal ho hs =>
    obtain rfl : _ = _ := ho
    rfl
  | lost hl =>
    obtain ⟨_, _, -, ho⟩ := Horizon.eq_fatal_of_none hl
    exact ho.elim

end Parser

/-! ### Checks and their states -/

namespace Check

/-- All of a check but its state. -/
def kind (c : Check) : Metadata × List Symbol × (State : Type) × (Occasion → Tree → State → Reaction State) :=
  (c.metadata, c.subscriptions, ⟨c.State, c.react⟩)

/-- What the check does at the beginning of a unit, and its state thereafter, do not depend on its state before. -/
def Resets (c : Check) : Prop := ∀ t s s', c.react .openUnit t s = c.react .openUnit t s'

private theorem eq_of_kind {c c' : Check} (h : c'.kind = c.kind) : ∃ state, c' = { c with state := state } := by
  obtain ⟨metadata, subscriptions, State, state, react⟩ := c
  obtain ⟨metadata', subscriptions', State', state', react'⟩ := c'
  cases h
  exact ⟨state', rfl⟩

private theorem registration_of_kind {c c' : Check} (h : c'.kind = c.kind) : c'.registration = c.registration := by
  obtain ⟨state, rfl⟩ := eq_of_kind h
  rfl

/-- The built-in checks remember nothing. -/
theorem resets_builtIn : ∀ c ∈ builtIn, c.Resets := by
  intro c hc
  simp only [builtIn, List.mem_cons, List.not_mem_nil, or_false] at hc
  rcases hc with rfl | rfl
  · intro t s s'
    rfl
  · intro t s s'
    rfl

end Check

private theorem Slot.answer_openUnit {c c' : Check} (h : c'.kind = c.kind) (hc : c.Resets) (i : Nat) (t : Tree) :
    Slot.answer ⟨c', false⟩ ⟨i, .openUnit, t⟩ = Slot.answer ⟨c, false⟩ ⟨i, .openUnit, t⟩ := by
  obtain ⟨state, rfl⟩ := Check.eq_of_kind h
  unfold Slot.answer
  rw [hc t state c.state]

namespace Scan

variable (root : Tree) (before : List Slot) (issues : Array Issue) (diagnostics : Array Diagnostic)
  (log : Array LogEntry)

/-- The first of the checks that are still to be called at the beginning of a unit. -/
private theorem callAll_openUnit_cons (c : Check) (checks : List Check) :
    let answer := Slot.answer ⟨c, false⟩ ⟨before.length, .openUnit, root⟩
    (Scan.mk (before ++ (c :: checks).map (⟨·, false⟩)) issues diagnostics log).callAll
        ((List.range' before.length (c :: checks).length).map (⟨·, .openUnit, root⟩)) =
      (Scan.mk (before ++ [answer.2] ++ checks.map (⟨·, false⟩)) (issues ++ answer.1.kept)
          (diagnostics ++ answer.1.diagnostic.toList) (log.push answer.1)).callAll
        ((List.range' (before ++ [answer.2]).length checks.length).map (⟨·, .openUnit, root⟩)) := by
  intro answer
  have hslot : (before ++ ⟨c, false⟩ :: checks.map (Slot.mk · false))[before.length]? = some ⟨c, false⟩ := by simp
  rw [List.length_cons, List.range'_succ, List.map_cons, List.map_cons, callAll_cons, call_enabled hslot rfl]
  simp [answered, answer]

/-- The calls at the beginning of a unit make up for different states of the checks. -/
theorem callAll_openUnit {checks checks' : List Check} (h : checks'.map Check.kind = checks.map Check.kind)
    (hc : ∀ c ∈ checks, c.Resets) :
    (Scan.mk (before ++ checks'.map (⟨·, false⟩)) issues diagnostics log).callAll
        ((List.range' before.length checks'.length).map (⟨·, .openUnit, root⟩)) =
      (Scan.mk (before ++ checks.map (⟨·, false⟩)) issues diagnostics log).callAll
        ((List.range' before.length checks.length).map (⟨·, .openUnit, root⟩)) := by
  induction checks generalizing checks' before issues diagnostics log with
  | nil =>
    obtain rfl : checks' = [] := by simpa using h
    rfl
  | cons c checks ih =>
    obtain ⟨c', checks', rfl, hkind, hkinds⟩ := List.map_eq_cons_iff.1 h
    rw [List.forall_mem_cons] at hc
    rw [callAll_openUnit_cons, callAll_openUnit_cons, Slot.answer_openUnit hkind hc.1]
    exact ih _ _ _ _ hkinds hc.2

/-- The calls change nothing of the checks but their states. -/
theorem kinds_callAll (s : Scan) (calls : List Call) :
    (s.callAll calls).slots.map (·.check.kind) = s.slots.map (·.check.kind) := by
  refine callAll_induction (P := fun t => t.slots.map (·.check.kind) = s.slots.map (·.check.kind)) rfl calls ?_
  intro t slot c ht _ hslot _
  obtain ⟨hlt, rfl⟩ := List.getElem?_eq_some_iff.1 hslot
  rw [← ht]
  refine List.ext_getElem? fun j => ?_
  by_cases hj : c.index = j
  · subst hj
    simp [answered, hlt, Slot.answer, Check.kind]
  · simp [answered, List.getElem?_set_ne hj]

end Scan

namespace SubscriptionTable

private theorem registerAll_congr {checks checks' : List Check} (h : checks'.map Check.kind = checks.map Check.kind)
    (table : SubscriptionTable) (n : Nat) : table.registerAll n checks' = table.registerAll n checks := by
  induction checks generalizing checks' table n with
  | nil =>
    obtain rfl : checks' = [] := by simpa using h
    rfl
  | cons c checks ih =>
    obtain ⟨c', checks', rfl, hkind, hkinds⟩ := List.map_eq_cons_iff.1 h
    rw [registerAll, registerAll, Check.registration_of_kind hkind, ih hkinds]

end SubscriptionTable

namespace Engine

/-- The engines differ in the states of their checks only. -/
def Like (e' e : Engine) : Prop := e'.checks.map Check.kind = e.checks.map Check.kind

variable {e e' : Engine}

/-- If all checks reset, the states that they have before a scan do not matter. -/
theorem scan_congr (h : e'.Like e) (hc : ∀ c ∈ e.checks, c.Resets) (root : Tree) : e'.scan root = e.scan root := by
  have heveryone : e'.everyone = e.everyone := by
    have hlength : e'.checks.length = e.checks.length := by simpa using congrArg List.length h
    rw [everyone, everyone, hlength]
  have htable : e'.subscriptions = e.subscriptions := SubscriptionTable.registerAll_congr h _ _
  have hopen : (Scan.start e'.checks).callAll (Occasion.openUnit.calls root e'.everyone) =
      (Scan.start e.checks).callAll (Occasion.openUnit.calls root e.everyone) := by
    simpa [Scan.start, Occasion.calls, everyone, List.range_eq_range'] using
      Scan.callAll_openUnit root [] #[] #[] #[] h hc
  have hrun : e'.run root = e.run root := by
    unfold run
    dsimp only
    rw [hopen, htable, heveryone]
  unfold scan
  rw [hrun]

theorem like_scan (e : Engine) (root : Tree) : (e.scan root).2.Like e := by
  have hkinds := Scan.kinds_callAll (Scan.start e.checks) (e.course root)
  rw [← run_eq] at hkinds
  simpa [Like, scan, Scan.start, Function.comp_def] using hkinds

end Engine

/-! ### Units -/

namespace Analyzer

variable (a : Analyzer)

private theorem parseWithin_budget {b₁ b₂ : Nat} (h₁ : (a.limits b₁).Ample) (h₂ : (a.limits b₂).Ample) (text : String) :
    a.parseWithin b₁ text = a.parseWithin b₂ text := by
  unfold parseWithin Parser.ofText
  cases tokenize text with
  | error e => rfl
  | ok tokens =>
    have hdepth : (a.limits b₁).maxDepth = (a.limits b₂).maxDepth := rfl
    dsimp only
    rw [Parser.parse_budget tokens hdepth h₁ h₂]

variable {a}

/-- With an engine that has been used a unit is analysed like with a new one, and the engine can be used again. -/
theorem analyzeWithin_like (hc : ∀ c ∈ a.checks, c.Resets) {e : Engine} (he : e.Like a.engine) (budget : Nat)
    (unit : SourceUnit) :
    (a.analyzeWithin budget e unit).1 = (a.analyzeWithin budget a.engine unit).1 ∧
      (a.analyzeWithin budget e unit).2.Like a.engine := by
  unfold analyzeWithin
  cases a.parseWithin budget unit.text with
  | error error => exact ⟨rfl, he⟩
  | ok t =>
    dsimp only
    rw [Engine.scan_congr he hc]
    exact ⟨rfl, a.engine.like_scan t⟩

/-- The same, if both budgets are enough. -/
theorem analyzeWithin_eq {budget : Nat} (hb : (a.limits budget).Ample)
    (hdefault : (a.limits Limits.defaultBudget).Ample) (hc : ∀ c ∈ a.checks, c.Resets) {e : Engine}
    (he : e.Like a.engine) (unit : SourceUnit) :
    (a.analyzeWithin budget e unit).1 = a.analyze unit ∧ (a.analyzeWithin budget e unit).2.Like a.engine := by
  have hnew : (a.analyzeWithin budget a.engine unit).1 = a.analyze unit := by
    unfold analyze analyzeWith analyzeWithin
    rw [a.parseWithin_budget hb hdefault]
  obtain ⟨hreport, hengine⟩ := analyzeWithin_like hc he budget unit
  exact ⟨hreport.trans hnew, hengine⟩

theorem name_analyze (unit : SourceUnit) : (a.analyze unit).name = unit.name := by
  unfold analyze analyzeWith analyzeWithin
  cases a.parseWithin Limits.defaultBudget unit.text <;> rfl

/-- Without a pool there is no worker that could fail. -/
theorem outcome_analyze_ne (unit : SourceUnit) : (a.analyze unit).outcome ≠ .error .workerFailed := by
  have hparse : a.parseWithin Limits.defaultBudget unit.text ≠ .error .workerFailed := by
    unfold parseWithin
    split
    · simp
    · split <;> simp
  unfold analyze analyzeWith analyzeWithin
  cases h : a.parseWithin Limits.defaultBudget unit.text with
  | error error =>
    intro herror
    exact hparse (h.trans (congrArg Except.error (Except.error.inj herror)))
  | ok t => simp

end Analyzer

end PlsqlLint
