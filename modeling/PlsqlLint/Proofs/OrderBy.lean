import Mathlib
import PlsqlLint.Grammar.Routine
import PlsqlLint.Proofs.Bookkeeping

/-!
# The items of an `ORDER BY` clause

The items can be read by one loop with a flag (`OrderBy.itemRound`).  A routine mirrors a matcher if it ends in the same
way and has touched the flag only where it matches (`Routine.Mirrors`).  As the flag is lowered by the last step of a
round, each round mirrors a pattern: the first one an item, and every other one a comma and an item.  As an item reads
at least one token, the loop does not stop behind the first.  So the clause with the loop is the clause of the grammar
(`OrderBy.looped_eq_run`), and both end as a plain list with commas does.
-/

namespace PlsqlLint

/-! ### Routines that mirror a matcher -/

namespace Routine

/-- A routine that starts with the frame `f` ends as the reply says.  A match adds the trees to the frame and leaves the
flag `after`.  Without a match there may be more trees in the frame, but the flag is as it was; if a bound is exceeded,
nothing is said of either. -/
inductive Mirrors (f : Frame) (after : Bool) : Reply → Ending × Frame → Prop
  | matched (xs : List Tree) (s : ParseState) :
      Mirrors f after (.matched xs s) (.done, ⟨f.trees ++ xs, after, s⟩)
  | mismatch (more : List Tree) (s : ParseState) :
      Mirrors f after (.mismatch s) (.mismatch, ⟨f.trees ++ more, f.first, s⟩)
  | fatal (o : Overrun) (g : Frame) : Mirrors f after (.fatal o g.state) (.fatal o, g)

namespace Mirrors

variable {a b : Routine} {m m' : Matcher} {env : Surroundings} {f : Frame} {after : Bool} {r : Reply}
  {ended : Ending × Frame}

private theorem push (m : Matcher) (env : Surroundings) (f : Frame) :
    Mirrors f f.first (m env f.state) (Routine.push m env f) := by
  unfold Routine.push
  cases m env f.state with
  | matched xs s => exact .matched xs s
  | mismatch s => simpa using (mismatch [] s : Mirrors f f.first _ _)
  | fatal o s => exact fatal o { f with state := s }

/-- Trees that were collected before go in front. -/
private theorem prepend {xs : List Tree} {s : ParseState} (h : Mirrors ⟨f.trees ++ xs, f.first, s⟩ after r ended) :
    Mirrors f after (r.after xs) ended := by
  cases h with
  | matched ys t => simpa [Reply.after] using (matched (xs ++ ys) t : Mirrors f after _ _)
  | mismatch more t => simpa [Reply.after] using (mismatch (xs ++ more) t : Mirrors f after _ _)
  | fatal o g => exact fatal o g

/-- A sequence is mirrored part by part, if only the second part touches the flag. -/
private theorem andThen (ha : Mirrors f f.first (m env f.state) (a env f))
    (hb : ∀ xs s, m env f.state = .matched xs s →
      Mirrors ⟨f.trees ++ xs, f.first, s⟩ after (m' env s) (b env ⟨f.trees ++ xs, f.first, s⟩)) :
    Mirrors f after (Matcher.seq m m' env f.state) (a.andThen b env f) := by
  unfold Matcher.seq Routine.andThen
  generalize m env f.state = r at ha hb
  generalize a env f = ended at ha
  cases ha with
  | matched xs s => exact (hb xs s rfl).prepend
  | mismatch more s => exact mismatch more s
  | fatal o g => exact fatal o g

/-- Lowering the flag as the last step. -/
private theorem lower (h : Mirrors f f.first r (a env f)) : Mirrors f false r (a.andThen Routine.lower env f) := by
  unfold Routine.andThen
  generalize a env f = ended at h
  cases h with
  | matched xs s => exact matched xs s
  | mismatch more s => exact mismatch more s
  | fatal o g => exact fatal o g

/-- A loop with the flag down is a repetition, if each of its rounds is what is repeated. -/
theorem repeated (hround : ∀ g : Frame, g.first = false → Mirrors g false (m env g.state) (a env g))
    (hf : f.first = false) : Mirrors f false (m.many env f.state) (a.repeated env f) := by
  obtain ⟨trees, first, state⟩ := f
  obtain rfl : first = false := hf
  induction state using ParseState.ahead_induction generalizing trees with
  | step state ih =>
  have hfirst := hround ⟨trees, false, state⟩ rfl
  rw [Matcher.many, Routine.repeated]
  generalize m env state = r at hfirst
  generalize a env ⟨trees, false, state⟩ = ended at hfirst
  cases hfirst with
  | matched xs s =>
    dsimp only
    split
    · rename_i hlt
      exact prepend (ih s hlt (trees ++ xs))
    · exact matched xs s
  | mismatch more s =>
    simpa using (matched [] (s.backTo state.cursor) : Mirrors ⟨trees, false, state⟩ false _ _)
  | fatal o g => exact fatal o g

/-- The routine of a body comes to the reply that it mirrors. -/
theorem matcher_eq {s : ParseState} (h : Mirrors ⟨[], true, s⟩ after r (a env ⟨[], true, s⟩)) :
    a.matcher env s = r := by
  unfold Routine.matcher
  generalize a env ⟨[], true, s⟩ = ended at h
  cases h <;> rfl

end Mirrors

end Routine

/-! ### The loop over the items -/

namespace OrderBy

open Pattern Routine

/-- The body of the clause as a list with commas. -/
def listBody : Pattern := sequence [keyword .ORDER, keyword .BY, commaList item]

/-- The clause with the list as its body, when `n` levels are left. -/
def listed (n : Nat) : Matcher := Matcher.call n .orderByClause (deeper n listBody)

variable {n : Nat} {env : Surroundings} {f : Frame} {s t : ParseState}

/-! ### One round -/

/-- Of two words, the one that is next is taken as it stands. -/
private theorem run_maybeEither (u v : String) (n : Nat) (env : Surroundings) (s : ParseState) :
    (maybeEither u v).run n env s =
      if s.cursor.sees [[.word u], [.word v]] then Matcher.advance env s else .matched [] s := by
  have hsees : ∀ w, s.cursor.sees [[.word w]] = s.cursor.current.isWord w := by
    simp [Cursor.sees, Cursor.fits, Cursor.peek, TokenClass.accepts]
  have heither : s.cursor.sees [[.word u], [.word v]] = (s.cursor.current.isWord u || s.cursor.current.isWord v) := by
    simp [Cursor.sees, Cursor.fits, Cursor.peek, TokenClass.accepts]
  rw [heither, run_eq_eval]
  cases hu : s.cursor.current.isWord u <;> cases hv : s.cursor.current.isWord v <;>
    simp [maybeEither, word, maybeWord, maybe, whenNext, eval, Matcher.take, TokenClass.accepts, hsees, hu, hv]

private theorem mirrors_direction (n : Nat) (env : Surroundings) (f : Frame) :
    Mirrors f f.first ((maybeEither "ASC" "DESC").run n env f.state)
      (onlyIf seesDirection (push Matcher.advance) env f) := by
  rw [run_maybeEither]
  unfold onlyIf seesDirection
  split
  · exact .push Matcher.advance env f
  · simpa using (Mirrors.matched [] f.state : Mirrors f f.first _ _)

private theorem mirrors_takeItem (n : Nat) (env : Surroundings) (f : Frame) :
    Mirrors f false (item.run n env f.state) (takeItem (run n) env f) := by
  show Mirrors f false ((Pattern.seq expression (maybeEither "ASC" "DESC")).run n env f.state) _
  rw [run_seq]
  exact (Mirrors.push _ env f).andThen fun xs t _ => (mirrors_direction n env _).lower

/-- A round with the flag up is an item. -/
private theorem mirrors_firstRound (hf : f.first = true) :
    Mirrors f false (item.run n env f.state) (itemRound (run n) env f) := by
  have hskip : itemRound (run n) env f = takeItem (run n) env f := by
    simp [itemRound, Routine.andThen, onlyIf, hf]
  rw [hskip]
  exact mirrors_takeItem n env f

/-- A round with the flag down is a comma and an item. -/
private theorem mirrors_nextRound (hf : f.first = false) :
    Mirrors f false ((Pattern.seq (terminal .comma) item).run n env f.state) (itemRound (run n) env f) := by
  have hcomma : Mirrors f f.first ((terminal .comma).run n env f.state)
      (onlyIf (!·.first) (push (run n (terminal .comma))) env f) := by
    simpa [onlyIf, hf] using Mirrors.push (run n (terminal .comma)) env f
  rw [run_seq]
  exact hcomma.andThen fun xs t _ => mirrors_takeItem n env _

/-! ### The whole loop -/

/-- The first round of the loop.  Where the item matches, the loop goes on with the flag down; where it does not, the
loop ends with the flag up, at the place and with the trees from before. -/
private theorem repeated_itemRound (n : Nat) (env : Surroundings) (hf : f.first = true)
    (hts : Terminated f.state.cursor.tokens) :
    (∃ xs t, item.run n env f.state = .matched xs t ∧
      repeated (itemRound (run n)) env f = repeated (itemRound (run n)) env ⟨f.trees ++ xs, false, t⟩) ∨
    (∃ t, item.run n env f.state = .mismatch t ∧
      repeated (itemRound (run n)) env f = (.done, ⟨f.trees, true, t.backTo f.state.cursor⟩)) ∨
    ∃ o g, item.run n env f.state = .fatal o g.state ∧ repeated (itemRound (run n)) env f = (.fatal o, g) := by
  have hround : Mirrors f false (item.run n env f.state) (itemRound (run n) env f) := mirrors_firstRound hf
  rw [repeated]
  generalize hitem : item.run n env f.state = r at hround
  generalize itemRound (run n) env f = ended at hround
  cases hround with
  | matched xs t =>
    -- An item is not empty, so the loop does not stop here.
    obtain ⟨hlt, -⟩ := ahead_lt_of_matched (by decide) hts hitem
    exact .inl ⟨xs, t, rfl, if_pos hlt⟩
  | mismatch more t => exact .inr (.inl ⟨t, rfl, by simp [hf]⟩)
  | fatal o g => exact .inr (.inr ⟨o, g, rfl, rfl⟩)

/-- The loop mirrors the items of the grammar: a first one, where else an expression was expected, and then any number
with a comma each. -/
theorem mirrors_itemLoop (n : Nat) (env : Surroundings) (hf : f.first = true)
    (hts : Terminated f.state.cursor.tokens) :
    Mirrors f false
      ((Pattern.seq (.orElse item (.reject "expression")) (.many (.seq (terminal .comma) item))).run n env f.state)
      (itemLoop (run n) env f) := by
  rw [run_seq, run_orElse, run_many, Matcher.seq, Matcher.orElse, itemLoop, Routine.andThen]
  rcases repeated_itemRound n env hf hts with ⟨xs, t, hitem, hloop⟩ | ⟨t, hitem, hloop⟩ | ⟨o, g, hitem, hloop⟩
  · rw [hitem, hloop]
    have hmore : Mirrors ⟨f.trees ++ xs, false, t⟩ false
        (Matcher.many ((Pattern.seq (terminal .comma) item).run n) env t)
        (repeated (itemRound (run n)) env ⟨f.trees ++ xs, false, t⟩) :=
      .repeated (fun _ hg => mirrors_nextRound hg) rfl
    rw [← run_many] at hmore ⊢
    dsimp only [Reply.andThen]
    generalize hreply : (Pattern.many _).run n env t = r at hmore
    generalize repeated _ env _ = ended at hmore
    cases hmore with
    | matched ys u => simpa [onlyIf, Reply.after] using (Mirrors.matched (xs ++ ys) u : Mirrors f false _ _)
    | mismatch more u =>
      -- A repetition never fails to match.
      cases run_sound n _ env t none (congrArg Reply.outcome? hreply)
    | fatal o g => exact .fatal o g
  · rw [hitem, hloop]
    simpa [onlyIf, push, run_eq_eval, eval, Matcher.reject, Reply.andThen, hf] using
      (Mirrors.mismatch [] ((t.backTo f.state.cursor).expecting env.rules "expression") : Mirrors f false _ _)
  · rw [hitem, hloop]
    exact .fatal o g

/-- The body with the loop mirrors the body of the grammar. -/
theorem mirrors_loopBody (n : Nat) (env : Surroundings) (hf : f.first = true) (hts : Terminated f.state.cursor.tokens) :
    Mirrors f false ((Rule.body .orderByClause).run n env f.state) (loopBody (run n) env f) := by
  show Mirrors f false ((Pattern.seq (keyword .ORDER) (.seq (keyword .BY)
    (.seq (.orElse item (.reject "expression")) (.many (.seq (terminal .comma) item))))).run n env f.state) _
  rw [run_seq]
  refine (Mirrors.push _ env f).andThen fun xs t horder => ?_
  obtain ⟨-, ht⟩ := ahead_lt_of_matched (by decide) hts horder
  rw [run_seq]
  refine (Mirrors.push _ env _).andThen fun ys u hby => ?_
  obtain ⟨-, hu⟩ := ahead_lt_of_matched (by decide) ht hby
  exact mirrors_itemLoop n env hf hu

end OrderBy

/-! ### Clauses that differ in their body -/

namespace Matcher

variable {n : Nat} {r : Rule} {env : Surroundings} {s : ParseState}

/-- Whether there is room for a call does not depend on the body of the rule. -/
private theorem call_cases (n : Nat) (env : Surroundings) (s : ParseState) (hr : r.collapses = false) :
    (∃ o, ∀ m, call n r m env s = .fatal o s) ∨
    1 ≤ n ∧ ∀ m, call n r m env s = ((m ⟨env.limits, r :: env.rules, []⟩ s).orBackTo s.cursor).andThen fun xs t =>
      .matched [.ofRule r xs t.cursor.current.span.start] t := by
  cases h : shortage? n 1 { env with left := [] } s with
  | some o =>
    refine .inl ⟨o, fun m => ?_⟩
    simp [call, hr, node, within, ifRoom, h, Reply.andThen]
  | none =>
    refine .inr ⟨le_of_shortage?_eq_none h, fun m => ?_⟩
    simp [call, hr, node, within, ifRoom, h]

end Matcher

namespace Reply

variable {r r' : Reply}

/-- The replies are the same, or neither is a match. -/
def Alike (r r' : Reply) : Prop := r = r' ∨ ∃ s t, r = .mismatch s ∧ r' = .mismatch t

/-- Two parsers that started at one place have come to the same: to a match, with the same trees and the same state; to
no match, and both are back at the place; or to the same overrun, and both are back as well. -/
inductive SameEnd (start : Cursor) : Reply → Reply → Prop
  | matched (xs : List Tree) (s : ParseState) : SameEnd start (.matched xs s) (.matched xs s)
  | mismatch {s t : ParseState} (hs : s.cursor = start) (ht : t.cursor = start) :
      SameEnd start (.mismatch s) (.mismatch t)
  | fatal {s t : ParseState} (o : Overrun) (hs : s.cursor = start) (ht : t.cursor = start) :
      SameEnd start (.fatal o s) (.fatal o t)

private theorem Restores.sameEnd {c : Cursor} (h : r.Restores c) : SameEnd c r r := by
  cases r with
  | matched xs s => exact .matched xs s
  | mismatch s => exact .mismatch h h
  | fatal o s => exact .fatal o h h

/-- Behind bodies that come to alike, rules come to the same. -/
private theorem Alike.sameEnd (h : r.Alike r') (c : Cursor) (build : List Tree → ParseState → List Tree) :
    SameEnd c ((r.orBackTo c).andThen fun xs s => .matched (build xs s) s)
      ((r'.orBackTo c).andThen fun xs s => .matched (build xs s) s) := by
  rcases h with rfl | ⟨s, t, rfl, rfl⟩
  · refine Restores.sameEnd ((restores_orBackTo c r).andThen ?_)
    intro xs s
    trivial
  · exact .mismatch rfl rfl

end Reply

namespace Matcher

variable {a a' b b' : Matcher} {env : Surroundings} {s : ParseState}

private theorem alike_seq (ha : (a env s).Alike (a' env s)) (hb : ∀ t, (b env t).Alike (b' env t)) :
    (seq a b env s).Alike (seq a' b' env s) := by
  unfold seq
  rcases ha with ha | ⟨t, u, ht, hu⟩
  · rw [ha]
    cases a' env s with
    | matched xs t =>
      rcases hb t with hb | ⟨u, v, hu, hv⟩
      · exact .inl (by rw [Reply.andThen, Reply.andThen, hb])
      · exact .inr ⟨u, v, by rw [Reply.andThen, hu]; rfl, by rw [Reply.andThen, hv]; rfl⟩
    | mismatch t => exact .inl rfl
    | fatal o t => exact .inl rfl
  · rw [ht, hu]
    exact .inr ⟨t, u, rfl, rfl⟩

/-- To say what is expected instead changes nothing else. -/
private theorem alike_orElse_reject (a : Matcher) (expected : String) (env : Surroundings) (s : ParseState) :
    (orElse a (reject expected) env s).Alike (a env s) := by
  unfold orElse
  cases a env s with
  | matched xs t => exact .inl rfl
  | mismatch t => exact .inr ⟨_, t, rfl, rfl⟩
  | fatal o t => exact .inl rfl

end Matcher

namespace OrderBy

open Pattern Routine

variable {n : Nat} {env : Surroundings} {s : ParseState}

/-- The clause with the loop is the clause of the grammar, with the failures that it notes. -/
theorem looped_eq_run (n : Nat) (env : Surroundings) (hts : Terminated s.cursor.tokens) :
    looped n env s = (Pattern.call .orderByClause).run n env s := by
  rw [run_call, looped]
  rcases Matcher.call_cases n env s (r := .orderByClause) rfl with ⟨o, hfatal⟩ | ⟨hn, hcall⟩
  · rw [hfatal, hfatal]
  · obtain ⟨k, rfl⟩ : ∃ k, n = k + 1 := ⟨n - 1, by omega⟩
    rw [hcall, hcall, deeper, (mirrors_loopBody k _ rfl hts).matcher_eq]

/-- The body of the grammar and the list differ only in what is noted where there is no item. -/
private theorem alike_listBody (n : Nat) (env : Surroundings) (s : ParseState) :
    ((Rule.body .orderByClause).run n env s).Alike (listBody.run n env s) := by
  show ((Pattern.seq (keyword .ORDER) (.seq (keyword .BY) (.seq (.orElse item (.reject "expression"))
      (.many (.seq (terminal .comma) item))))).run n env s).Alike
    ((Pattern.seq (keyword .ORDER) (.seq (keyword .BY) (.seq item (.many (.seq (terminal .comma) item))))).run n env s)
  simp only [run_seq, run_orElse]
  have hreject : (Pattern.reject "expression").run n = Matcher.reject "expression" := by
    funext env s
    cases n <;> rfl
  rw [hreject]
  refine Matcher.alike_seq (.inl rfl) fun t => Matcher.alike_seq (.inl rfl) fun u => ?_
  exact Matcher.alike_seq (Matcher.alike_orElse_reject _ _ env u) fun _ => .inl rfl

theorem sameEnd_listed (n : Nat) (env : Surroundings) (s : ParseState) :
    Reply.SameEnd s.cursor ((Pattern.call .orderByClause).run n env s) (listed n env s) := by
  rw [run_call, listed]
  rcases Matcher.call_cases n env s (r := .orderByClause) rfl with ⟨o, hfatal⟩ | ⟨hn, hcall⟩
  · rw [hfatal, hfatal]
    exact .fatal o rfl rfl
  · obtain ⟨k, rfl⟩ : ∃ k, n = k + 1 := ⟨n - 1, by omega⟩
    rw [hcall, hcall]
    exact (alike_listBody k _ s).sameEnd s.cursor _

end OrderBy

/-- An `ORDER BY` clause is a plain list with commas.  At every place of every stream, with whatever levels are left and
within whatever rules, the clause that reads its items by a loop with a flag is the clause of the grammar, and it comes
to the same as the rule with the list `ORDER BY item {, item}` for its body: both match, with the same tree and the same
place behind it, or both do not match and are back at the place, or both exceed the same bound at the same token. -/
theorem orderByClause_sameEnd (tokens : List Token) (n : Nat) (env : Surroundings) (s : ParseState)
    (hs : s.cursor.IsIn (Cursor.ofTokens tokens).tokens) :
    OrderBy.looped n env s = (Pattern.call .orderByClause).run n env s ∧
    Reply.SameEnd s.cursor (OrderBy.looped n env s) (OrderBy.listed n env s) := by
  have hts : Terminated s.cursor.tokens := hs.terminated (terminated_ofTokens tokens)
  have hloop := OrderBy.looped_eq_run n env hts
  refine ⟨hloop, ?_⟩
  rw [hloop]
  exact OrderBy.sameEnd_listed n env s

/-- Without an item there is no match.  A comma behind the last item is left where it is.  With three levels there is no
room for an expression. -/
theorem orderByClause_sameEnd_comma :
    let tokens : List Token := [.bare (.keyword .ORDER) "ORDER", .bare (.keyword .BY) "BY", .bare .comma ",",
      .bare (.keyword .ORDER) "ORDER", .bare (.keyword .BY) "BY", .bare .identifier "a", .bare .identifier "desc",
      .bare .comma ",", .bare .identifier "b", .bare .comma ","]
    let start : Cursor := .ofTokens tokens
    let second : Cursor := start.advance.advance.advance
    let env : Surroundings := ⟨.forDepth 8, [], []⟩
    start.IsIn start.tokens ∧ second.IsIn start.tokens ∧
    (∃ t u, OrderBy.looped 8 env ⟨start, none⟩ = .mismatch t ∧ OrderBy.listed 8 env ⟨start, none⟩ = .mismatch u ∧
      t.cursor = start ∧ u.cursor = start) ∧
    (∃ xs t, OrderBy.looped 8 env ⟨second, none⟩ = .matched xs t ∧ OrderBy.listed 8 env ⟨second, none⟩ = .matched xs t ∧
      (Tree.leaves xs).map (·.literal) = ["ORDER", "BY", "a", "desc", ",", "b"] ∧
      t.cursor.tokens = [.bare .comma ",", .endAt default]) ∧
    ∃ o t u, OrderBy.looped 3 env ⟨second, none⟩ = .fatal o t ∧ OrderBy.listed 3 env ⟨second, none⟩ = .fatal o u := by
  intro tokens start second env
  have hstart : start.IsIn start.tokens := Cursor.isIn_ofTokens tokens
  have hsecond : second.IsIn start.tokens := hstart.advance.advance.advance
  refine ⟨hstart, hsecond, ?_, ?_, ?_⟩
  · have hlist : (OrderBy.listed 8 env ⟨start, none⟩).outcome? = some none := by cbv
    obtain ⟨-, hsame⟩ := orderByClause_sameEnd tokens 8 env ⟨start, none⟩ hstart
    generalize OrderBy.looped 8 env ⟨start, none⟩ = r, OrderBy.listed 8 env ⟨start, none⟩ = r' at hsame hlist
    cases hsame with
    | matched | fatal => cases hlist
    | mismatch ht hu => exact ⟨_, _, rfl, rfl, ht, hu⟩
  · have hlist : (OrderBy.listed 8 env ⟨second, none⟩).outcome?.map (·.map fun read =>
        ((Tree.leaves read.1).map (·.literal), read.2)) =
        some (some (["ORDER", "BY", "a", "desc", ",", "b"], [.bare .comma ",", .endAt default])) := by decide +kernel
    obtain ⟨-, hsame⟩ := orderByClause_sameEnd tokens 8 env ⟨second, none⟩ hsecond
    generalize OrderBy.looped 8 env ⟨second, none⟩ = r, OrderBy.listed 8 env ⟨second, none⟩ = r' at hsame hlist
    cases hsame with
    | matched xs t =>
      obtain ⟨hleaves, htokens⟩ : _ ∧ _ := by simpa using hlist
      exact ⟨xs, t, rfl, rfl, hleaves, htokens⟩
    | mismatch | fatal => cases hlist
  · have hlist : (OrderBy.listed 3 env ⟨second, none⟩).outcome? = none := by cbv
    obtain ⟨-, hsame⟩ := orderByClause_sameEnd tokens 3 env ⟨second, none⟩ hsecond
    generalize OrderBy.looped 3 env ⟨second, none⟩ = r, OrderBy.listed 3 env ⟨second, none⟩ = r' at hsame hlist
    cases hsame with
    | matched | mismatch => cases hlist
    | fatal o => exact ⟨o, _, _, rfl, rfl⟩

end PlsqlLint
