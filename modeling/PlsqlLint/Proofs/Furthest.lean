import Mathlib
import PlsqlLint.Proofs.Adequacy

/-!
# The furthest failure

A parse keeps a record of its furthest failures, and `Furthest.note` brings it up to date (`Furthest.note_cases`).  The
record of a list of failures, noted one after the other, sums up those at the furthest place (`Furthest.foldl_note`).

While a pattern is matched, the record does not go back (`Furthest.Kept`), a match does not end in front of the place
where it began, and a mismatch has noted a failure at that place or behind it (`Pattern.run_grows`).  The exception to
the last is `Pattern.fail`, which says nothing; whether a mismatch of a pattern can go back to it alone is seen from the
pattern (`Pattern.explains`).

A syntax error is reported at the place of the record (`Parser.errorIndex`).
-/

namespace PlsqlLint

/-! ### The record of failures -/

namespace Furthest

/-- Where a failure is noted, the record stays as it is, because it is behind the failure or knows the expectation, or
it gets one expectation more, or the failure takes its place. -/
theorem note_cases (o : Option Furthest) (f : Failure) :
    (∃ old, o = some old ∧ (f.index < old.index ∨ old.index = f.index ∧ f.expected ∈ old.expected) ∧
      Furthest.note o f = some old) ∨
    (∃ old, o = some old ∧ old.index = f.index ∧ f.expected ∉ old.expected ∧
      Furthest.note o f = some { old with expected := old.expected ++ [f.expected] }) ∨
    ((∀ old ∈ o, old.index < f.index) ∧ Furthest.note o f = some ⟨f.index, f.token, [f.expected], f.rules⟩) := by
  unfold Furthest.note
  split
  · rename_i old
    split
    · rename_i hlt
      exact .inl ⟨old, rfl, .inl hlt, rfl⟩
    · split
      · rename_i hsame
        split
        · rename_i hknown
          exact .inl ⟨old, rfl, .inr ⟨hsame, hknown⟩, rfl⟩
        · rename_i hnew
          exact .inr (.inl ⟨old, rfl, hsame, hnew, rfl⟩)
      · refine .inr (.inr ⟨?_, rfl⟩)
        rintro _ ⟨⟩
        omega
  · refine .inr (.inr ⟨?_, rfl⟩)
    rintro _ ⟨⟩

/-- The record sums up the failures, of which the earliest comes first: none is behind its place, and of those at its
place it has the token and the rules of the first and all that was expected, each expectation once and the earliest
first. -/
structure SumsUp (fs : List Failure) (r : Furthest) : Prop where
  le : ∀ f ∈ fs, f.index ≤ r.index
  eq : ∃ first later, fs.filter (·.index == r.index) = first :: later ∧
    r = ⟨first.index, first.token, ((first :: later).map (·.expected)).eraseDups, first.rules⟩

variable {r : Furthest} {fs : List Failure}

private theorem eraseDups_concat (es : List String) (e : String) :
    (es ++ [e]).eraseDups = if e ∈ es then es.eraseDups else es.eraseDups ++ [e] := by
  rw [List.eraseDups_append]
  split
  · rename_i h
    have hnone : [e].removeAll es = [] := by simp [List.removeAll, h]
    rw [hnone, List.eraseDups_nil, List.append_nil]
  · rename_i h
    have hone : [e].removeAll es = [e] := by simp [List.removeAll, h]
    rw [hone, List.eraseDups_cons, List.filter_nil, List.eraseDups_nil]

private theorem SumsUp.ofFailure (f : Failure) (h : ∀ g ∈ fs, g.index < f.index) :
    SumsUp (fs ++ [f]) ⟨f.index, f.token, [f.expected], f.rules⟩ := by
  have hearlier : fs.filter (·.index == f.index) = [] := by
    rw [List.filter_eq_nil_iff]
    intro g hg
    have hlt := h g hg
    rw [beq_iff_eq]
    omega
  refine ⟨?_, f, [], ?_, ?_⟩
  · intro g hg
    rcases List.mem_append.1 hg with hg | hg
    · exact (h g hg).le
    · rw [List.mem_singleton.1 hg]
  · rw [List.filter_append, hearlier]
    simp
  · rw [List.map_singleton, List.eraseDups_cons, List.filter_nil, List.eraseDups_nil]

/-- Noting one failure more. -/
theorem SumsUp.note (h : SumsUp fs r) (f : Failure) :
    ∃ r', Furthest.note (some r) f = some r' ∧ SumsUp (fs ++ [f]) r' := by
  have hle : f.index ≤ r.index → ∀ g ∈ fs ++ [f], g.index ≤ r.index := by
    intro hf g hg
    rcases List.mem_append.1 hg with hg | hg
    · exact h.le g hg
    · rwa [List.mem_singleton.1 hg]
  obtain ⟨first, later, hfilter, heq⟩ := h.eq
  have hexpected : r.expected = ((first :: later).map (·.expected)).eraseDups := congrArg Furthest.expected heq
  have hthere : r.index = f.index → (fs ++ [f]).filter (·.index == r.index) = first :: (later ++ [f]) := by
    intro hsame
    rw [List.filter_append, hfilter, List.filter_singleton]
    simp [hsame]
  have hmore : ((first :: (later ++ [f])).map (·.expected)).eraseDups =
      if f.expected ∈ r.expected then r.expected else r.expected ++ [f.expected] := by
    rw [← List.cons_append, List.map_append, List.map_singleton, eraseDups_concat, ← hexpected]
    simp only [hexpected, List.mem_eraseDups]
  rcases note_cases (some r) f with ⟨old, hold, hstays, hnote⟩ | ⟨old, hold, hsame, hnew, hnote⟩ | ⟨hbehind, hnote⟩
  · obtain rfl := Option.some.inj hold
    refine ⟨r, hnote, ?_⟩
    rcases hstays with hlt | ⟨hsame, hknown⟩
    · refine ⟨hle hlt.le, first, later, ?_, heq⟩
      have hother : (f.index == r.index) = false := by
        rw [beq_eq_false_iff_ne]
        omega
      rw [List.filter_append, hfilter, List.filter_singleton, hother]
      simp
    · refine ⟨hle hsame.ge, first, later ++ [f], hthere hsame, ?_⟩
      rw [hmore, if_pos hknown, hexpected]
      exact heq
  · obtain rfl := Option.some.inj hold
    refine ⟨_, hnote, hle hsame.ge, first, later ++ [f], hthere hsame, ?_⟩
    rw [hmore, if_neg hnew, heq]
  · refine ⟨_, hnote, SumsUp.ofFailure f fun g hg => ?_⟩
    exact (h.le g hg).trans_lt (hbehind r rfl)

/-- What is noted of failures, one after the other, sums them up. -/
theorem foldl_note (hne : fs ≠ []) : ∃ r, fs.foldl Furthest.note none = some r ∧ SumsUp fs r := by
  induction fs using List.reverseRecOn with
  | nil => exact absurd rfl hne
  | append_singleton fs f ih =>
    rw [List.foldl_append]
    by_cases hfs : fs = []
    · subst hfs
      exact ⟨_, rfl, SumsUp.ofFailure f (List.forall_mem_nil _)⟩
    · obtain ⟨r, hr, hsum⟩ := ih hfs
      rw [hr]
      exact hsum.note f

/-- What has been noted is kept: the record is further on, or it is at the same place and has the same expectations and
maybe more. -/
def Kept (o o' : Option Furthest) : Prop :=
  ∀ f ∈ o, ∃ g ∈ o', f.index < g.index ∨ ∃ more, g = { f with expected := f.expected ++ more }

variable {o o' o'' : Option Furthest}

theorem Kept.refl (o : Option Furthest) : Kept o o := fun f hf => ⟨f, hf, .inr ⟨[], by rw [List.append_nil]⟩⟩

theorem Kept.trans (h : Kept o o') (h' : Kept o' o'') : Kept o o'' := by
  intro f hf
  obtain ⟨g, hg, hfg⟩ := h f hf
  obtain ⟨x, hx, hgx⟩ := h' g hg
  refine ⟨x, hx, ?_⟩
  rcases hfg with hlt | ⟨more, rfl⟩ <;> rcases hgx with hlt' | ⟨more', rfl⟩
  · exact .inl (hlt.trans hlt')
  · exact .inl hlt
  · exact .inl hlt'
  · exact .inr ⟨more ++ more', by rw [← List.append_assoc]⟩

theorem Kept.index_le (h : Kept o o') {f : Furthest} (hf : f ∈ o) : ∃ g ∈ o', f.index ≤ g.index := by
  obtain ⟨g, hg, hlt | ⟨more, rfl⟩⟩ := h f hf
  · exact ⟨g, hg, hlt.le⟩
  · exact ⟨_, hg, le_rfl⟩

theorem kept_note (o : Option Furthest) (f : Failure) : Kept o (Furthest.note o f) := by
  rcases note_cases o f with ⟨old, rfl, -, hnote⟩ | ⟨old, rfl, -, -, hnote⟩ | ⟨hbehind, hnote⟩
  · rw [hnote]
    exact Kept.refl _
  · rw [hnote]
    rintro _ ⟨⟩
    exact ⟨_, rfl, .inr ⟨_, rfl⟩⟩
  · rw [hnote]
    intro old hold
    exact ⟨_, rfl, .inl (hbehind old hold)⟩

/-- The record is at the place of a failure that is noted, or behind it. -/
theorem exists_note (o : Option Furthest) (f : Failure) : ∃ g ∈ Furthest.note o f, f.index ≤ g.index := by
  rcases note_cases o f with ⟨old, -, hstays, hnote⟩ | ⟨old, -, hsame, -, hnote⟩ | ⟨-, hnote⟩
  · refine ⟨old, hnote, ?_⟩
    rcases hstays with hlt | ⟨hsame, -⟩
    · exact hlt.le
    · exact hsame.ge
  · exact ⟨_, hnote, hsame.ge⟩
  · exact ⟨_, hnote, le_rfl⟩

/-- The record is at the place of one of the failures that have been noted, and has the token there. -/
theorem forall_mem_note {P : Nat → Token → Prop} {f : Failure} (ho : ∀ g ∈ o, P g.index g.token)
    (hf : P f.index f.token) : ∀ g ∈ Furthest.note o f, P g.index g.token := by
  rcases note_cases o f with ⟨old, rfl, -, hnote⟩ | ⟨old, rfl, -, -, hnote⟩ | ⟨-, hnote⟩
  · rw [hnote]
    exact ho
  · rw [hnote]
    rintro g ⟨⟩
    exact ho old rfl
  · rw [hnote]
    rintro g ⟨⟩
    exact hf

end Furthest

namespace ParseState

variable {s t : ParseState} {j k : Nat}

/-- A failure has been noted at the place or behind it. -/
def Noted (s : ParseState) (k : Nat) : Prop := ∃ f ∈ s.furthest, k ≤ f.index

theorem Noted.mono (h : s.Noted k) (hjk : j ≤ k) : s.Noted j := by
  obtain ⟨f, hf, hle⟩ := h
  exact ⟨f, hf, hjk.trans hle⟩

theorem Noted.kept (h : s.Noted k) (hf : Furthest.Kept s.furthest t.furthest) : t.Noted k := by
  obtain ⟨f, hmem, hle⟩ := h
  obtain ⟨g, hg, hfg⟩ := hf.index_le hmem
  exact ⟨g, hg, hle.trans hfg⟩

theorem kept_expecting (s : ParseState) (rules : List Rule) (e : String) :
    Furthest.Kept s.furthest (s.expecting rules e).furthest := Furthest.kept_note _ _

theorem noted_expecting (s : ParseState) (rules : List Rule) (e : String) :
    (s.expecting rules e).Noted s.cursor.index := Furthest.exists_note _ _

end ParseState

/-! ### What a reply adds to a state -/

/-- The reply keeps what the state has noted.  A match ends at the place of the state or behind it; a mismatch, if it is
`explained`, has noted a failure there. -/
inductive Reply.Grown (s : ParseState) (explained : Bool) : Reply → Prop
  | matched {xs t} (hf : Furthest.Kept s.furthest t.furthest) (hi : s.cursor.index ≤ t.cursor.index) :
      Grown s explained (.matched xs t)
  | mismatch {t} (hf : Furthest.Kept s.furthest t.furthest) (he : explained = true → t.Noted s.cursor.index) :
      Grown s explained (.mismatch t)
  | fatal {o t} (hf : Furthest.Kept s.furthest t.furthest) : Grown s explained (.fatal o t)

namespace Reply.Grown

variable {r : Reply} {s t : ParseState} {a b : Bool}

theorem mono (h : r.Grown s a) (hab : b = true → a = true) : r.Grown s b := by
  cases h with
  | matched hf hi => exact .matched hf hi
  | mismatch hf he => exact .mismatch hf (fun hb => he (hab hb))
  | fatal hf => exact .fatal hf

/-- What has grown from a later state has grown from an earlier one. -/
theorem trans (h : r.Grown t b) (hf : Furthest.Kept s.furthest t.furthest) (hi : s.cursor.index ≤ t.cursor.index) :
    r.Grown s b := by
  cases h with
  | matched hf' hi' => exact .matched (hf.trans hf') (hi.trans hi')
  | mismatch hf' he => exact .mismatch (hf.trans hf') fun hb => (he hb).mono hi
  | fatal hf' => exact .fatal (hf.trans hf')

theorem kept (h : r.Grown s b) : Furthest.Kept s.furthest r.state.furthest := by
  cases h with
  | matched hf _ => exact hf
  | mismatch hf _ => exact hf
  | fatal hf => exact hf

theorem after (h : r.Grown s b) (xs : List Tree) : (r.after xs).Grown s b := by
  cases h with
  | matched hf hi => exact .matched hf hi
  | mismatch hf he => exact .mismatch hf he
  | fatal hf => exact .fatal hf

private theorem orBackTo (h : r.Grown s b) (c : Cursor) : (r.orBackTo c).Grown s b := by
  cases h with
  | matched hf hi => exact .matched hf hi
  | mismatch hf he => exact .mismatch hf he
  | fatal hf => exact .fatal hf

private theorem andThen (h : r.Grown s a) {next : List Tree → ParseState → Reply} (hn : ∀ xs t, (next xs t).Grown t b) :
    (r.andThen next).Grown s (a && b) := by
  cases h with
  | matched hf hi => exact ((hn _ _).trans hf hi).mono (by simp)
  | mismatch hf he => exact .mismatch hf (fun hab => he (Bool.and_eq_true_iff.1 hab).1)
  | fatal hf => exact .fatal hf

/-- Going on behind a match in a way that does not fail. -/
private theorem andThen_of_matched (h : r.Grown s a) {next : List Tree → ParseState → Reply}
    (hn : ∀ xs t, (next xs t).Grown t true) : (r.andThen next).Grown s a := by
  simpa using h.andThen hn

theorem refl (s : ParseState) (xs : List Tree) : (Reply.matched xs s).Grown s b := .matched (.refl _) le_rfl

end Reply.Grown

/-! ### One matcher after the other -/

theorem Cursor.index_le_advance (c : Cursor) : c.index ≤ c.advance.index := by
  unfold advance
  split
  · exact le_rfl
  · split
    · exact le_rfl
    · exact Nat.le_succ _

/-- Whatever the matcher replies has grown from the state it was given. -/
def Matcher.Grows (explained : Bool) (m : Matcher) : Prop := ∀ env s, (m env s).Grown s explained

namespace Matcher.Grows

variable {a b : Bool} {ma mb : Matcher} {n : Nat}

private theorem advance : Grows true Matcher.advance :=
  fun _ s => .matched (.refl _) s.cursor.index_le_advance

theorem reject (e : String) : Grows true (Matcher.reject e) :=
  fun env s => .mismatch (s.kept_expecting env.rules e) fun _ => s.noted_expecting env.rules e

private theorem take (k : TokenClass) (e : String) : Grows true (Matcher.take k e) := by
  intro env s
  unfold Matcher.take
  split
  · exact advance env s
  · exact reject e env s

private theorem seq (ha : Grows a ma) (hb : Grows b mb) : Grows (a && b) (Matcher.seq ma mb) :=
  fun env s => (ha env s).andThen fun xs t => (hb env t).after xs

/-- It is enough that one of two alternatives explains its mismatch: what the first has noted is kept. -/
private theorem orElse (ha : Grows a ma) (hb : Grows b mb) : Grows (a || b) (Matcher.orElse ma mb) := by
  intro env s
  have h := ha env s
  unfold Matcher.orElse
  generalize ma env s = r at h
  cases h with
  | matched hf hi => exact .matched hf hi
  | fatal hf => exact .fatal hf
  | @mismatch t hf he =>
    have h' := hb env (t.backTo s.cursor)
    dsimp only
    generalize mb env (t.backTo s.cursor) = r' at h'
    cases h' with
    | matched hf' hi' => exact .matched (hf.trans hf') hi'
    | fatal hf' => exact .fatal (hf.trans hf')
    | mismatch hf' he' =>
      refine .mismatch (hf.trans hf') ?_
      intro hab
      rcases Bool.or_eq_true_iff.1 hab with h1 | h2
      · exact (he h1).kept hf'
      · exact he' h2

/-- A repetition matches whatever its item does. -/
theorem many (ha : Grows a ma) : Grows true (Matcher.many ma) := by
  intro env s
  induction s using ParseState.ahead_induction with
  | step s ih =>
  have h := ha env s
  rw [Matcher.many]
  generalize ma env s = r at h
  cases h with
  | @matched xs t hf hi =>
    dsimp only
    split
    · rename_i hlt
      exact ((ih t hlt).after xs).trans hf hi
    · exact .matched hf hi
  | mismatch hf he => exact .matched hf le_rfl
  | fatal hf => exact .fatal hf

private theorem ifRoom (wanted : Nat) (ha : wanted ≤ n → Grows a ma) : Grows a (Matcher.ifRoom n wanted ma) := by
  intro env s
  unfold Matcher.ifRoom
  split
  · exact .fatal (.refl _)
  · rename_i hroom
    exact ha (le_of_shortage?_eq_none hroom) env s

private theorem within (r : Rule) (ha : 1 ≤ n → Grows a ma) : Grows a (Matcher.within n r ma) :=
  ifRoom 1 fun hn env s => (ha hn { env with rules := r :: env.rules } s).orBackTo s.cursor

private theorem node (r : Rule) (ha : Grows a ma) : Grows a (Matcher.node r ma) :=
  fun env s => (ha env s).andThen_of_matched fun _ t => .refl t _

private theorem collapse (r : Rule) (ha : Grows a ma) : Grows a (Matcher.collapse r ma) := by
  intro env s
  apply (ha env s).andThen_of_matched
  intro xs t
  split
  · exact .refl t _
  · exact .refl t _

private theorem call (r : Rule) (ha : 1 ≤ n → Grows a ma) : Grows a (Matcher.call n r ma) := by
  intro env s
  unfold Matcher.call
  split
  · exact collapse r (within r ha) _ s
  · exact node r (within r ha) _ s

private theorem only (r : Rule) (e : String) (ha : Grows a ma) : Grows a (Matcher.only r e ma) := by
  intro env s
  apply (ha env s).andThen_of_matched
  intro xs t
  split
  · exact .refl t _
  · exact reject e env t

private theorem last (ha : Grows a ma) : Grows a (Matcher.last ma) :=
  fun env s => (ha env s).andThen_of_matched fun _ t => .refl t _

private theorem onto (ha : Grows a ma) (hb : Grows b mb) : Grows (a && b) (Matcher.onto ma mb) :=
  fun env s => (ha env s).andThen fun xs t => hb { env with left := xs } t

theorem links (ahead : Lookahead) (hb : Grows b mb) (env : Surroundings) (count : Nat) (xs : List Tree)
    (s : ParseState) : (Matcher.links n ahead mb env count xs s).Grown s b := by
  induction s using ParseState.ahead_induction generalizing xs count with
  | step s ih =>
  rw [Matcher.links_eq]
  split
  · have hlink := ifRoom (n := n) count (fun _ => hb) { env with left := xs } s
    refine (hlink.andThen (b := b) ?_).mono (by simp)
    intro ys t
    split
    · rename_i hlt
      exact ih t hlt (count + 1) ys
    · exact .refl t ys
  · exact .refl s xs

private theorem chain (ahead : Lookahead) (ha : Grows a ma) (hb : Grows b mb) :
    Grows (a && b) (Matcher.chain n ma ahead mb) :=
  fun env s => (ha env s).andThen fun xs t => links ahead hb env 1 xs t

private theorem closingLabel : Grows true Matcher.closingLabel := by
  intro env s
  unfold Matcher.closingLabel
  split
  · split
    · split
      · exact advance env s
      · exact reject _ env s
    · exact reject _ env s
  · exact .refl s _

end Matcher.Grows

/-! ### Whole patterns -/

/-- The rules with a body of their own.  The nodes of the others are built around an operand, and they are not
called. -/
def Rule.hasBody : Rule → Bool
  | .comparisonExpression | .isNullExpression | .likeExpression | .betweenExpression | .inExpression
  | .memberExpression | .methodCall | .attributeExpression => false
  | _ => true

/-- A mismatch of the pattern is noted. -/
def Pattern.explains : Pattern → Bool
  | .fail => false
  | .empty | .take _ _ | .advance | .reject _ | .room _ | .many _ | .left | .closingLabel => true
  | .orElse a b => a.explains || b.explains
  | .seq a b | .ifNext _ a b | .onto a b | .chain a _ b => a.explains && b.explains
  | .within _ a | .node _ a | .collapse _ a | .only _ _ a | .last a => a.explains
  | .call r => r.hasBody

private theorem Rule.explains_body {r : Rule} (h : r.hasBody = true) : r.body.explains = true := by
  cases r <;> first | rfl | cases h

theorem Rule.explains_root (r : Rule) : r.root.explains = true := by
  cases r <;> rfl

/-- Matching a pattern keeps what has been noted, does not go back, and notes why it does not match. -/
theorem Pattern.run_grows (n : Nat) (p : Pattern) : Matcher.Grows p.explains (p.run n) := by
  induction n using Nat.strongRecOn generalizing p with
  | ind n ihn =>
  have hdeep : ∀ q, 1 ≤ n → Matcher.Grows q.explains (deeper n q) := by
    intro q hn
    obtain ⟨k, rfl⟩ : ∃ k, n = k + 1 := ⟨n - 1, by omega⟩
    exact ihn k (by omega) q
  induction p with
  | empty | left =>
    rw [run_eq_eval]
    exact fun _ s => .refl s _
  | take k e =>
    rw [run_eq_eval]
    exact Matcher.Grows.take k e
  | advance =>
    rw [run_eq_eval]
    exact Matcher.Grows.advance
  | fail =>
    rw [run_eq_eval]
    exact fun _ s => .mismatch (.refl _) (by simp [explains])
  | reject e =>
    rw [run_eq_eval]
    exact Matcher.Grows.reject e
  | room wanted =>
    rw [run_eq_eval]
    exact Matcher.Grows.ifRoom wanted (fun _ _ s => .refl s _)
  | seq a b iha ihb => rw [run_seq]; exact iha.seq ihb
  | orElse a b iha ihb => rw [run_orElse]; exact iha.orElse ihb
  | many a iha => rw [run_many]; exact iha.many
  | ifNext ahead a b iha ihb =>
    intro env s
    rw [run_ifNext]
    split
    · exact (iha env s).mono (fun h => (Bool.and_eq_true_iff.1 h).1)
    · exact (ihb env s).mono (fun h => (Bool.and_eq_true_iff.1 h).2)
  | within r a _ => rw [run_within]; exact Matcher.Grows.within r (hdeep a)
  | node r a iha => rw [run_node]; exact iha.node r
  | collapse r a iha => rw [run_collapse]; exact iha.collapse r
  | call r =>
    rw [run_call]
    intro env s
    exact (Matcher.Grows.call r (hdeep r.body) env s).mono Rule.explains_body
  | only r e a iha => rw [run_only]; exact iha.only r e
  | last a iha => rw [run_last]; exact iha.last
  | onto a b iha ihb => rw [run_onto]; exact iha.onto ihb
  | chain a ahead b iha ihb => rw [run_chain]; exact iha.chain ahead ihb
  | closingLabel =>
    rw [run_eq_eval]
    exact Matcher.Grows.closingLabel

/-! ### Where a parse fails -/

namespace Parser

/-- The record on which a parse reports: behind a match that does not reach it, the end of the input was expected. -/
def furthest : Reply → Option Furthest
  | .matched _ s => if s.cursor.atEnd then s.furthest else (s.expecting [] (Terminal.describe .endOfInput)).furthest
  | .mismatch s | .fatal _ s => s.furthest

/-- The place in the stream at which a syntax error is reported. -/
def errorIndex (p : Parser) (rule : Rule) : Nat :=
  let reply := rule.root.matchAt p.limits p.start
  ((furthest reply).map (·.index)).getD reply.state.cursor.index

end Parser

end PlsqlLint
