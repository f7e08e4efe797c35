import PlsqlLint.Proofs.Completeness
import PlsqlLint.Proofs.Spelling
import PlsqlLint.Proofs.Truncation

/-!
# Ordered choices are unambiguous

Wherever a statement, a declaration or the tail of a comparison is tried, at most one of the alternatives matches, with
one exception: `CONTINUE;` and `RAISE;` can be read as calls as well (`choices_unambiguous`).

Most alternatives differ in their first two tokens (`Pattern.parted`), if need be in those behind a label.  Four kinds
of statements may start with the same name.  What follows the word `CONTINUE` or `RAISE` in its own statement never goes
on with a reference, and so an assignment or a call in the same place has a reference of that word alone
(`Reads.behind_word`).  The declarations of a variable and a cursor can agree in two tokens, but not in the third.
-/

namespace PlsqlLint

open Pattern

/-! ### Telling patterns apart by their first tokens -/

/-- No stream fits both: any two lists of classes have two at the same place without a common token. -/
def Lookahead.parted (a b : Lookahead) : Bool :=
  a.all fun ks => b.all fun js => (ks.zip js).any fun k => k.1.apart k.2

private theorem Fit.false_of_apart {ks js : List TokenClass} {ts : List Token} (hk : Fit ks ts) (hj : Fit js ts)
    (h : ((ks.zip js).any fun k => k.1.apart k.2) = true) : False := by
  induction ks generalizing js ts with
  | nil => cases h
  | cons k ks ih =>
    cases js with
    | nil => cases h
    | cons j js =>
      simp only [List.zip_cons_cons, List.any_cons, Bool.or_eq_true] at h
      match ts with
      | [] => cases hk
      | t :: ts =>
        rcases h with h | h
        · have hnot := TokenClass.not_accepts_of_apart h hj.head
          rw [hk.head] at hnot
          cases hnot
        · match ts with
          | [] =>
            -- the last token stands for all that would follow it
            rw [Fit.last_iff, List.forall_mem_cons] at hk hj
            exact ih (Fit.last_iff.2 hk.2) (Fit.last_iff.2 hj.2) h
          | u :: us =>
            rw [Fit.cons_iff (by simp)] at hk hj
            exact ih hk.2 hj.2 h

private theorem Lookahead.false_of_parted {a b : Lookahead} {ts : List Token} (h : a.parted b = true)
    (ha : a.holds ts = true) (hb : b.holds ts = true) : False := by
  obtain ⟨ks, hks, hk⟩ := Lookahead.holds_iff.1 ha
  obtain ⟨js, hjs, hj⟩ := Lookahead.holds_iff.1 hb
  exact hk.false_of_apart hj (List.all_eq_true.1 (List.all_eq_true.1 h ks hks) js hjs)

/-- No stream matches both patterns, as its first two tokens show. -/
def Pattern.parted (p q : Pattern) : Bool := p.passes && q.passes && (p.lead [[]]).parted (q.lead [[]])

/-- No stream matches both rules, be it that they differ behind a label only. -/
def Rule.parted (a b : Rule) : Bool :=
  a.body.parted b.body || a.body.unlabelled.any fun p => b.body.unlabelled.any p.parted

namespace Reads

variable {m n : Nat} {p q : Pattern} {l l' : List Tree} {ts us vs : List Token} {xs ys : List Tree}

private theorem lead_holds (h : Reads n p l ts (some (xs, us))) (hp : p.passes = true) (hts : Terminated ts) :
    (p.lead [[]]).holds ts = true := by
  obtain ⟨w, hw⟩ := h.consumed hp hts
  exact h.leads rfl hp hts (Lookahead.holds_nil (hw.terminated hts).ne_nil)

private theorem false_of_parted (h : Reads m p l ts (some (xs, us))) (h' : Reads n q l' ts (some (ys, vs)))
    (hts : Terminated ts) (hpq : p.parted q = true) : False := by
  simp only [Pattern.parted, Bool.and_eq_true] at hpq
  exact Lookahead.false_of_parted hpq.2 (h.lead_holds hpq.1.1 hts) (h'.lead_holds hpq.1.2 hts)

private theorem false_of_parted_rules {a b : Rule} (h : Reads m (Pattern.call a) l ts (some (xs, us)))
    (h' : Reads n (Pattern.call b) l' ts (some (ys, vs))) (hts : Terminated ts) (hab : a.parted b = true) : False := by
  cases h with
  | call ha _ =>
  cases h' with
  | call hb _ =>
  simp only [Rule.parted, Bool.or_eq_true, Option.any_eq_true] at hab
  rcases hab with hab | ⟨p, hp, q, hq, hpq⟩
  · exact ha.false_of_parted hb hts hab
  · -- the label is the same for both
    obtain ⟨zs, ws, l₁, _, hlabel, hp⟩ := ha.behind_label hp
    obtain ⟨zs', ws', l₂, _, hlabel', hq⟩ := hb.behind_label hq
    obtain ⟨rfl, rfl⟩ : zs = zs' ∧ ws = ws' := by
      simpa using hlabel.unique hlabel' hts.ne_nil
    obtain ⟨w, hw⟩ := hlabel.consumed rfl hts
    exact hp.false_of_parted hq (hw.terminated hts) hpq

end Reads

/-! ### Statements that start with a name -/

/-- The words that are statements by themselves, but for the semicolon, although they may be names. -/
def Rule.loneWord? : Rule → Option String
  | .continueStatement => some "CONTINUE"
  | .raiseStatement => some "RAISE"
  | _ => none

private theorem parted_statements : statementRules.Pairwise fun a b =>
    a.parted b = true ∨ a.loneWord?.isSome = true ∧ (b = .assignmentStatement ∨ b = .callStatement) ∨
      a = .assignmentStatement ∧ b = .callStatement := by
  decide

/-- What may follow the word in its statement. -/
def Rule.loneTail : Rule → Pattern
  | .continueStatement => exitTail
  | .raiseStatement => sequence [opt reference, terminal .semicolon]
  | _ => .fail

namespace Rule

variable {a : Rule} {word : String}

private theorem body_of_loneWord? (h : a.loneWord? = some word) : a.body = .seq (.word word) a.loneTail := by
  cases a <;> cases h <;> rfl

/-- What follows the word goes on neither with a reference nor, behind one, with an assignment. -/
private theorem parted_loneTail (h : a.loneWord? = some word) :
    a.loneTail.passes = true ∧ (a.loneTail.lead [[]]).parted linkAhead = true ∧
      a.loneTail.parted (sequence [terminal .assign, expression, terminal .semicolon]) = true := by
  cases a <;> cases h <;> decide

/-- In front of a semicolon, what follows the word is the semicolon alone. -/
private theorem reads_loneTail (h : a.loneWord? = some word) {stop : Token} (hstop : stop.terminal = .semicolon)
    {ts : List Token} (hts : ts ≠ []) : Reads 1 a.loneTail [] (stop :: ts) (some ([.leaf stop], ts)) := by
  have hsemicolon : Reads 1 (terminal .semicolon) [] (stop :: ts) (some ([.leaf stop], ts)) :=
    Reads.terminal hstop (by decide) hts
  have hname : TokenClass.name.accepts stop = false := by simp [TokenClass.accepts, hstop, Terminal.isName]
  cases a with
  | continueStatement =>
    have hwhen : Lookahead.holds [[.oneOf [.keyword .WHEN]]] (stop :: ts) = false := by simp [hstop]
    exact .seq (.nextNo (by simpa using hname) .empty) (.seq (.nextNo hwhen .empty) hsemicolon rfl) rfl
  | raiseStatement =>
    have hcolon : Lookahead.holds [[.oneOf [.colon]]] (stop :: ts) = false := by simp [hstop]
    have hnone : Reads 1 reference [] (stop :: ts) none := .chainNot (.nextNo hcolon (.callNot (.takeNot hname)))
    exact .seq (.orSecond hnone .empty) hsemicolon rfl
  | _ => cases h

end Rule

namespace Reads

variable {m n : Nat} {l l' : List Tree} {t : Token} {ts us vs : List Token} {xs ys : List Tree} {a : Rule}
  {word : String}

/-- A name that nothing goes on with is a reference. -/
private theorem reference_of_name (ht : t.terminal.isName = true) (hts : ts ≠ []) (hlink : linkAhead.holds ts = false) :
    ∃ xs, Reads 1 reference l (t :: ts) (some (xs, ts)) := by
  have hname : TokenClass.name.accepts t = true := ht
  have hcolon : Lookahead.holds [[.oneOf [.colon]]] (t :: ts) = false := by
    rw [Lookahead.holds_one]
    exact TokenClass.not_accepts_of_apart (k := .name) rfl hname
  have hread : Reads 0 identifier [] (t :: ts) (some ([.leaf t], ts)) :=
    token hname (TokenClass.ne_endOfInput (k := .name) rfl hname) hts
  exact ⟨_, .chain (.nextNo hcolon (.call hread rfl)) (.linksStop hlink)⟩

/-- A statement of such a word is the word and what follows it there. -/
private theorem lone_tail (ha : a.loneWord? = some word) (h : Reads n (Pattern.call a) l ts (some (xs, us)))
    (hts : Terminated ts) :
    ∃ t rest zs, t.isWord word = true ∧ ts = t :: rest ∧ Terminated rest ∧
      Reads n a.loneTail [] rest (some (zs, us)) := by
  cases h with
  | call hbody _ =>
  rw [Rule.body_of_loneWord? ha] at hbody
  cases hbody with
  | seq hword htail _ =>
  obtain ⟨t, ht, hw⟩ := hword.taken rfl hts
  exact ⟨t, _, _, ht, hw.split, hw.terminated hts, htail.mono (Nat.le_succ _)⟩

/-- Where a statement with a reference at its start is read in the same place, the reference is the word alone. -/
theorem behind_word {q : Pattern} (ha : a.loneWord? = some word) (ht : t.isWord word = true) (hts : Terminated ts)
    (htail : Reads m a.loneTail [] ts (some (xs, us)))
    (h : Reads n (Pattern.seq reference q) [] (t :: ts) (some (ys, vs))) : ∃ zs, Reads n q [] ts (some (zs, vs)) := by
  obtain ⟨hpasses, hlink, -⟩ := Rule.parted_loneTail ha
  have hnot : linkAhead.holds ts = false := by
    rw [← Bool.not_eq_true]
    exact Lookahead.false_of_parted hlink (htail.lead_holds hpasses hts)
  have hname : t.terminal.isName = true := by
    rw [Token.identifier_of_isWord ht]
    rfl
  obtain ⟨zs, hone⟩ := reference_of_name (l := []) hname hts.ne_nil hnot
  cases h with
  | seq href hq _ =>
    cases href.unique hone (by simp)
    exact ⟨_, hq⟩

/-- No assignment starts with such a word. -/
private theorem false_of_assignment (ha : a.loneWord? = some word) (h : Reads m (Pattern.call a) l ts (some (xs, us)))
    (h' : Reads n (Pattern.call .assignmentStatement) l' ts (some (ys, vs))) (hts : Terminated ts) : False := by
  obtain ⟨t, rest, zs, ht, rfl, hrest, htail⟩ := h.lone_tail ha hts
  cases h' with
  | call hbody _ =>
  obtain ⟨zs', hassign⟩ := behind_word ha ht hrest htail hbody
  exact htail.false_of_parted hassign hrest (Rule.parted_loneTail ha).2.2

/-- A call that starts with such a word is the word and a semicolon, and so is the other statement. -/
private theorem lone_of_call (ha : a.loneWord? = some word) (h : Reads m (Pattern.call a) l ts (some (xs, us)))
    (h' : Reads n (Pattern.call .callStatement) l' ts (some (ys, vs))) (hts : Terminated ts) :
    ∃ t stop, t.isWord word = true ∧ stop.terminal = .semicolon ∧ ts = t :: stop :: us ∧ us = vs := by
  obtain ⟨t, rest, zs, ht, rfl, hrest, htail⟩ := h.lone_tail ha hts
  cases h' with
  | call hbody _ =>
  obtain ⟨zs', hsemicolon⟩ := behind_word ha ht hrest htail hbody
  obtain ⟨stop, hstop, hw⟩ := hsemicolon.taken rfl hrest
  have hstop : stop.terminal = .semicolon := by simpa using hstop
  obtain rfl : rest = stop :: vs := hw.split
  have hlone := Rule.reads_loneTail ha hstop (hw.terminated hrest).ne_nil
  cases htail.unique hlone (by simp)
  exact ⟨t, stop, ht, hstop, rfl, rfl⟩

/-- A word in front of a semicolon is a call. -/
private theorem call_of_lone {stop : Token} (ht : t.isWord word = true) (hstop : stop.terminal = .semicolon)
    (hts : ts ≠ []) :
    ∃ xs, Reads 2 (Pattern.call .callStatement) l (t :: stop :: ts) (some (xs, ts)) := by
  have hnot : linkAhead.holds (stop :: ts) = false := by
    have hsemicolon : Lookahead.holds [[.oneOf [.semicolon]]] (stop :: ts) = true := by simp [hstop]
    rw [← Bool.not_eq_true]
    exact Lookahead.false_of_parted (by decide) hsemicolon
  have hname : t.terminal.isName = true := by
    rw [Token.identifier_of_isWord ht]
    rfl
  obtain ⟨xs, href⟩ := reference_of_name (l := []) hname (List.cons_ne_nil stop ts) hnot
  exact ⟨_, .call (.seq href (terminal hstop (by decide) hts) rfl) rfl⟩

/-- An assignment and a call differ behind the reference. -/
private theorem false_of_assignment_call (h : Reads m (Pattern.call .assignmentStatement) l ts (some (xs, us)))
    (h' : Reads n (Pattern.call .callStatement) l' ts (some (ys, vs))) (hts : Terminated ts) : False := by
  cases h with
  | call ha _ =>
  cases h' with
  | call hb _ =>
  cases ha with
  | seq href hassign _ =>
  cases hb with
  | seq href' hstop _ =>
  cases href.unique href' hts.ne_nil
  obtain ⟨w, hw⟩ := href.consumed rfl hts
  exact hassign.false_of_parted hstop (hw.terminated hts) (by decide)

/-! ### Declarations -/

/-- A type whose name is followed by `IS` is that name. -/
private theorem datatype_of_name (ht : TokenClass.name.accepts t = true) {u : Token} (hu : u.terminal = .keyword .IS) :
    ∃ xs, Reads 1 (Pattern.call .datatype) l (t :: u :: ts) (some (xs, u :: ts)) := by
  have hdot : Reads 0 (Pattern.terminal .dot) [] (u :: ts) none := terminalNot (by simp [hu])
  have hname : Reads 0 identifier [] (t :: u :: ts) (some ([.leaf t], u :: ts)) :=
    token ht (TokenClass.ne_endOfInput (k := .name) rfl ht) (by simp)
  have hpercent : Lookahead.holds [[.oneOf [.percent]]] (u :: ts) = false := by simp [hu]
  have hparen : Lookahead.holds [[.oneOf [.leftParen]]] (u :: ts) = false := by simp [hu]
  have hdotted : Reads 0 dottedName [] (t :: u :: ts) _ := .seq hname (.manyStop (.seqFirst hdot)) rfl
  exact ⟨_, .call (.seq hdotted (.nextNo hpercent (.nextNo hparen .empty)) rfl) rfl⟩

/-- What follows the name of a cursor does not go on with the declaration of a variable, whether the variable is called
`CURSOR` or is a constant of that name. -/
private theorem false_of_cursor_variable (h : Reads m (Pattern.call .cursorDeclaration) l ts (some (xs, us)))
    (h' : Reads n (Pattern.call .variableDeclaration) l' ts (some (ys, vs))) (hts : Terminated ts) : False := by
  cases h with
  | call ha _ =>
  cases ha with
  | seq hcursor ha _ =>
  cases ha with
  | seq hname his _ =>
  obtain ⟨c, -, hwc⟩ := hcursor.taken rfl hts
  have hrest := hwc.terminated hts
  obtain ⟨x, hx, hwx⟩ := hname.taken rfl hrest
  have hbehind := hwx.terminated hrest
  cases h' with
  | call hb _ =>
  cases hb with
  | seq hvariable hb _ =>
  cases hb with
  | seq hconstant hb _ =>
  cases hb with
  | seq hdatatype hmore _ =>
  obtain ⟨c', -, hwc'⟩ := hvariable.taken rfl hts
  obtain ⟨rfl, rfl⟩ := List.cons.inj (hwc.split.symm.trans hwc'.split)
  cases hconstant with
  | nextYes _ hword =>
    -- the name of the cursor is `CONSTANT`, and `IS` does not start a type
    obtain ⟨x', -, hwx'⟩ := hword.taken rfl hrest
    obtain ⟨rfl, rfl⟩ := List.cons.inj (hwx.split.symm.trans hwx'.split)
    exact his.false_of_parted hdatatype hbehind (by decide)
  | nextNo _ hempty =>
    -- the name of the cursor is the type, and `IS` does not follow a type
    cases hempty
    have hread := his
    cases hread with
    | seq hword _ _ =>
    obtain ⟨u, hu, hwu⟩ := hword.taken rfl hbehind
    obtain rfl := hwu.split
    obtain rfl := hwx.split
    obtain ⟨zs, htype⟩ := datatype_of_name hx (by simpa using hu)
    cases hdatatype.unique htype (by simp)
    exact his.false_of_parted hmore hbehind (by decide)

end Reads

private theorem parted_declarations : declarationRules.Pairwise fun a b =>
    a.parted b = true ∨ a = .cursorDeclaration ∧ b = .variableDeclaration := by
  decide

private theorem parted_tails : comparisonTails.Pairwise fun a b =>
    (comparisonWith a.1 a.2).parted (comparisonWith b.1 b.2) = true := by
  decide

/-! ### Every place of a stream -/

theorem Cursor.IsIn.terminated {c : Cursor} {ts : List Token} (h : c.IsIn ts) (hts : Terminated ts) :
    Terminated c.tokens := by
  obtain ⟨e, he, hend⟩ := hts
  refine ⟨e, ?_, hend⟩
  have hlt : ¬ ts.length ≤ c.index := by
    intro hle
    rw [Cursor.IsIn, List.drop_eq_nil_of_le hle] at h
    cases h
  rw [← h, List.getLast?_drop, if_neg hlt, he]

/-- From the one place to the other the stream is the word and a semicolon. -/
def ReadsLone (word : String) (s t : ParseState) : Prop :=
  ∃ w stop, w.isWord word = true ∧ stop.terminal = .semicolon ∧ s.cursor.tokens = w :: stop :: t.cursor.tokens

namespace Pattern

/-- The pattern matches in these surroundings. -/
def Succeeds (p : Pattern) (n : Nat) (env : Surroundings) (s : ParseState) : Prop :=
  ∃ trees t, p.run n env s = .matched trees t

variable {p : Pattern} {n : Nat} {env : Surroundings} {s t : ParseState} {xs : List Tree}

theorem reads_of_matched (h : p.run n env s = .matched xs t) :
    Reads n p env.left s.cursor.tokens (some (xs, t.cursor.tokens)) :=
  run_sound n p env s _ (congrArg Reply.outcome? h)

end Pattern

/-- Ordered choices are unambiguous.  At every place of every stream, with whatever levels are left:

* Two statements match only if one is a call and the other `CONTINUE` or `RAISE` with nothing else in front of the
  semicolon.  Then the call does match, unless it runs out of levels, and reads the same two tokens.
* No two declarations match.
* No two tails of comparisons match. -/
theorem choices_unambiguous (tokens : List Token) (n : Nat) (env : Surroundings) (s : ParseState)
    (hs : s.cursor.IsIn (Cursor.ofTokens tokens).tokens) :
    (statementRules.Pairwise fun a b => ∀ xs ys t u,
      (Pattern.call a).run n env s = .matched xs t → (Pattern.call b).run n env s = .matched ys u →
        b = .callStatement ∧ ∃ word, a.loneWord? = some word ∧ ReadsLone word s t ∧ ReadsLone word s u) ∧
    (∀ a word xs t, a.loneWord? = some word → (Pattern.call a).run n env s = .matched xs t → ReadsLone word s t →
      (∀ o u, (Pattern.call .callStatement).run n env s ≠ .fatal o u) →
        ∃ ys u, (Pattern.call .callStatement).run n env s = .matched ys u ∧ u.cursor.tokens = t.cursor.tokens) ∧
    (declarationRules.Pairwise fun a b =>
      ¬ ((Pattern.call a).Succeeds n env s ∧ (Pattern.call b).Succeeds n env s)) ∧
    (comparisonTails.Pairwise fun a b =>
      ¬ ((comparisonWith a.1 a.2).Succeeds n env s ∧ (comparisonWith b.1 b.2).Succeeds n env s)) := by
  have hts : Terminated s.cursor.tokens := hs.terminated (terminated_ofTokens tokens)
  refine ⟨parted_statements.imp ?_, ?_, parted_declarations.imp ?_, parted_tails.imp ?_⟩
  · intro a b hab xs ys t u ha hb
    have ha := Pattern.reads_of_matched ha
    have hb := Pattern.reads_of_matched hb
    rcases hab with hab | ⟨hword, hb'⟩ | ⟨rfl, rfl⟩
    · exact (ha.false_of_parted_rules hb hts hab).elim
    · obtain ⟨word, hword⟩ := Option.isSome_iff_exists.1 hword
      rcases hb' with rfl | rfl
      · exact (ha.false_of_assignment hword hb hts).elim
      · obtain ⟨w, stop, hw, hstop, htokens, hsame⟩ := ha.lone_of_call hword hb hts
        exact ⟨rfl, word, hword, ⟨w, stop, hw, hstop, htokens⟩, w, stop, hw, hstop, hsame ▸ htokens⟩
    · exact (ha.false_of_assignment_call hb hts).elim
  · intro a word xs t _ _ hlone hfatal
    obtain ⟨w, stop, hw, hstop, htokens⟩ := hlone
    obtain ⟨ys, hread⟩ := Reads.call_of_lone (l := env.left) hw hstop (List.cons_ne_nil t.cursor.current t.cursor.ahead)
    rw [← Cursor.tokens, ← htokens] at hread
    cases hreply : (Pattern.call .callStatement).run n env s with
    | matched zs u =>
      have hsame := (Pattern.reads_of_matched hreply).unique hread hts.ne_nil
      simp only [Option.some.injEq, Prod.mk.injEq] at hsame
      exact ⟨zs, u, rfl, hsame.2⟩
    | mismatch u => cases (run_sound n _ env s none (congrArg Reply.outcome? hreply)).unique hread hts.ne_nil
    | fatal o u => exact absurd hreply (hfatal o u)
  · rintro a b hab ⟨⟨xs, t, ha⟩, ys, u, hb⟩
    have ha := Pattern.reads_of_matched ha
    have hb := Pattern.reads_of_matched hb
    rcases hab with hab | ⟨rfl, rfl⟩
    · exact ha.false_of_parted_rules hb hts hab
    · exact ha.false_of_cursor_variable hb hts
  · rintro a b hab ⟨⟨xs, t, ha⟩, ys, u, hb⟩
    exact (Pattern.reads_of_matched ha).false_of_parted (Pattern.reads_of_matched hb) hts hab

/-- `CONTINUE;` is a statement of its own and a call. -/
theorem choices_unambiguous_continue :
    let tokens : List Token := [.bare .identifier "continue", .bare .semicolon ";"]
    let s : ParseState := ⟨.ofTokens tokens, none⟩
    let env : Surroundings := ⟨.forDepth 2, [], []⟩
    s.cursor.IsIn (Cursor.ofTokens tokens).tokens ∧
    ∃ xs t, (Pattern.call .continueStatement).run 2 env s = .matched xs t ∧ ReadsLone "CONTINUE" s t ∧
      ∃ ys u, (Pattern.call .callStatement).run 2 env s = .matched ys u ∧ u.cursor.tokens = t.cursor.tokens := by
  intro tokens s env
  have hs : s.cursor.IsIn (Cursor.ofTokens tokens).tokens := Cursor.isIn_ofTokens tokens
  have hbudget : env.limits.Allows env.rules 2 := (Limits.ample_forDepth 2).allows
  have hword : (Token.bare .identifier "continue").isWord "CONTINUE" = true := by decide
  have htail : Reads 1 exitTail [] [.bare .semicolon ";", .endAt default] _ :=
    Rule.reads_loneTail (a := .continueStatement) rfl rfl (by simp)
  have hcontinue : Reads 2 (Pattern.call .continueStatement) env.left s.cursor.tokens _ :=
    .call (.seq (Reads.word hword (List.cons_ne_nil _ _)) htail rfl) rfl
  have hstop : (Token.bare .semicolon ";").terminal = .semicolon := rfl
  obtain ⟨ys, hcall⟩ := Reads.call_of_lone (l := env.left) hword hstop (List.cons_ne_nil (.endAt default) [])
  obtain ⟨t, ht, htokens⟩ := Reply.eq_matched_of_outcome? ((run_iff hbudget).2 hcontinue)
  have hlone : ReadsLone "CONTINUE" s t := ⟨_, _, hword, rfl, by rw [htokens]; rfl⟩
  have hfatal : ∀ o u, (Pattern.call .callStatement).run 2 env s ≠ .fatal o u := by
    intro o u hreply
    have hnone := (run_iff (s := s) hbudget).2 hcall
    rw [hreply] at hnone
    cases hnone
  exact ⟨hs, _, t, ht, hlone, (choices_unambiguous tokens 2 env s hs).2.1 _ _ _ t rfl ht hlone hfatal⟩

end PlsqlLint
