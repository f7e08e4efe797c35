import PlsqlLint.Proofs.Completeness
import PlsqlLint.Proofs.Subtree

/-!
# The language of the locking clause

The clause that locks the rows of a query is read if and only if it has the form `FOR UPDATE`, then perhaps `OF` with a
list of columns, and then perhaps one of `NOWAIT`, `WAIT` with a number and `SKIP LOCKED` (`parseRule_forUpdate`).

The words of the last part are ordinary names, and so columns may be called by them.  What keeps the two apart is that a
column is only looked for behind `OF`, a comma or a dot.  Each part of the clause has a lemma for both directions: what
the pattern reads has the form of the part (`of_reads`), and the part is read in front of what can follow it (`reads`).
-/

namespace PlsqlLint

namespace ForUpdate

/-! ### The form of the clause -/

/-- A name, quoted or not. -/
def IsName (t : Token) : Prop := t.terminal = .identifier ∨ t.terminal = .quotedIdentifier

/-- One to three names with dots between them. -/
inductive Column : List Token → Prop
  | one {a : Token} (ha : IsName a) : Column [a]
  | two {a d b : Token} (ha : IsName a) (hd : d.terminal = .dot) (hb : IsName b) : Column [a, d, b]
  | three {a d b d' c : Token} (ha : IsName a) (hd : d.terminal = .dot) (hb : IsName b) (hd' : d'.terminal = .dot)
      (hc : IsName c) : Column [a, d, b, d', c]

/-- Columns with commas between them. -/
inductive Columns : List Token → Prop
  | one {w : List Token} (hw : Column w) : Columns w
  | more {w rest : List Token} {comma : Token} (hw : Column w) (hcomma : comma.terminal = .comma)
      (hrest : Columns rest) : Columns (w ++ comma :: rest)

/-- The columns that are locked, which need not be given. -/
inductive Locked : List Token → Prop
  | unnamed : Locked []
  | named {t : Token} {w : List Token} (ht : t.terminal = .keyword .OF) (hw : Columns w) : Locked (t :: w)

/-- What to do about rows that are locked already, which need not be given. -/
inductive Waiting : List Token → Prop
  | block : Waiting []
  | nowait {t : Token} (ht : t.isWord "NOWAIT" = true) : Waiting [t]
  | wait {t number : Token} (ht : t.isWord "WAIT" = true) (hnumber : number.terminal = .number) : Waiting [t, number]
  | skip {t t' : Token} (ht : t.isWord "SKIP" = true) (ht' : t'.isWord "LOCKED" = true) : Waiting [t, t']

inductive Clause : List Token → Prop
  | intro {f u : Token} {locked waiting : List Token} (hf : f.terminal = .keyword .FOR)
      (hu : u.terminal = .keyword .UPDATE) (hlocked : Locked locked) (hwaiting : Waiting waiting) :
      Clause (f :: u :: (locked ++ waiting))

/-! ### The patterns of its parts -/

open Pattern

def lockedPattern : Pattern := opt (sequence [keyword .OF, commaList (.call .columnReference)])

def waitingPattern : Pattern :=
  opt (
    .ifNext [[.word "NOWAIT"]] (word "NOWAIT") <|
    .ifNext [[.word "WAIT"]] (sequence [word "WAIT", terminal .number])
      (sequence [word "SKIP", word "LOCKED"]))

private theorem body_forUpdateClause :
    Rule.forUpdateClause.body = sequence [keyword .FOR, keyword .UPDATE, lockedPattern, waitingPattern] := rfl

private theorem accepts_name {t : Token} : TokenClass.name.accepts t = true ↔ IsName t := by
  rw [TokenClass.accepts, IsName]
  unfold Terminal.isName
  split <;> simp_all

variable {n : Nat} {l xs : List Tree} {ts us w : List Token}

/-! ### What is read has the form -/

private theorem terminal_of_reads {k : Terminal} (h : Reads n (Pattern.terminal k) l ts (some (xs, us)))
    (hk : k ≠ .endOfInput) (hts : Terminated ts) : ∃ t, t.terminal = k ∧ Consumes ts [t] us := by
  obtain ⟨t, ht, hw⟩ := h.taken (by simpa [TokenClass.passable] using hk.symm) hts
  exact ⟨t, by simpa using ht, hw⟩

private theorem name_of_reads (h : Reads n Pattern.identifier l ts (some (xs, us))) (hts : Terminated ts) :
    ∃ t, IsName t ∧ Consumes ts [t] us := by
  obtain ⟨t, ht, hw⟩ := h.taken rfl hts
  exact ⟨t, accepts_name.1 ht, hw⟩

theorem Column.of_reads (h : Reads n (Pattern.call .columnReference) l ts (some (xs, us))) (hts : Terminated ts) :
    ∃ w, Column w ∧ Consumes ts w us := by
  cases h with
  | call hbody _ =>
  cases hbody with
  | seq hname htail _ =>
  obtain ⟨a, ha, hwa⟩ := name_of_reads hname hts
  have hts := hwa.terminated hts
  cases htail with
  | orSecond _ hempty =>
    cases hempty
    exact ⟨_, .one ha, hwa⟩
  | orFirst htail =>
  cases htail with
  | seq hdot htail _ =>
  obtain ⟨d, hd, hwd⟩ := terminal_of_reads hdot (by decide) hts
  have hts := hwd.terminated hts
  cases htail with
  | seq hname htail _ =>
  obtain ⟨b, hb, hwb⟩ := name_of_reads hname hts
  have hts := hwb.terminated hts
  cases htail with
  | orSecond _ hempty =>
    cases hempty
    exact ⟨_, .two ha hd hb, hwa.trans (hwd.trans hwb)⟩
  | orFirst htail =>
  cases htail with
  | seq hdot hname _ =>
  obtain ⟨d', hd', hwd'⟩ := terminal_of_reads hdot (by decide) hts
  obtain ⟨c, hc, hwc⟩ := name_of_reads hname (hwd'.terminated hts)
  exact ⟨_, .three ha hd hb hd' hc, hwa.trans (hwd.trans (hwb.trans (hwd'.trans hwc)))⟩

/-- The repetition behind the first column reads columns with a comma in front of each. -/
private theorem Columns.of_reads_many {first : List Token} (hfirst : Column first)
    (h : Reads n (Pattern.many (.seq (terminal .comma) (.call .columnReference))) l ts (some (xs, us)))
    (hts : Terminated ts) : ∃ w, Columns (first ++ w) ∧ Consumes ts w us := by
  induction hk : ts.length using Nat.strongRecOn generalizing first ts xs with
  | ind k ih =>
  subst hk
  cases h with
  | manyStop _ => exact ⟨[], by simpa using .one hfirst, .refl _⟩
  | manyMore hone hlt hmore _ =>
    cases hone with
    | seq hcomma hcolumn _ =>
    obtain ⟨comma, hc, hwc⟩ := terminal_of_reads hcomma (by decide) hts
    obtain ⟨column, hcol, hwcol⟩ := Column.of_reads hcolumn (hwc.terminated hts)
    have hw := hwc.trans hwcol
    obtain ⟨w, hcols, hwmore⟩ := ih _ hlt hcol hmore (hw.terminated hts) rfl
    exact ⟨comma :: (column ++ w), .more hfirst hc hcols, hw.trans hwmore⟩
  | manyOnce hone hle =>
    -- a match without progress is impossible, for it reads a comma
    cases hone with
    | seq hcomma hcolumn _ =>
    obtain ⟨comma, -, hwc⟩ := terminal_of_reads hcomma (by decide) hts
    obtain ⟨column, -, hwcol⟩ := Column.of_reads hcolumn (hwc.terminated hts)
    have hlength := congrArg List.length (hwc.trans hwcol).split
    simp only [List.length_append, List.length_singleton] at hlength
    omega

theorem Locked.of_reads (h : Reads n lockedPattern l ts (some (xs, us))) (hts : Terminated ts) :
    ∃ w, Locked w ∧ Consumes ts w us := by
  cases h with
  | orSecond _ hempty =>
    cases hempty
    exact ⟨[], .unnamed, .refl _⟩
  | orFirst hof =>
  cases hof with
  | seq hword hcolumns _ =>
  cases hcolumns with
  | seq hcolumn hmany _ =>
  obtain ⟨t, ht, hwt⟩ := terminal_of_reads hword (by decide) hts
  have hts := hwt.terminated hts
  obtain ⟨first, hfirst, hwfirst⟩ := Column.of_reads hcolumn hts
  obtain ⟨w, hw, hwmore⟩ := Columns.of_reads_many hfirst hmany (hwfirst.terminated hts)
  exact ⟨t :: (first ++ w), .named ht hw, hwt.trans (hwfirst.trans hwmore)⟩

theorem Waiting.of_reads (h : Reads n waitingPattern l ts (some (xs, us))) (hts : Terminated ts) :
    ∃ w, Waiting w ∧ Consumes ts w us := by
  cases h with
  | orSecond _ hempty =>
    cases hempty
    exact ⟨[], .block, .refl _⟩
  | orFirst hwords =>
  cases hwords with
  | nextYes _ hword =>
    obtain ⟨t, ht, hw⟩ := hword.taken rfl hts
    exact ⟨_, .nowait ht, hw⟩
  | nextNo _ hwords =>
  cases hwords with
  | nextYes _ hwords =>
    cases hwords with
    | seq hword hnumber _ =>
    obtain ⟨t, ht, hwt⟩ := hword.taken rfl hts
    obtain ⟨number, hn, hwn⟩ := terminal_of_reads hnumber (by decide) (hwt.terminated hts)
    exact ⟨_, .wait ht hn, hwt.trans hwn⟩
  | nextNo _ hwords =>
    cases hwords with
    | seq hword hword' _ =>
    obtain ⟨t, ht, hwt⟩ := hword.taken rfl hts
    obtain ⟨t', ht', hwt'⟩ := hword'.taken rfl (hwt.terminated hts)
    exact ⟨_, .skip ht ht', hwt.trans hwt'⟩

theorem Clause.of_reads (h : Reads n (Pattern.call .forUpdateClause) l ts (some (xs, us))) (hts : Terminated ts) :
    ∃ w, Clause w ∧ Consumes ts w us := by
  cases h with
  | call hbody _ =>
  rw [body_forUpdateClause] at hbody
  cases hbody with
  | seq hfor hrest _ =>
  cases hrest with
  | seq hupdate hrest _ =>
  cases hrest with
  | seq hlocked hwaiting _ =>
  obtain ⟨f, hf, hwf⟩ := terminal_of_reads hfor (by decide) hts
  have hts := hwf.terminated hts
  obtain ⟨u, hu, hwu⟩ := terminal_of_reads hupdate (by decide) hts
  have hts := hwu.terminated hts
  obtain ⟨locked, hl, hwl⟩ := Locked.of_reads hlocked hts
  obtain ⟨waiting, hw, hww⟩ := Waiting.of_reads hwaiting (hwl.terminated hts)
  exact ⟨_, .intro hf hu hl hw, hwf.trans (hwu.trans (hwl.trans hww))⟩

/-! ### What has the form is read -/

private theorem reads_name {a : Token} (ha : IsName a) (hts : ts ≠ []) :
    Reads n Pattern.identifier l (a :: ts) (some ([.leaf a], ts)) := by
  refine Reads.token (accepts_name.2 ha) ?_ hts
  rcases ha with ha | ha <;> simp [ha]

/-- A column is read up to a token that is not a dot. -/
theorem Column.reads (hw : Column w) {t : Token} (ht : t.terminal ≠ .dot) (rest : List Token) :
    ∃ xs, Reads (n + 1) (Pattern.call .columnReference) l (w ++ t :: rest) (some (xs, t :: rest)) := by
  have hnone : ∀ p, Reads n (opt (.seq (terminal .dot) p)) [] (t :: rest) (some ([], t :: rest)) :=
    fun p => .orSecond (.seqFirst (Reads.terminalNot ht)) .empty
  cases hw with
  | one ha => exact ⟨_, .call (.seq (reads_name ha (by simp)) (hnone _) rfl) rfl⟩
  | two ha hd hb =>
    have htail := Reads.seq (reads_name hb (by simp)) (hnone identifier) rfl
    have hmember := Reads.seq (Reads.terminal hd (by decide) (by simp)) htail rfl
    exact ⟨_, .call (.seq (reads_name ha (by simp)) (.orFirst hmember) rfl) rfl⟩
  | three ha hd hb hd' hc =>
    have hname := reads_name (n := n) (l := []) hc (List.cons_ne_nil t rest)
    have hlast := Reads.seq (Reads.terminal hd' (by decide) (by simp)) hname rfl
    have htail := Reads.seq (reads_name hb (by simp)) (.orFirst (b := .empty) hlast) rfl
    have hmember := Reads.seq (Reads.terminal hd (by decide) (by simp)) htail rfl
    exact ⟨_, .call (.seq (reads_name ha (by simp)) (.orFirst hmember) rfl) rfl⟩

/-- The first of several columns is read, and then the repetition reads the others. -/
theorem Columns.reads (hw : Columns w) {t : Token} (hdot : t.terminal ≠ .dot) (hcomma : t.terminal ≠ .comma)
    (rest : List Token) :
    ∃ more xs ys, more.length ≤ w.length ∧
      Reads (n + 1) (Pattern.call .columnReference) l (w ++ t :: rest) (some (xs, more ++ t :: rest)) ∧
      Reads (n + 1) (Pattern.many (.seq (terminal .comma) (.call .columnReference))) l (more ++ t :: rest)
        (some (ys, t :: rest)) := by
  induction hw with
  | one hw =>
    obtain ⟨xs, hcolumn⟩ := hw.reads hdot rest
    exact ⟨[], xs, [], Nat.zero_le _, hcolumn, .manyStop (.seqFirst (Reads.terminalNot hcomma))⟩
  | @more w' others comma hw' hc _ ih =>
    obtain ⟨more, ys, zs, hlength, hnext, hmany⟩ := ih
    obtain ⟨xs, hcolumn⟩ := hw'.reads (t := comma) (by simp [hc]) (others ++ t :: rest)
    have hread : Reads (n + 1) (terminal .comma) l (comma :: (others ++ t :: rest)) _ :=
      Reads.terminal hc (by decide) (by simp)
    have hlt : (more ++ t :: rest).length < (comma :: (others ++ t :: rest)).length := by
      simp only [List.length_append, List.length_cons]
      omega
    refine ⟨comma :: others, xs, _, ?_, by simpa using hcolumn, .manyMore (.seq hread hnext rfl) hlt hmany rfl⟩
    simp only [List.length_append, List.length_cons]
    omega

/-- The part with the columns is read up to a token that does not go on with it. -/
theorem Locked.reads (hw : Locked w) {t : Token} (hof : t.terminal ≠ .keyword .OF) (hdot : t.terminal ≠ .dot)
    (hcomma : t.terminal ≠ .comma) (rest : List Token) :
    ∃ xs, Reads (n + 1) lockedPattern l (w ++ t :: rest) (some (xs, t :: rest)) := by
  cases hw with
  | unnamed => exact ⟨_, .orSecond (.seqFirst (Reads.terminalNot hof)) .empty⟩
  | named ho hw =>
    obtain ⟨more, xs, ys, -, hfirst, hmany⟩ := hw.reads hdot hcomma rest
    exact ⟨_, .orFirst (.seq (Reads.terminal ho (by decide) (by simp)) (.seq hfirst hmany rfl) rfl)⟩

/-- The last part is read up to the end of the input. -/
theorem Waiting.reads (hw : Waiting w) {e : Token} (he : e.terminal = .endOfInput) :
    ∃ xs, Reads n waitingPattern l (w ++ [e]) (some (xs, [e])) := by
  have hother : ∀ {t : Token} {v v' : String}, t.isWord v = true → sameCaseless v v' = false → t.isWord v' = false := by
    intro t v v' hv hne
    by_contra hv'
    rw [Token.isWord_unique hv (Bool.eq_true_of_not_eq_false hv')] at hne
    cases hne
  cases hw with
  | block =>
    have hword : ∀ v, e.isWord v = false := fun v => by simp [Token.isWord, he]
    exact ⟨_, .orSecond (.nextNo (by simp [hword]) (.nextNo (by simp [hword]) (.seqFirst (.takeNot (hword _))))) .empty⟩
  | nowait ht => exact ⟨_, .orFirst (.nextYes (by simpa using ht) (Reads.word ht (by simp)))⟩
  | @wait t number ht hn =>
    have hread : Reads n (sequence [word "WAIT", terminal .number]) l [t, number, e] _ :=
      .seq (Reads.word ht (by simp)) (Reads.terminal hn (by decide) (by simp)) rfl
    exact ⟨_, .orFirst (.nextNo (by simpa using hother ht (by decide)) (.nextYes (by simpa using ht) hread))⟩
  | @skip t t' ht ht' =>
    have hread : Reads n (sequence [word "SKIP", word "LOCKED"]) l [t, t', e] _ :=
      .seq (Reads.word ht (by simp)) (Reads.word ht' (by simp)) rfl
    exact ⟨_, .orFirst (.nextNo (by simpa using hother ht (by decide))
      (.nextNo (by simpa using hother ht (by decide)) hread))⟩

/-- The last part, or the end of the input if it is not given, does not go on with the columns. -/
private theorem Waiting.head (hw : Waiting w) {e : Token} (he : e.terminal = .endOfInput) :
    ∃ t rest, w ++ [e] = t :: rest ∧ (t.terminal = .identifier ∨ t.terminal = .endOfInput) := by
  cases hw with
  | block => exact ⟨e, [], rfl, .inr he⟩
  | nowait ht | wait ht _ | skip ht _ => exact ⟨_, _, rfl, .inl (Token.identifier_of_isWord ht)⟩

theorem Clause.reads (hw : Clause w) {e : Token} (he : e.terminal = .endOfInput) :
    ∃ tree, Reads (n + 2) (Pattern.call .forUpdateClause) l (w ++ [e]) (some ([tree], [e])) := by
  cases hw with
  | @intro f u locked waiting hf hu hlocked hwaiting =>
    obtain ⟨t, rest, hrest, ht⟩ := hwaiting.head he
    have hnot : t.terminal ≠ .keyword .OF ∧ t.terminal ≠ .dot ∧ t.terminal ≠ .comma := by
      rcases ht with ht | ht <;> simp [ht]
    obtain ⟨xs, hlock⟩ := hlocked.reads (n := n) (l := []) hnot.1 hnot.2.1 hnot.2.2 rest
    obtain ⟨ys, hwait⟩ := hwaiting.reads (n := n + 1) (l := []) he
    rw [← hrest] at hlock
    have hupdate : Reads (n + 1) (keyword .UPDATE) [] (u :: (locked ++ (waiting ++ [e]))) _ :=
      Reads.terminal hu (by decide) (by simp)
    have hfor : Reads (n + 1) (keyword .FOR) [] (f :: u :: (locked ++ (waiting ++ [e]))) _ :=
      Reads.terminal hf (by decide) (by simp)
    have hbody : Reads (n + 1) Rule.forUpdateClause.body [] (f :: u :: (locked ++ (waiting ++ [e]))) _ :=
      .seq hfor (.seq hupdate (.seq hlock hwait rfl) rfl) rfl
    exact ⟨_, by simpa using Reads.call hbody rfl⟩

end ForUpdate

/-- Up to the end of the input, a stream can be told from what stands there. -/
private theorem Consumes.eq_of_concat {w tokens rest : List Token} {e e' : Token}
    (h : Consumes (tokens ++ [e]) w (e' :: rest)) (hinner : ∀ t ∈ tokens, t.terminal ≠ .endOfInput)
    (he : e.terminal = .endOfInput) (he' : e'.terminal = .endOfInput) : w = tokens := by
  have htake : ∀ {v : List Token} {d : Token} (more : List Token), (∀ t ∈ v, t.terminal ≠ .endOfInput) →
      d.terminal = .endOfInput → (v ++ d :: more).takeWhile (·.terminal ≠ .endOfInput) = v := by
    intro v d more hv hd
    rw [List.takeWhile_append_of_pos (by simpa using hv), List.takeWhile_cons_of_neg (by simpa using hd),
      List.append_nil]
  rw [← htake rest h.inner he', ← h.split, htake [] hinner he]

/-- A stream is the given tokens with the end of the input behind them, whether that was given or not. -/
theorem Parser.tokens_ofTokens_closed {tokens : List Token} (hinner : ∀ t ∈ tokens, t.terminal ≠ .endOfInput)
    {closing : Option Token} (hclosing : ∀ e ∈ closing, e.terminal = .endOfInput) (limits : Limits) :
    ∃ e, e.terminal = .endOfInput ∧ (Parser.ofTokens (tokens ++ closing.toList) limits).tokens = tokens ++ [e] := by
  cases closing with
  | none => simpa using Parser.tokens_ofTokens hinner limits
  | some e => exact ⟨e, hclosing e rfl, Parser.tokens_ofTokens_concat (hclosing e rfl) tokens limits⟩

/-- The locking clause is read by exactly its grammar, for a list of columns of any length. -/
theorem parseRule_forUpdate (tokens : List Token) (hinner : ∀ t ∈ tokens, t.terminal ≠ .endOfInput)
    (closing : Option Token) (hclosing : ∀ e ∈ closing, e.terminal = .endOfInput) (limits : Limits)
    (hdepth : 2 ≤ limits.maxDepth) (hstack : limits.Ample) :
    (∃ tree, ((Parser.ofTokens (tokens ++ closing.toList) limits).parseRule .forUpdateClause).1 = .ok tree) ↔
      ForUpdate.Clause tokens := by
  obtain ⟨e, he, hstream⟩ := Parser.tokens_ofTokens_closed hinner hclosing limits
  constructor
  · rintro ⟨tree, hparse⟩
    obtain ⟨more, e', rest, hread, he'⟩ := Parser.reads_of_parseRule hparse
    rw [hstream] at hread
    have hts : Terminated (tokens ++ [e]) := ⟨e, by simp, he⟩
    obtain ⟨w, hclause, hw⟩ := ForUpdate.Clause.of_reads hread hts
    rwa [hw.eq_of_concat hinner he he'] at hclause
  · intro hclause
    obtain ⟨d, hd⟩ : ∃ d, limits.maxDepth = d + 2 := ⟨limits.maxDepth - 2, by omega⟩
    obtain ⟨tree, hread⟩ := hclause.reads (n := d) (l := []) he
    rw [← hd, ← hstream] at hread
    exact ⟨tree, Parser.parseRule_of_reads hstack hread he⟩

/-- A column called `WAIT` in front of the word, and a schema called `SKIP`. -/
theorem parseRule_forUpdate_words :
    let wait : Token := .bare .identifier "wait"
    let clause : List Token := [.bare (.keyword .FOR) "FOR", .bare (.keyword .UPDATE) "UPDATE",
      .bare (.keyword .OF) "OF", .bare .identifier "skip", .bare .dot ".", .bare .quotedIdentifier "\"T\"",
      .bare .dot ".", .bare .identifier "nowait", .bare .comma ",", wait, wait, .bare .number "5"]
    let closing : Option Token := some (.bare .endOfInput "")
    (∀ t ∈ clause, t.terminal ≠ .endOfInput) ∧ (∀ e ∈ closing, e.terminal = .endOfInput) ∧
    (∃ tree, ((Parser.ofTokens (clause ++ closing.toList) (.forDepth 2)).parseRule .forUpdateClause).1 = .ok tree) ∧
    ForUpdate.Clause clause := by
  intro wait clause closing
  have hinner : ∀ t ∈ clause, t.terminal ≠ .endOfInput := by decide
  have hclosing : ∀ e ∈ closing, e.terminal = .endOfInput := by
    intro e he
    obtain rfl := Option.some.inj he
    rfl
  have hname : ForUpdate.IsName wait := .inl rfl
  have hcolumn : ForUpdate.Column ((clause.drop 3).take 5) := .three (.inl rfl) rfl (.inr rfl) rfl (.inl rfl)
  have hcolumns : ForUpdate.Columns ((clause.drop 3).take 7) := .more hcolumn rfl (.one (.one hname))
  have hclause : ForUpdate.Clause clause := .intro rfl rfl (.named rfl hcolumns) (.wait (by decide) rfl)
  have hparse := (parseRule_forUpdate clause hinner closing hclosing (.forDepth 2) (by decide)
    (Limits.ample_forDepth 2)).2 hclause
  exact ⟨hinner, hclosing, hparse, hclause⟩

end PlsqlLint
