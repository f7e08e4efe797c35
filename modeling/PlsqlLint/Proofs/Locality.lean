import PlsqlLint.Proofs.Furthest
import PlsqlLint.Proofs.Spelling

/-!
# What a syntax error depends on

A syntax error depends on the tokens up to the place where it is reported and on one token behind it
(`parseRule_error_local`).

Two parses are compared whose streams agree that far.  They keep step until the first reads past the place in question:
a lookahead goes one token further at most, and not at the end of the input.  From then on the first parse is adrift
(`ParseState.Past`).  It stays so, because a mismatch behind the place is noted there, and then its report is made at a
later place.
-/

namespace PlsqlLint

/-! ### Past a place -/

/-- The parse is past the place `k`, or it has noted a failure there. -/
def ParseState.Past (k : Nat) (s : ParseState) : Prop := k < s.cursor.index ∨ s.Noted (k + 1)

namespace ParseState

variable {k : Nat} {s t : ParseState}

/-- A state that is past the place from wherever it goes on has noted a failure there. -/
private theorem noted_of_past (h : ∀ c, Past k (s.backTo c)) : s.Noted (k + 1) := by
  rcases h ⟨0, s.cursor.current, []⟩ with hi | hf
  · exact absurd hi (Nat.not_lt_zero k)
  · exact hf

private theorem past_of_noted (h : s.Noted (k + 1)) (c : Cursor) : Past k (s.backTo c) := .inr h

private theorem Past.expecting (h : s.Past k) (rules : List Rule) (e : String) (c : Cursor) :
    ((s.expecting rules e).backTo c).Past k := by
  refine past_of_noted ?_ c
  rcases h with hi | hf
  · exact (s.noted_expecting rules e).mono hi
  · exact hf.kept (s.kept_expecting rules e)

end ParseState

namespace Reply.Grown

variable {k : Nat} {r : Reply} {s : ParseState} {b : Bool}

private theorem noted (h : r.Grown s b) (hs : s.Noted (k + 1)) : r.Adrift (ParseState.Past k) fun _ => True := by
  cases h with
  | matched hf _ => exact .inr (hs.kept hf)
  | mismatch hf _ => exact ParseState.past_of_noted (hs.kept hf)
  | fatal _ => trivial

private theorem past (h : r.Grown s true) (hs : s.Past k) : r.Adrift (ParseState.Past k) fun _ => True := by
  rcases hs with hi | hf
  · cases h with
    | matched _ hle => exact .inl (hi.trans_le hle)
    | mismatch _ he => exact ParseState.past_of_noted ((he rfl).mono hi)
    | fatal _ => trivial
  · exact h.noted hf

end Reply.Grown

/-! ### Patterns that look one token ahead -/

/-- The condition looks at the current token, and at the one behind it only if the current one is not the end of the
input. -/
def Lookahead.near (ahead : Lookahead) : Bool := ahead.all fun ks => ks.length ≤ 2 && ks.dropLast.all (·.passable)

/-- The pattern looks one token ahead at most, and every mismatch behind something that it has read is noted. -/
def Pattern.accountable : Pattern → Bool
  | .empty | .take _ _ | .advance | .fail | .reject _ | .room _ | .left | .closingLabel | .call _ => true
  | .seq a b | .onto a b => a.accountable && b.accountable && b.explains
  | .orElse a b => a.accountable && b.accountable
  | .ifNext ahead a b => ahead.near && a.accountable && b.accountable
  | .chain a ahead b => ahead.near && a.accountable && b.accountable && b.explains
  | .many a | .within _ a | .node _ a | .collapse _ a | .only _ _ a | .last a => a.accountable

theorem Rule.accountable_body (r : Rule) : r.body.accountable = true := by
  cases r <;> rfl

theorem Rule.accountable_root (r : Rule) : r.root.accountable = true := by
  cases r <;> rfl

namespace Pattern

variable {p q : Pattern}

private theorem accountable_of_mem_parts (hp : p.accountable = true) (hq : q ∈ p.parts) : q.accountable = true := by
  cases p with
  | call r =>
    rw [List.mem_singleton.1 hq]
    exact r.accountable_body
  | seq | orElse | ifNext | onto | chain | many | within | node | collapse | only | last =>
    simp only [parts, accountable, Bool.and_eq_true, List.mem_cons, List.not_mem_nil, or_false] at hp hq
    grind
  | _ => cases hq

private theorem explains_of_mem_behind (hp : p.accountable = true) (hq : q ∈ p.behind) : q.explains = true := by
  cases p with
  | seq a b | onto a b | chain a ahead b =>
    rw [List.mem_singleton.1 hq]
    simp only [accountable, Bool.and_eq_true] at hp
    exact hp.2
  | many a => rw [List.mem_singleton.1 hq]; rfl
  | _ => cases hq

private theorem near_of_mem_lookaheads {ahead : Lookahead} (hp : p.accountable = true) (hq : ahead ∈ p.lookaheads) :
    ahead.near = true := by
  cases p with
  | ifNext _ a b | chain a _ b =>
    rw [List.mem_singleton.1 hq]
    simp only [accountable, Bool.and_eq_true] at hp
    grind
  | _ => cases hq

end Pattern

/-- A parse is out of sight past the place `k`. -/
def Horizon.at (k : Nat) (limits : Limits) : Horizon limits fun _ => True where
  scope p := p.accountable = true
  adrift := ParseState.Past k
  scope_part := Pattern.accountable_of_mem_parts
  gaveUp_of_adrift _ _ := trivial
  expecting hs := hs.expecting
  drifts {p q n rules left s} hp hq hs := by
    have hgrown := q.run_grows n ⟨limits, rules, left⟩ s
    rw [Pattern.explains_of_mem_behind hp hq] at hgrown
    exact hgrown.past hs
  stays {p n rules left s} hs := (p.run_grows n ⟨limits, rules, left⟩ s).noted (ParseState.noted_of_past hs)

/-! ### Streams that agree up to a place -/

/-- The second stream has the tokens of the first up to the place `k` and one token further. -/
def AgreeTo (k : Nat) (ts us : List Token) : Prop := ∀ i ≤ k + 1, i < ts.length → us[i]? = ts[i]?

namespace Cursor.IsIn

variable {c : Cursor} {ts : List Token}

theorem length_eq (h : c.IsIn ts) : ts.length = c.index + c.ahead.length + 1 := by
  have hlen := congrArg List.length (show ts.drop c.index = c.current :: c.ahead from h)
  simp only [List.length_drop, List.length_cons] at hlen
  omega

private theorem next (h : c.IsIn ts) : ts[c.index + 1]? = c.ahead.head? := by
  have hget := congrArg (·[1]?) (show ts.drop c.index = c.current :: c.ahead from h)
  simpa [List.getElem?_drop, List.head?_eq_getElem?] using hget

/-- Another token follows one that is not the end of the input. -/
theorem ahead_ne_nil (h : c.IsIn ts) (hts : Terminated ts) (hc : c.current.terminal ≠ .endOfInput) : c.ahead ≠ [] := by
  intro hnil
  obtain ⟨e, he, hend⟩ := hts
  have hlen := h.length_eq
  rw [hnil, List.length_nil] at hlen
  rw [List.getLast?_eq_getElem?, show ts.length - 1 = c.index by omega, h.current] at he
  cases he
  exact hc hend

end Cursor.IsIn

/-- States at one place up to `k` of two streams, with the same record of failures, which is at its place. -/
structure ParseState.Alongside (k : Nat) (ts us : List Token) (s t : ParseState) : Prop where
  index : s.cursor.index = t.cursor.index
  bound : s.cursor.index ≤ k
  left : s.cursor.IsIn ts
  right : t.cursor.IsIn us
  furthest : s.furthest = t.furthest
  placed : ∀ f ∈ s.furthest, ts[f.index]? = some f.token

namespace ParseState.Alongside

variable {k : Nat} {ts us : List Token} {s t s' t' : ParseState}

private theorem current (h : Alongside k ts us s t) (hag : AgreeTo k ts us) : s.cursor.current = t.cursor.current := by
  have hget := hag s.cursor.index (by have := h.bound; omega) (by rw [h.left.length_eq]; omega)
  rw [h.left.current, h.index, h.right.current] at hget
  exact (Option.some.inj hget).symm

private theorem ahead (h : Alongside k ts us s t) (hag : AgreeTo k ts us) (hne : s.cursor.ahead ≠ []) :
    ∃ u as bs, s.cursor.ahead = u :: as ∧ t.cursor.ahead = u :: bs := by
  obtain ⟨u, as, has⟩ := List.exists_cons_of_ne_nil hne
  have hlen := h.left.length_eq
  rw [has, List.length_cons] at hlen
  have hget := hag (s.cursor.index + 1) (by have := h.bound; omega) (by omega)
  rw [h.left.next, h.index, h.right.next, has, List.head?_cons] at hget
  obtain ⟨bs, hbs⟩ := List.head?_eq_some_iff.1 hget
  exact ⟨u, as, bs, has, hbs⟩

private theorem sees (h : Alongside k ts us s t) (hag : AgreeTo k ts us) (hts : Terminated ts) {ahead : Lookahead}
    (hnear : ahead.near = true) : s.cursor.sees ahead = t.cursor.sees ahead := by
  have hcur := h.current hag
  have hfits : ∀ ks ∈ ahead, s.cursor.fits 0 ks = t.cursor.fits 0 ks := by
    intro ks hks
    have hk := List.all_eq_true.1 hnear ks hks
    simp only [Bool.and_eq_true, decide_eq_true_eq] at hk
    match ks, hk with
    | [], _ => rfl
    | [k₁], _ => simp only [Cursor.fits, Cursor.peek, hcur]
    | [k₁, k₂], ⟨_, hpass⟩ =>
      have hpass : k₁.passable = true := by simpa using hpass
      have hsecond : k₁.accepts s.cursor.current = true → s.cursor.peek 1 = t.cursor.peek 1 := by
        intro hacc
        have hne := h.left.ahead_ne_nil hts (TokenClass.ne_endOfInput hpass hacc)
        obtain ⟨u, as, bs, has, hbs⟩ := h.ahead hag hne
        simp [Cursor.peek, has, hbs]
      have hfirst : s.cursor.peek 0 = t.cursor.peek 0 := hcur
      cases hacc : k₁.accepts s.cursor.current with
      | false =>
        have hacc : k₁.accepts (t.cursor.peek 0) = false := hfirst ▸ hacc
        simp only [Cursor.fits, hfirst, hacc, Bool.false_and]
      | true => simp only [Cursor.fits, Nat.zero_add, hfirst, hsecond hacc]
  unfold Cursor.sees
  rw [Bool.eq_iff_iff, List.any_eq_true, List.any_eq_true]
  constructor
  · rintro ⟨ks, hks, hf⟩
    exact ⟨ks, hks, hfits ks hks ▸ hf⟩
  · rintro ⟨ks, hks, hf⟩
    exact ⟨ks, hks, (hfits ks hks).symm ▸ hf⟩

private theorem moved (h : Alongside k ts us s t) (h' : Alongside k ts us s' t') :
    s'.cursor.ahead.length < s.cursor.ahead.length ↔ t'.cursor.ahead.length < t.cursor.ahead.length := by
  have hs := h.left.length_eq
  have hs' := h'.left.length_eq
  have ht := h.right.length_eq
  have ht' := h'.right.length_eq
  have hi := h.index
  have hi' := h'.index
  omega

private theorem backTo (h : Alongside k ts us s t) (h' : Alongside k ts us s' t') :
    Alongside k ts us (s'.backTo s.cursor) (t'.backTo t.cursor) :=
  ⟨h.index, h.bound, h.left, h.right, h'.furthest, h'.placed⟩

private theorem advance (h : Alongside k ts us s t) (hag : AgreeTo k ts us) (hts : Terminated ts) :
    (s.backTo s.cursor.advance).Past k ∨
      Alongside k ts us (s.backTo s.cursor.advance) (t.backTo t.cursor.advance) := by
  have hcur := h.current hag
  by_cases hend : s.cursor.current.terminal = .endOfInput
  · right
    have hs : s.cursor.advance = s.cursor := by simp [Cursor.advance, Cursor.atEnd, hend]
    have ht : t.cursor.advance = t.cursor := by simp [Cursor.advance, Cursor.atEnd, ← hcur, hend]
    rw [hs, ht]
    exact h
  · obtain ⟨u, as, bs, has, hbs⟩ := h.ahead hag (h.left.ahead_ne_nil hts hend)
    have hs : s.cursor.advance.index = s.cursor.index + 1 := by
      simp [Cursor.advance, Cursor.atEnd, hend, has]
    have ht : t.cursor.advance.index = t.cursor.index + 1 := by
      simp [Cursor.advance, Cursor.atEnd, ← hcur, hend, hbs]
    by_cases hk : s.cursor.index = k
    · left
      left
      show k < s.cursor.advance.index
      omega
    · right
      have hbound := h.bound
      have hindex := h.index
      refine ⟨?_, ?_, h.left.advance, h.right.advance, h.furthest, h.placed⟩
      · show s.cursor.advance.index = t.cursor.advance.index
        omega
      · show s.cursor.advance.index ≤ k
        omega

private theorem expecting (h : Alongside k ts us s t) (hag : AgreeTo k ts us) (rules : List Rule) (e : String) :
    Alongside k ts us (s.expecting rules e) (t.expecting rules e) := by
  refine ⟨h.index, h.bound, h.left, h.right, ?_, ?_⟩
  · show Furthest.note s.furthest _ = Furthest.note t.furthest _
    rw [h.furthest, h.index, h.current hag]
  · exact Furthest.forall_mem_note (P := fun i t => ts[i]? = some t) h.placed h.left.current

end ParseState.Alongside

/-! ### The two parses -/

/-- Two parses of streams that agree up to the place `k`. -/
def Simulation.ofAgreement {k : Nat} {ts us : List Token} (hag : AgreeTo k ts us) (hts : Terminated ts)
    (limits : Limits) : Simulation where
  toLikeness := .equality
  limits₁ := limits
  limits₂ := limits
  state := ParseState.Alongside k ts us
  overrun := Eq
  gaveUp _ := True
  horizon := .at k limits
  depth_le := le_rfl
  ofRule := by
    intro s t xs₁ xs₂ hs hx r
    rw [List.forall₂_eq_eq_eq] at hx
    rw [hx, hs.current hag]
  current hs := hs.current hag
  sees hs _ hp _ hahead := hs.sees hag hts (Pattern.near_of_mem_lookaheads hp hahead)
  moved := ParseState.Alongside.moved
  back := ParseState.Alongside.backTo
  advance hs := hs.advance hag hts
  expecting hs rules e := hs.expecting hag rules e
  expectingLabel := by rintro s t a _ hs rfl rules; exact hs.expecting hag rules _
  room := by
    intro s t hs levels wanted rules left₁ left₂ _
    rw [Nat.sub_self, Nat.add_zero]
    have hshort : Matcher.shortage? levels wanted ⟨limits, rules, left₁⟩ s =
        Matcher.shortage? levels wanted ⟨limits, rules, left₂⟩ t := by
      simp only [Matcher.shortage?, hs.index, hs.current hag]
    rw [hshort]
    right
    cases Matcher.shortage? levels wanted ⟨limits, rules, left₂⟩ t with
    | none => exact .none
    | some o => exact .some rfl

namespace Parser

variable {k : Nat} {ts us : List Token} {hag : AgreeTo k ts us} {hts : Terminated ts} {limits : Limits} {r₁ r₂ : Reply}
  {e : SyntaxError}

/-- A root that matches yields a tree. -/
theorem matchAt_root_ne_nil {root : Rule} {c : Cursor} {s : ParseState} :
    root.root.matchAt limits c ≠ .matched [] s := by
  intro h
  obtain ⟨t, ht⟩ := (run_sound _ _ _ _ _ (congrArg Reply.outcome? h)).root_tree
  cases ht

/-- A syntax error is reported behind a match that leaves something, or after a mismatch. -/
theorem conclude_cases {r : Reply} (h : conclude r = .error (.unexpected e)) (hne : ∀ s, r ≠ .matched [] s) :
    (∃ x xs s, r = .matched (x :: xs) s ∧ s.cursor.atEnd = false) ∨ ∃ s, r = .mismatch s := by
  cases r with
  | matched xs s =>
    cases xs with
    | nil => exact absurd rfl (hne s)
    | cons x xs =>
      left
      refine ⟨x, xs, s, rfl, ?_⟩
      rw [← Bool.not_eq_true]
      intro hend
      simp only [conclude, hend, if_true] at h
      cases h
  | mismatch s => exact .inr ⟨s, rfl⟩
  | fatal o s => cases h

theorem eq_of_conclude {r : Reply} (h : conclude r = .error (.unexpected e)) (hne : ∀ s, r ≠ .matched [] s) :
    e = .ofFurthest (furthest r) r.state.cursor.current := by
  rcases conclude_cases h hne with ⟨x, xs, s, rfl, hend⟩ | ⟨s, rfl⟩
  · simp only [conclude, hend, Bool.false_eq_true, if_false] at h
    cases h
    rw [furthest, hend]
    rfl
  · cases h
    rfl

/-- The report is made behind the place past which the parse is. -/
private theorem exists_lt_of_adrift {r : Reply} (h : conclude r = .error (.unexpected e)) (hne : ∀ s, r ≠ .matched [] s)
    (hl : r.Adrift (ParseState.Past k) fun _ => True) : ∃ f ∈ furthest r, k < f.index := by
  rcases conclude_cases h hne with ⟨x, xs, s, rfl, hend⟩ | ⟨s, rfl⟩
  · rw [furthest, hend]
    exact ParseState.noted_of_past (ParseState.Past.expecting hl [] (Terminal.describe .endOfInput))
  · exact ParseState.noted_of_past hl

/-- Replies that keep step up to the place of the report lead to the same syntax error, at a token of the stream. -/
theorem conclude_of_alongside (h : (Simulation.ofAgreement hag hts limits).Agree r₁ r₂)
    (he : conclude r₁ = .error (.unexpected e)) (hne : ∀ s, r₁ ≠ .matched [] s) (hk : ∀ f ∈ furthest r₁, f.index ≤ k) :
    conclude r₂ = .error (.unexpected e) ∧ ∀ f ∈ furthest r₁, ts[f.index]? = some f.token := by
  cases h with
  | @matched xs₁ xs₂ s t hx hs =>
    obtain rfl : xs₁ = xs₂ := List.forall₂_eq_eq_eq ▸ hx
    replace hs : ParseState.Alongside k ts us s t := hs
    obtain ⟨x, xs, rfl, hend⟩ : ∃ x xs, xs₁ = x :: xs ∧ s.cursor.atEnd = false := by
      rcases conclude_cases he hne with ⟨x, xs, _, heq, hend⟩ | ⟨_, heq⟩
      · cases heq; exact ⟨x, xs, rfl, hend⟩
      · cases heq
    have hend' : t.cursor.atEnd = false := by rw [← hend, Cursor.atEnd, Cursor.atEnd, hs.current hag]
    have hs' := hs.expecting hag [] (Terminal.describe .endOfInput)
    refine ⟨?_, ?_⟩
    · rw [← he]
      simp only [conclude, hend, hend', Bool.false_eq_true, if_false, hs'.furthest, hs'.current hag]
    · rw [furthest, hend]
      exact hs'.placed
  | @mismatch s t hs =>
    replace hs : ParseState.Alongside k ts us s t := hs
    refine ⟨?_, hs.placed⟩
    rw [← he]
    simp only [conclude, hs.furthest, hs.current hag]
  | fatal ho hs => cases he
  | lost hl =>
    obtain ⟨f, hf, hlt⟩ := exists_lt_of_adrift he hne hl
    exact absurd (hk f hf) (Nat.not_le.2 hlt)

/-- There is a record of failures where a syntax error is reported. -/
theorem exists_furthest {root : Rule} {c : Cursor}
    (h : conclude (root.root.matchAt limits c) = .error (.unexpected e)) :
    ∃ f, furthest (root.root.matchAt limits c) = some f := by
  have hgrown := root.root.run_grows limits.maxDepth ⟨limits, [], []⟩ ⟨c, none⟩
  rw [root.explains_root] at hgrown
  rcases conclude_cases h (fun _ => matchAt_root_ne_nil) with ⟨x, xs, s, hr, hend⟩ | ⟨s, hr⟩
  · obtain ⟨f, hf, -⟩ := s.noted_expecting [] (Terminal.describe .endOfInput)
    rw [hr, furthest, hend]
    exact ⟨f, hf⟩
  · rw [hr]
    rw [show root.root.run limits.maxDepth ⟨limits, [], []⟩ ⟨c, none⟩ = .mismatch s from hr] at hgrown
    cases hgrown with
    | mismatch _ hnoted =>
      obtain ⟨f, hf, -⟩ := hnoted rfl
      exact ⟨f, hf⟩

/-- A syntax error is reported at the place of the record. -/
theorem errorIndex_eq {p : Parser} {rule : Rule} {f : Furthest}
    (hf : furthest (rule.root.matchAt p.limits p.start) = some f) : p.errorIndex rule = f.index := by
  unfold errorIndex
  dsimp only
  rw [hf]
  rfl

end Parser

/-- A syntax error is reported at a token of the stream, and it depends on the tokens up to this one and on one token
more: every stream that agrees with the given one so far has the same syntax error. -/
theorem parseRule_error_local (tokens : List Token) (limits : Limits) (root : Rule) (e : SyntaxError)
    (h : ((Parser.ofTokens tokens limits).parseRule root).1 = .error (.unexpected e)) :
    (Parser.ofTokens tokens limits).tokens[(Parser.ofTokens tokens limits).errorIndex root]? = some e.token ∧
    ∀ tokens' : List Token,
      AgreeTo ((Parser.ofTokens tokens limits).errorIndex root) (Parser.ofTokens tokens limits).tokens
        (Parser.ofTokens tokens' limits).tokens →
      ((Parser.ofTokens tokens' limits).parseRule root).1 = .error (.unexpected e) := by
  change Parser.conclude (root.root.matchAt limits (.ofTokens tokens)) = _ at h
  have hts : Terminated (Parser.ofTokens tokens limits).tokens := terminated_ofTokens tokens
  have hne : ∀ s, root.root.matchAt limits (.ofTokens tokens) ≠ .matched [] s := fun _ => Parser.matchAt_root_ne_nil
  have hall : ∀ tokens' : List Token,
      AgreeTo ((Parser.ofTokens tokens limits).errorIndex root) (Parser.ofTokens tokens limits).tokens
        (Parser.ofTokens tokens' limits).tokens →
      ((Parser.ofTokens tokens' limits).parseRule root).1 = .error (.unexpected e) ∧
        ∀ f ∈ Parser.furthest (root.root.matchAt limits (.ofTokens tokens)),
          (Parser.ofTokens tokens limits).tokens[f.index]? = some f.token := by
    intro tokens' hag
    have hstart : ParseState.Alongside ((Parser.ofTokens tokens limits).errorIndex root)
        (Parser.ofTokens tokens limits).tokens (Parser.ofTokens tokens' limits).tokens
        ⟨.ofTokens tokens, none⟩ ⟨.ofTokens tokens', none⟩ := by
      refine ⟨?_, ?_, Cursor.isIn_ofTokens _, Cursor.isIn_ofTokens _, rfl, nofun⟩
      · cases tokens <;> cases tokens' <;> rfl
      · cases tokens <;> exact Nat.zero_le _
    have hagree := (Simulation.ofAgreement hag hts limits).matchAt_agree root.root hstart root.accountable_root
    exact Parser.conclude_of_alongside hagree h hne fun f hf => (Parser.errorIndex_eq hf).ge
  refine ⟨?_, fun tokens' hag => (hall tokens' hag).1⟩
  obtain ⟨-, hplaced⟩ := hall tokens (fun _ _ _ => rfl)
  obtain ⟨f, hf⟩ := Parser.exists_furthest h
  have hindex : (Parser.ofTokens tokens limits).errorIndex root = f.index := Parser.errorIndex_eq hf
  rw [Parser.eq_of_conclude h hne, hf, hindex]
  exact hplaced f hf

/-- A call behind which a dot and a semicolon stand.  The error is reported at the dot, the second token.  The semicolon
counts as well, because a name in its place would go on with the reference; what stands behind it does not. -/
theorem parseRule_error_local_dot :
    ((Parser.ofTokens [.bare .identifier "a", .bare .dot ".", .bare .semicolon ";"] (.forDepth 4)).parseRule
        .callStatement).1 = .error (.unexpected ⟨.bare .dot ".", [";"], [.callStatement]⟩) ∧
    (Parser.ofTokens [.bare .identifier "a", .bare .dot ".", .bare .semicolon ";"] (.forDepth 4)).errorIndex
        .callStatement = 1 ∧
    ((Parser.ofTokens [.bare .identifier "a", .bare .dot ".", .bare .semicolon ";", .bare .identifier "b",
        .bare .comma ","] (.forDepth 4)).parseRule .callStatement).1 =
      .error (.unexpected ⟨.bare .dot ".", [";"], [.callStatement]⟩) := by
  have hparse : ((Parser.ofTokens [.bare .identifier "a", .bare .dot ".", .bare .semicolon ";"] (.forDepth 4)).parseRule
      .callStatement).1 = .error (.unexpected ⟨.bare .dot ".", [";"], [.callStatement]⟩) := by cbv
  have hindex : (Parser.ofTokens [.bare .identifier "a", .bare .dot ".", .bare .semicolon ";"] (.forDepth 4)).errorIndex
      .callStatement = 1 := by cbv
  refine ⟨hparse, hindex, (parseRule_error_local _ _ _ _ hparse).2 _ ?_⟩
  rw [hindex]
  intro i hi _
  interval_cases i <;> rfl

end PlsqlLint
