import PlsqlLint.Proofs.Equality
import PlsqlLint.Proofs.Lossless
import PlsqlLint.Proofs.Simulation

/-!
# Spelling does not matter to a parse

Two streams whose tokens have the same text one by one are parsed alike, wherever the tokens are and whatever stands
between them (`parseRule_sameText`).  Both parses are at the same place at every step, both see what they ask for or
neither does, and the failures they note are at the same place.  What was expected there may be spelled in two ways,
because a label is named as it was written.
-/

namespace PlsqlLint

/-! ### Places of a stream -/

/-- The cursor is a place of the stream. -/
def Cursor.IsIn (c : Cursor) (stream : List Token) : Prop := stream.drop c.index = c.tokens

namespace Cursor

variable {c : Cursor} {stream : List Token}

theorem isIn_ofTokens (tokens : List Token) : (ofTokens tokens).IsIn (ofTokens tokens).tokens := by
  cases tokens <;> rfl

theorem IsIn.current (h : c.IsIn stream) : stream[c.index]? = some c.current := by
  rw [← List.head?_drop, h]; rfl

theorem IsIn.advance (h : c.IsIn stream) : c.advance.IsIn stream := by
  obtain ⟨i, t, ts⟩ := c
  unfold Cursor.advance
  split
  · exact h
  · cases ts with
    | nil => exact h
    | cons u us =>
      show stream.drop (i + 1) = u :: us
      rw [← List.tail_drop, show stream.drop i = t :: u :: us from h, List.tail_cons]

end Cursor

/-! ### Streams of the same text -/

/-- The tokens of the streams have the same text one by one. -/
def SameTexts (ts us : List Token) : Prop := List.Forall₂ (fun t u => t.sameText u = true) ts us

namespace SameTexts

variable {t u : Token} {ts us : List Token}

private theorem getLastD (h : SameTexts (t :: ts) (u :: us)) : (ts.getLastD t).sameText (us.getLastD u) = true := by
  obtain ⟨ht, hs⟩ := List.forall₂_cons.1 h
  clear h
  induction hs generalizing t u with
  | nil => exact ht
  | cons ht' _ ih => simpa only [List.getLastD_cons] using ih ht'

private theorem ofTokens (h : SameTexts ts us) : SameTexts (Cursor.ofTokens ts).tokens (Cursor.ofTokens us).tokens := by
  cases h with
  | nil => exact .cons rfl .nil
  | cons ht hs =>
    have hlast := (Token.sameText_iff.1 (getLastD (.cons ht hs))).1
    refine .cons ht (List.rel_append hs ?_)
    unfold Cursor.closing
    rw [hlast]
    split
    · exact .nil
    · exact .cons rfl .nil

/-- The tokens at the same distance have the same text. -/
private theorem peek (h : SameTexts (t :: ts) (u :: us)) (i j n : Nat) :
    (Cursor.peek ⟨i, t, ts⟩ n).sameText (Cursor.peek ⟨j, u, us⟩ n) = true := by
  cases n with
  | zero => exact (List.forall₂_cons.1 h).1
  | succ n =>
    have hlast := h.getLastD
    obtain ⟨-, hs⟩ := List.forall₂_cons.1 h
    by_cases hn : n < ts.length
    · have hn' : n < us.length := hs.length_eq ▸ hn
      have hget := hs.get hn hn'
      simpa [Cursor.peek, hn, hn'] using hget
    · have hn' : ¬ n < us.length := hs.length_eq ▸ hn
      simpa [Cursor.peek, List.getElem?_eq_none (Nat.le_of_not_lt hn), List.getElem?_eq_none (Nat.le_of_not_lt hn')]
        using hlast

private theorem fits {c d : Cursor} (h : SameTexts c.tokens d.tokens) (n : Nat) (ks : List TokenClass) :
    c.fits n ks = d.fits n ks := by
  induction ks generalizing n with
  | nil => rfl
  | cons k ks ih => rw [Cursor.fits, Cursor.fits, ih, TokenClass.accepts_congr (h.peek c.index d.index n) k]

private theorem sees {c d : Cursor} (h : SameTexts c.tokens d.tokens) (ahead : Lookahead) :
    c.sees ahead = d.sees ahead := by
  unfold Cursor.sees
  congr 1
  funext ks
  exact h.fits 0 ks

end SameTexts

/-! ### What two parses say of the same place -/

/-- The tokens stand at the same place of two streams. -/
def Abreast (ts us : List Token) (t u : Token) : Prop := ∃ i : Nat, ts[i]? = some t ∧ us[i]? = some u

/-- Records of failures at the same place, in the same rules. -/
structure Furthest.Abreast (ts us : List Token) (f g : Furthest) : Prop where
  index : f.index = g.index
  rules : f.rules = g.rules
  left : ts[f.index]? = some f.token
  right : us[f.index]? = some g.token

/-- Which of two records is the further one is seen from their places alone. -/
theorem Furthest.abreast_note {ts us : List Token} {o o' : Option Furthest} {f g : Failure}
    (h : Option.Rel (Furthest.Abreast ts us) o o') (hindex : f.index = g.index) (hrules : f.rules = g.rules)
    (hleft : ts[f.index]? = some f.token) (hright : us[f.index]? = some g.token) :
    Option.Rel (Furthest.Abreast ts us) (Furthest.note o f) (Furthest.note o' g) := by
  cases h with
  | none => exact .some ⟨hindex, hrules, hleft, hright⟩
  | @some old old' hold =>
    obtain ⟨i, t, es, rs⟩ := old
    obtain ⟨_, t', es', rs'⟩ := old'
    obtain rfl := hold.index
    obtain ⟨j, u, e, ss⟩ := f
    obtain ⟨_, u', e', ss'⟩ := g
    obtain rfl := hindex
    unfold Furthest.note
    dsimp only
    split
    · exact .some hold
    · split
      · split <;> split <;> exact .some ⟨rfl, hold.rules, hold.left, hold.right⟩
      · exact .some ⟨rfl, hrules, hleft, hright⟩

/-- The same bound, exceeded at the same place. -/
structure Overrun.Abreast (ts us : List Token) (o p : Overrun) : Prop where
  bound : o.bound = p.bound
  place : ∃ t u, PlsqlLint.Abreast ts us t u ∧ o.line = t.line ∧ o.column = t.column ∧ p.line = u.line ∧
    p.column = u.column

/-- States at the same place, with records of failures at the same place. -/
structure ParseState.Abreast (ts us : List Token) (s t : ParseState) : Prop where
  index : s.cursor.index = t.cursor.index
  left : s.cursor.IsIn ts
  right : t.cursor.IsIn us
  furthest : Option.Rel (Furthest.Abreast ts us) s.furthest t.furthest

namespace ParseState.Abreast

variable {ts us : List Token} {s t s' t' : ParseState}

private theorem current (h : Abreast ts us s t) : PlsqlLint.Abreast ts us s.cursor.current t.cursor.current :=
  ⟨s.cursor.index, h.left.current, h.index ▸ h.right.current⟩

private theorem tokens (h : Abreast ts us s t) (hsame : SameTexts ts us) :
    SameTexts s.cursor.tokens t.cursor.tokens := by
  have hd := List.forall₂_drop s.cursor.index hsame
  rw [show us.drop s.cursor.index = t.cursor.tokens from h.index ▸ h.right] at hd
  rwa [show ts.drop s.cursor.index = s.cursor.tokens from h.left] at hd

private theorem backTo (h : Abreast ts us s t) (h' : Abreast ts us s' t') :
    Abreast ts us (s'.backTo s.cursor) (t'.backTo t.cursor) :=
  ⟨h.index, h.left, h.right, h'.furthest⟩

private theorem advance (h : Abreast ts us s t) (hsame : SameTexts ts us) :
    Abreast ts us (s.backTo s.cursor.advance) (t.backTo t.cursor.advance) := by
  refine ⟨?_, h.left.advance, h.right.advance, h.furthest⟩
  have htokens := h.tokens hsame
  obtain ⟨⟨i, a, as⟩, fs⟩ := s
  obtain ⟨⟨j, b, bs⟩, gs⟩ := t
  obtain rfl : i = j := h.index
  obtain ⟨hab, hrest⟩ := List.forall₂_cons.1 htokens
  show (Cursor.advance ⟨i, a, as⟩).index = (Cursor.advance ⟨i, b, bs⟩).index
  unfold Cursor.advance Cursor.atEnd
  rw [(Token.sameText_iff.1 hab).1]
  split
  · rfl
  · cases hrest <;> rfl

private theorem expecting (h : Abreast ts us s t) (rules : List Rule) (e e' : String) :
    Abreast ts us (s.expecting rules e) (t.expecting rules e') :=
  ⟨h.index, h.left, h.right, Furthest.abreast_note h.furthest h.index rfl h.left.current (h.index ▸ h.right.current)⟩

end ParseState.Abreast

/-- The records of two parses are reported at the same place and in the same rules. -/
theorem SyntaxError.ofFurthest_abreast {ts us : List Token} {o o' : Option Furthest} {t u : Token}
    (h : Option.Rel (Furthest.Abreast ts us) o o') (ht : Abreast ts us t u) :
    Abreast ts us (ofFurthest o t).token (ofFurthest o' u).token ∧
      (ofFurthest o t).rules = (ofFurthest o' u).rules := by
  cases h with
  | none => exact ⟨ht, rfl⟩
  | @some f g hfg => exact ⟨⟨f.index, hfg.left, hfg.right⟩, congrArg List.reverse hfg.rules⟩

/-! ### Labels -/

private theorem rel_getElem? {α : Type} {R : α → α → Prop} {as bs : List α} (h : List.Forall₂ R as bs) (i : Nat) :
    Option.Rel R as[i]? bs[i]? := by
  induction h generalizing i with
  | nil => exact .none
  | cons hab _ ih =>
    cases i with
    | zero => exact .some hab
    | succ i => exact ih i

/-- Equal trees give labels of the same text. -/
private theorem Matcher.labelName?_congr {xs ys : List Tree} (h : List.Forall₂ (fun a b => a.equal b = true) xs ys) :
    Option.Rel (fun t u => t.sameText u = true) (labelName? xs) (labelName? ys) := by
  unfold labelName?
  cases h with
  | nil => exact .none
  | @cons x y _ _ hxy _ =>
    rcases Tree.equal_cases hxy with ⟨s, t, rfl, rfl, -⟩ | ⟨r, sp, sp', as, bs, rfl, rfl, hc⟩
    · exact .none
    · have hname := rel_getElem? hc 1
      show Option.Rel _ (as[1]?.bind Tree.token?) (bs[1]?.bind Tree.token?)
      generalize as[1]? = a?, bs[1]? = b? at hname
      cases hname with
      | none => exact .none
      | some hab =>
        rcases Tree.equal_cases hab with ⟨s, t, rfl, rfl, hst⟩ | ⟨_, _, _, _, _, rfl, rfl, -⟩
        · exact .some hst
        · exact .none

/-! ### The two parses -/

/-- Two parses of streams of the same text. -/
def Simulation.ofSameTexts {ts us : List Token} (h : SameTexts ts us) (limits : Limits) : Simulation where
  limits₁ := limits
  limits₂ := limits
  token t u := t.sameText u = true
  tree a b := a.equal b = true
  state := ParseState.Abreast ts us
  overrun := Overrun.Abreast ts us
  gaveUp _ := False
  depth_le := Nat.le_refl _
  accepts := TokenClass.accepts_congr
  sameText := Token.sameText_congr
  leaf := by
    intro a b hab
    rwa [Tree.equal_leaf]
  ofRule _ hx _ := Tree.equal_ofRule hx _ _
  symbol := by
    intro a b hab r
    rcases Tree.equal_cases hab with ⟨s, t, rfl, rfl, -⟩ | ⟨_, _, _, _, _, rfl, rfl, -⟩ <;> rfl
  label := Matcher.labelName?_congr
  current hs := (List.forall₂_cons.1 (hs.tokens h)).1
  sees hs _ _ ahead _ := (hs.tokens h).sees ahead
  moved hs ht := by
    rw [(List.forall₂_cons.1 (hs.tokens h)).2.length_eq, (List.forall₂_cons.1 (ht.tokens h)).2.length_eq]
  back := ParseState.Abreast.backTo
  advance hs := .inr (hs.advance h)
  expecting hs rules e := hs.expecting rules e e
  expectingLabel hs _ rules := hs.expecting rules _ _
  room := by
    intro s t hs levels wanted rules left₁ left₂ _
    right
    rw [Nat.sub_self, Nat.add_zero]
    have hplace := hs.current
    unfold Matcher.shortage?
    dsimp only
    rw [hs.index]
    split
    · exact .some ⟨rfl, _, _, hplace, rfl, rfl, rfl, rfl⟩
    · split
      · exact .some ⟨rfl, _, _, hplace, rfl, rfl, rfl, rfl⟩
      · exact .none

/-- Results of parsing two streams that say the same: equal trees, a syntax error at the same place and in the same
rules, or the same bound exceeded at the same place. -/
inductive SameResult (ts us : List Token) : Except ParseError Tree → Except ParseError Tree → Prop
  | parsed {a b : Tree} (h : a.equal b = true) : SameResult ts us (.ok a) (.ok b)
  | unexpected {e f : SyntaxError} (ht : Abreast ts us e.token f.token) (hr : e.rules = f.rules) :
      SameResult ts us (.error (.unexpected e)) (.error (.unexpected f))
  | overrun {o p : Overrun} (h : Overrun.Abreast ts us o p) :
      SameResult ts us (.error (.overrun o)) (.error (.overrun p))

private theorem Parser.conclude_sameResult {ts us : List Token} {h : SameTexts ts us} {limits : Limits} {r₁ r₂ : Reply}
    (hr : (Simulation.ofSameTexts h limits).Agree r₁ r₂) : SameResult ts us (conclude r₁) (conclude r₂) := by
  have hreport : ∀ {s t : ParseState}, ParseState.Abreast ts us s t →
      SameResult ts us (.error (.unexpected (.ofFurthest s.furthest s.cursor.current)))
        (.error (.unexpected (.ofFurthest t.furthest t.cursor.current))) := by
    intro s t hs
    obtain ⟨htoken, hrules⟩ := SyntaxError.ofFurthest_abreast hs.furthest hs.current
    exact .unexpected htoken hrules
  cases hr with
  | @matched xs ys s t hx hs =>
    cases hx with
    | nil => exact hreport hs
    | cons hx _ =>
      have hend : s.cursor.atEnd = t.cursor.atEnd := by
        unfold Cursor.atEnd
        rw [(Token.sameText_iff.1 (List.forall₂_cons.1 (ParseState.Abreast.tokens hs h)).1).1]
      unfold conclude
      dsimp only
      rw [hend]
      split
      · exact .parsed hx
      · exact hreport (ParseState.Abreast.expecting hs [] _ _)
  | mismatch hs => exact hreport hs
  | fatal ho _ => exact .overrun ho
  | lost hl =>
    obtain ⟨_, _, -, ho⟩ := Horizon.eq_fatal_of_none hl
    exact ho.elim

/-- Token lists that have the same text one by one are parsed alike, whatever the places of the tokens and the trivia
before them: both parses succeed, with equal trees, or both fail, at the same place of the stream and for the same
reason. -/
theorem parseRule_sameText (tokens₁ tokens₂ : List Token) (h : SameTexts tokens₁ tokens₂) (limits : Limits)
    (root : Rule) :
    SameResult (Parser.ofTokens tokens₁ limits).tokens (Parser.ofTokens tokens₂ limits).tokens
      ((Parser.ofTokens tokens₁ limits).parseRule root).1 ((Parser.ofTokens tokens₂ limits).parseRule root).1 := by
  have hstart : ParseState.Abreast (Cursor.ofTokens tokens₁).tokens (Cursor.ofTokens tokens₂).tokens
      ⟨.ofTokens tokens₁, none⟩ ⟨.ofTokens tokens₂, none⟩ := by
    refine ⟨?_, Cursor.isIn_ofTokens _, Cursor.isIn_ofTokens _, .none⟩
    cases h <;> rfl
  have hagree := (Simulation.ofSameTexts h.ofTokens limits).matchAt_agree root.root hstart
  exact Parser.conclude_sameResult hagree

/-- A word that is not reserved is an operator however it is spelled. -/
theorem parseRule_sameText_mod :
    SameTexts
      [.bare .identifier "x", .bare .identifier "MOD", .bare .identifier "y"]
      [.bare .identifier "X", ⟨.identifier, "mod", ⟨⟨1, 2, 2⟩, ⟨1, 5, 5⟩⟩, []⟩, .bare .identifier "y"] ∧
    ∃ tree, ((Parser.ofTokens [.bare .identifier "X", ⟨.identifier, "mod", ⟨⟨1, 2, 2⟩, ⟨1, 5, 5⟩⟩, []⟩,
        .bare .identifier "y"] (.forDepth 3)).parseRule .multiplicativeExpression).1 = .ok tree ∧
      Tree.equal (.ofRule .multiplicativeExpression
        [.ofRule .variableName [.leaf (.bare .identifier "x")] default, .leaf (.bare .identifier "MOD"),
          .ofRule .variableName [.leaf (.bare .identifier "y")] default] default) tree = true := by
  have hsame : SameTexts
      [.bare .identifier "x", .bare .identifier "MOD", .bare .identifier "y"]
      [.bare .identifier "X", ⟨.identifier, "mod", ⟨⟨1, 2, 2⟩, ⟨1, 5, 5⟩⟩, []⟩, .bare .identifier "y"] :=
    .cons (by cbv) (.cons (by cbv) (.cons (by cbv) .nil))
  have hparse : ((Parser.ofTokens [.bare .identifier "x", .bare .identifier "MOD", .bare .identifier "y"]
      (.forDepth 3)).parseRule .multiplicativeExpression).1 = .ok (.ofRule .multiplicativeExpression
        [.ofRule .variableName [.leaf (.bare .identifier "x")] default, .leaf (.bare .identifier "MOD"),
          .ofRule .variableName [.leaf (.bare .identifier "y")] default] default) := by cbv
  have hresult := parseRule_sameText _ _ hsame (.forDepth 3) .multiplicativeExpression
  rw [hparse] at hresult
  generalize ((Parser.ofTokens [.bare .identifier "X", ⟨.identifier, "mod", ⟨⟨1, 2, 2⟩, ⟨1, 5, 5⟩⟩, []⟩,
    .bare .identifier "y"] (.forDepth 3)).parseRule .multiplicativeExpression).1 = result at hresult
  cases hresult with
  | parsed h => exact ⟨hsame, _, rfl, h⟩

end PlsqlLint
