import PlsqlLint.Proofs.Lexing
import PlsqlLint.Proofs.Subtree

/-!
# Spans and the text they stand for

The tokens of a text lie one behind the other (`Token.InOrder`), and the leaves of a parsed tree are some of them that
follow each other.  So the union of the spans of the children of a node reaches from the start of its first leaf to the
stop of its last (`Tree.AllSpanned.extent?_tokens`), and between the two offsets the text consists of the leaves and of
what stands between them (`parseRule_spans`).
-/

namespace PlsqlLint

/-! ### The order of positions -/

namespace Position

instance : LE Position where
  le p q := ¬ q < p

theorem lt_iff {p q : Position} : p < q ↔ p.line < q.line ∨
    p.line = q.line ∧ (p.column < q.column ∨ p.column = q.column ∧ p.offset < q.offset) := Iff.rfl

theorem le_iff {p q : Position} : p ≤ q ↔ ¬ q < p := Iff.rfl

private theorem le_trans {p q r : Position} (h : p ≤ q) (h' : q ≤ r) : p ≤ r := by
  rw [le_iff, lt_iff] at *
  omega

private theorem le_antisymm {p q : Position} (h : p ≤ q) (h' : q ≤ p) : p = q := by
  obtain ⟨l, c, o⟩ := p
  obtain ⟨l', c', o'⟩ := q
  rw [le_iff, lt_iff] at h h'
  dsimp only at h h'
  obtain ⟨rfl, rfl, rfl⟩ : l = l' ∧ c = c' ∧ o = o' := by omega
  rfl

private theorem le_next (p : Position) (c : Char) : p ≤ p.next c := by
  rw [le_iff, lt_iff]
  unfold next
  split
  · dsimp only
    omega
  · dsimp only
    omega

/-- Reading some text leads from the one position to the other. -/
def Reaches (p q : Position) : Prop := ∃ cs, q = p.after cs

namespace Reaches

variable {p q r : Position}

theorem refl (p : Position) : p.Reaches p := ⟨[], rfl⟩

theorem trans (h : p.Reaches q) (h' : q.Reaches r) : p.Reaches r := by
  obtain ⟨cs, rfl⟩ := h
  obtain ⟨ds, rfl⟩ := h'
  exact ⟨cs ++ ds, (after_append p cs ds).symm⟩

theorem le (h : p.Reaches q) : p ≤ q := by
  obtain ⟨cs, rfl⟩ := h
  induction cs generalizing p with
  | nil =>
    rw [after_nil, le_iff, lt_iff]
    omega
  | cons c cs ih => exact le_trans (p.le_next c) ih

theorem offset_le (h : p.Reaches q) : p.offset ≤ q.offset := by
  obtain ⟨cs, rfl⟩ := h
  rw [offset_after]
  omega

private theorem earlier_eq (h : p.Reaches q) : p.earlier q = p := if_neg h.le

private theorem later_eq (h : p.Reaches q) : p.later q = q := by
  unfold later
  split
  · rfl
  · rename_i hlt
    exact le_antisymm h.le hlt

end Reaches

end Position

/-! ### Tokens that follow each other -/

namespace Token

/-- The tokens lie one behind the other. -/
structure InOrder (ts : List Token) : Prop where
  each : ∀ t ∈ ts, t.span.start.Reaches t.span.stop
  apart : ts.Pairwise fun t u => t.span.stop.Reaches u.span.start

theorem InOrder.of_isInfix {ts us : List Token} (h : InOrder us) (hts : ts <:+: us) : InOrder ts :=
  ⟨fun t ht => h.each t (hts.subset ht), h.apart.sublist hts.sublist⟩

/-- The stretch from the start of the first token to the stop of the last. -/
def extent? (ts : List Token) : Option Span :=
  ts.head?.bind fun first => ts.getLast?.map fun last => ⟨first.span.start, last.span.stop⟩

theorem extent?_eq_some {ts : List Token} {s : Span} : extent? ts = some s ↔
    ∃ first last, ts.head? = some first ∧ ts.getLast? = some last ∧ s = ⟨first.span.start, last.span.stop⟩ := by
  simp only [extent?, Option.bind_eq_some_iff, Option.map_eq_some_iff]
  constructor
  · rintro ⟨first, hf, last, hl, hs⟩
    exact ⟨first, last, hf, hl, hs.symm⟩
  · rintro ⟨first, last, hf, hl, rfl⟩
    exact ⟨first, hf, last, hl, rfl⟩

/-- The extent of two stretches of tokens is the union of theirs. -/
private theorem InOrder.extent?_append {ts us : List Token} (h : InOrder (ts ++ us)) {s s' : Span}
    (hs : extent? ts = some s) (hs' : extent? us = some s') : extent? (ts ++ us) = some (s.union s') := by
  obtain ⟨a, b, ha, hb, rfl⟩ := extent?_eq_some.1 hs
  obtain ⟨c, d, hc, hd, rfl⟩ := extent?_eq_some.1 hs'
  have hab := List.pairwise_append.1 h.apart
  have ha' : a ∈ ts := List.mem_of_mem_head? ha
  have hb' : b ∈ ts := List.mem_of_getLast? hb
  have hc' : c ∈ us := List.mem_of_mem_head? hc
  have hd' : d ∈ us := List.mem_of_getLast? hd
  have hstart : a.span.start.Reaches c.span.start :=
    (h.each a (List.mem_append_left _ ha')).trans (hab.2.2 a ha' c hc')
  have hstop : b.span.stop.Reaches d.span.stop :=
    (hab.2.2 b hb' d hd').trans (h.each d (List.mem_append_right _ hd'))
  refine extent?_eq_some.2 ⟨a, d, ?_, ?_, ?_⟩
  · rw [List.head?_append, ha, Option.some_or]
  · rw [List.getLast?_append, hd, Option.some_or]
  · rw [Span.union, hstart.earlier_eq, hstop.later_eq]

end Token

/-! ### The span of a tree -/

namespace Tree

/-- The span of the root is the union of the spans of its children, of which there are some, unless it is a leaf. -/
def Spanned : Tree → Prop
  | .leaf _ => True
  | .node _ sp ts => Span.unionAll? (ts.map span) = some sp

/-- The same for the tree and all trees below it. -/
def AllSpanned (t : Tree) : Prop := ∀ u ∈ t.descendants, u.Spanned

theorem allSpanned_node {r : Rule} {sp : Span} {ts : List Tree} :
    (Tree.node r sp ts).AllSpanned ↔ Span.unionAll? (ts.map span) = some sp ∧ ∀ t ∈ ts, t.AllSpanned := by
  simp only [AllSpanned, descendants_node, List.forall_mem_cons, List.forall_mem_flatMap, Spanned]

private theorem AllSpanned.tokens_ne_nil {t : Tree} (h : t.AllSpanned) : t.tokens ≠ [] := by
  induction t with
  | leaf token => simp
  | node r sp ts ih =>
    rw [allSpanned_node] at h
    cases ts with
    | nil => cases h.1
    | cons t ts =>
      rw [tokens_node, leaves_cons]
      exact List.append_ne_nil_of_left_ne_nil (ih t List.mem_cons_self (h.2 t List.mem_cons_self)) _

/-- Going to the first child again and again ends in the first leaf. -/
theorem AllSpanned.firstToken?_eq {t : Tree} (h : t.AllSpanned) : t.firstToken? = t.tokens.head? := by
  induction t with
  | leaf token => simp [firstToken?]
  | node r sp ts ih =>
    rw [allSpanned_node] at h
    cases ts with
    | nil => cases h.1
    | cons t ts =>
      have ht := h.2 t List.mem_cons_self
      obtain ⟨first, rest, hcons⟩ := List.exists_cons_of_ne_nil ht.tokens_ne_nil
      rw [firstToken?, ih t List.mem_cons_self ht, tokens_node, leaves_cons, hcons]
      rfl

private theorem extent?_leaves {w : List Token} {s : Span} {ts : List Tree} (hs : Token.extent? w = some s)
    (hts : ∀ t ∈ ts, Token.extent? t.tokens = some t.span) (ho : Token.InOrder (w ++ leaves ts)) :
    Token.extent? (w ++ leaves ts) = some ((ts.map span).foldl Span.union s) := by
  induction ts generalizing w s with
  | nil => simpa using hs
  | cons t ts ih =>
    rw [List.forall_mem_cons] at hts
    rw [leaves_cons, ← List.append_assoc] at ho ⊢
    have hboth := (ho.of_isInfix (List.prefix_append _ _).isInfix).extent?_append hs hts.1
    exact ih hboth hts.2 ho

/-- A tree reaches from the start of its first leaf to the stop of its last. -/
theorem AllSpanned.extent?_tokens {t : Tree} (h : t.AllSpanned) (ho : Token.InOrder t.tokens) :
    Token.extent? t.tokens = some t.span := by
  induction t with
  | leaf token => rw [tokens_leaf]; rfl
  | node r sp ts ih =>
    rw [allSpanned_node] at h
    rw [tokens_node] at ho ⊢
    have hts : ∀ t ∈ ts, Token.extent? t.tokens = some t.span := by
      intro t ht
      obtain ⟨before, behind, rfl⟩ := List.append_of_mem ht
      refine ih t ht (h.2 t ht) (ho.of_isInfix ⟨leaves before, leaves behind, ?_⟩)
      simp
    cases ts with
    | nil => cases h.1
    | cons t ts =>
      rw [List.forall_mem_cons] at hts
      rw [leaves_cons] at ho ⊢
      rw [extent?_leaves hts.1 hts.2 ho]
      exact h.1

/-- Of two children next to each other, the first stops before the second starts. -/
theorem AllSpanned.siblings {t : Tree} (h : t.AllSpanned) (ho : Token.InOrder t.tokens) {a b : Tree}
    {before behind : List Tree} (hc : t.children = before ++ a :: b :: behind) :
    a.span.stop.Reaches b.span.start := by
  cases t with
  | leaf token => exact absurd hc.symm (by simp [children])
  | node r sp ts =>
    obtain rfl : ts = before ++ a :: b :: behind := hc
    rw [allSpanned_node] at h
    have hsplit : leaves (before ++ a :: b :: behind) = leaves before ++ (a.tokens ++ b.tokens) ++ leaves behind := by
      simp
    rw [tokens_node, hsplit] at ho
    have hboth : Token.InOrder (a.tokens ++ b.tokens) := ho.of_isInfix ⟨_, _, rfl⟩
    have ha := (h.2 a (by simp)).extent?_tokens (hboth.of_isInfix (List.prefix_append _ _).isInfix)
    have hb := (h.2 b (by simp)).extent?_tokens (hboth.of_isInfix (List.suffix_append _ _).isInfix)
    obtain ⟨_, last, -, hlast, hspan⟩ := Token.extent?_eq_some.1 ha
    obtain ⟨first, _, hfirst, -, hspan'⟩ := Token.extent?_eq_some.1 hb
    rw [hspan, hspan']
    have hapart := (List.pairwise_append.1 hboth.apart).2.2
    exact hapart last (List.mem_of_getLast? hlast) first (List.mem_of_mem_head? hfirst)

theorem tokens_isInfix {t u : Tree} (hu : u ∈ t.descendants) : u.tokens <:+: t.tokens := by
  induction t with
  | leaf token =>
    rw [descendants_leaf] at hu
    rw [List.mem_singleton.1 hu]
  | node r sp ts ih =>
    rw [descendants_node] at hu
    rcases List.mem_cons.1 hu with rfl | hu
    · exact List.infix_refl _
    · obtain ⟨t, ht, hut⟩ := List.mem_flatMap.1 hu
      obtain ⟨before, behind, rfl⟩ := List.append_of_mem ht
      refine (ih t ht hut).trans ⟨leaves before, leaves behind, ?_⟩
      simp

end Tree

/-- What holds of leaves, and of nodes if it holds of their children, holds of all that is read. -/
theorem Reads.forall_trees {P : Tree → Prop} (hleaf : ∀ t, P (.leaf t))
    (hnode : ∀ r xs p, (∀ x ∈ xs, P x) → P (.ofRule r xs p)) {n : Nat} {task : Task} {l : List Tree} {ts : List Token}
    {o : Reading} (h : Reads n task l ts o) {xs : List Tree} {us : List Token} (ho : o = some (xs, us))
    (hl : ∀ t ∈ l, P t) : ∀ t ∈ xs, P t := by
  have hcollapsed : ∀ r ys p, (∀ y ∈ ys, P y) → P (.collapsed r ys p) := by
    intro r ys p hys
    unfold Tree.collapsed
    split
    · exact hys _ (by simp)
    · exact hnode r _ p hys
  induction h generalizing xs us with
  | empty | room _ | manyStop _ _ | labelAbsent _ => cases ho; simp
  | take _ _ | advance _ | label _ _ _ _ => cases ho; simpa using hleaf _
  | seq _ _ hz iha ihb =>
    cases ho
    subst hz
    rw [List.forall_mem_append]
    exact ⟨iha rfl hl, ihb rfl hl⟩
  | manyMore _ _ _ hz iha ihm =>
    cases ho
    subst hz
    rw [List.forall_mem_append]
    exact ⟨iha rfl hl, ihm rfl hl⟩
  | orFirst _ iha => exact iha ho hl
  | orSecond _ _ _ ihb => exact ihb ho hl
  | manyOnce _ _ iha => exact iha ho hl
  | nextYes _ _ iha => exact iha ho hl
  | nextNo _ _ ihb => exact ihb ho hl
  | within _ iha => exact iha ho hl
  | node _ hz iha =>
    cases ho
    subst hz
    simpa using hnode _ _ _ (iha rfl hl)
  | collapse _ hz iha =>
    cases ho
    subst hz
    simpa using hcollapsed _ _ _ (iha rfl hl)
  | @call n r l ts ys us zs _ hz iha =>
    cases ho
    subst hz
    have hys := iha rfl (by simp)
    rw [List.forall_mem_singleton, Rule.build]
    split
    · exact hcollapsed _ _ _ hys
    · exact hnode _ _ _ hys
  | only _ _ iha => exact iha ho hl
  | last _ hz iha =>
    cases ho
    subst hz
    intro t ht
    exact iha rfl hl t (List.mem_of_getLast? (by simpa using ht))
  | onto _ _ iha ihb => exact ihb ho (iha rfl hl)
  | left | linksStop _ => cases ho; exact hl
  | chain _ _ iha ihl => exact ihl ho (iha rfl hl)
  | linksMore _ _ _ _ _ iha ihm => exact ihm ho (iha rfl hl)
  | linksOnce _ _ _ _ iha => exact iha ho hl
  | _ => cases ho

/-- The root of a parse has the spans of its leaves everywhere. -/
theorem Reads.allSpanned {n : Nat} {root : Rule} {t : Tree} {ts us : List Token}
    (h : Reads n root.root [] ts (some ([t], us))) : t.AllSpanned := by
  have hshaped : t.WellShaped := h.wellShaped rfl root.proper_root rfl (by simp) t (by simp)
  have hjoined : ∀ u ∈ t.descendants, u.shaped = true → u.Spanned := by
    refine h.forall_trees (P := fun t => ∀ u ∈ t.descendants, u.shaped = true → u.Spanned) ?_ ?_ rfl (by simp) t
      (by simp)
    · intro token u hu _
      rw [Tree.descendants_leaf] at hu
      rw [List.mem_singleton.1 hu]
      trivial
    · intro r xs p hxs u hu hu'
      rw [Tree.ofRule, Tree.descendants_node] at hu
      rcases List.mem_cons.1 hu with rfl | hu
      · -- A node with children takes its span from them, not from the place where it is built.
        cases xs with
        | nil => cases hu'
        | cons x xs => rfl
      · obtain ⟨x, hx, hux⟩ := List.mem_flatMap.1 hu
        exact hxs x hx u hux hu'
  exact fun u hu => hjoined u hu (hshaped u hu)

/-! ### The text between two places -/

namespace Lexer

variable {a b c : Lexer}

private theorem Moves.reaches {cs : List Char} (h : a.Moves cs b) : a.position.Reaches b.position := ⟨cs, h.position⟩

namespace Covers

variable {ps qs : List Piece} {p : Piece}

private theorem split (h : a.Covers (ps ++ qs) c) : ∃ b, a.Covers ps b ∧ b.Covers qs c := by
  induction ps generalizing a with
  | nil => exact ⟨a, .nil, h⟩
  | cons p ps ih =>
    cases h with
    | cons hm h =>
      obtain ⟨b, hb, hc⟩ := ih h
      exact ⟨b, .cons hm hb, hc⟩

private theorem start_eq (h : a.Covers (p :: ps) b) : p.span.start = a.position := by
  cases h with
  | cons hm h => rfl

private theorem stop_eq (h : a.Covers (ps ++ [p]) b) : p.span.stop = b.position := by
  obtain ⟨x, -, hx⟩ := h.split
  cases hx with
  | cons hm h =>
    cases h
    rfl

private theorem reaches (h : a.Covers (p :: ps) b) : p.span.start.Reaches p.span.stop := by
  cases h with
  | cons hm h => exact hm.reaches

end Covers

/-- A token lies on the way of the call that finds it, at its end. -/
theorem Takes.place {t : Token} (h : a.Takes t b) :
    a.position.Reaches t.span.start ∧ t.span.start.Reaches t.span.stop ∧ t.span.stop = b.position := by
  have hstop := h.covers.stop_eq
  obtain ⟨x, hx, hlast⟩ := h.covers.split
  refine ⟨?_, hlast.reaches, hstop⟩
  rw [hlast.start_eq]
  exact hx.moves.reaches

/-- The tokens of a text lie one behind the other. -/
theorem TakesAll.inOrder {ts : List Token} (h : TakesAll a ts b) :
    Token.InOrder ts ∧ ∀ t ∈ ts, a.position.Reaches t.span.start := by
  induction h with
  | @last a t b h ht =>
    obtain ⟨hstart, heach, -⟩ := h.place
    refine ⟨⟨by simpa using heach, List.pairwise_singleton _ _⟩, by simpa using hstart⟩
  | @cons a t b ts c h ht _ ih =>
    obtain ⟨hstart, heach, hstop⟩ := h.place
    refine ⟨⟨List.forall_mem_cons.2 ⟨heach, ih.1.each⟩, List.pairwise_cons.2 ⟨?_, ih.1.apart⟩⟩, ?_⟩
    · rw [hstop]
      exact ih.2
    · rw [List.forall_mem_cons]
      refine ⟨hstart, ?_⟩
      intro u hu
      have hb : a.position.Reaches b.position := by
        rw [← hstop]
        exact hstart.trans heach
      exact hb.trans (ih.2 u hu)

end Lexer

/-- The literals of the tokens, each but the first behind its trivia. -/
def Token.source : List Token → String
  | [] => ""
  | t :: ts => t.literal ++ String.join (ts.map fun u => String.join (u.trivia.map (·.text)) ++ u.literal)

private theorem Token.toList_source (t : Token) (ts : List Token) :
    (source (t :: ts)).toList = ((⟨t.literal, t.span⟩ : Piece) :: ts.flatMap pieces).flatMap (·.text.toList) := by
  simp [source, pieces, Trivia.piece, String.toList_join, List.flatMap_map, List.flatMap_assoc]

/-- The last piece of a stretch of tokens is its last token. -/
private theorem Token.exists_concat_pieces {t last : Token} {ts : List Token} (h : (t :: ts).getLast? = some last) :
    ∃ ps, (⟨t.literal, t.span⟩ : Piece) :: ts.flatMap pieces = ps ++ [⟨last.literal, last.span⟩] := by
  rcases List.eq_nil_or_concat ts with rfl | ⟨us, u, rfl⟩
  · cases h
    exact ⟨[], rfl⟩
  · rw [List.concat_eq_append, ← List.cons_append, List.getLast?_concat] at h
    cases h
    refine ⟨⟨t.literal, t.span⟩ :: (us.flatMap pieces ++ last.trivia.map Trivia.piece), ?_⟩
    simp [pieces]

/-- A stretch of the tokens of a text is written in the text from its start to its stop. -/
theorem Lexer.TakesAll.source {a b : Lexer} {ts : List Token} (h : TakesAll a ts b) {w : List Token} (hw : w <:+: ts)
    {s : Span} (hs : Token.extent? w = some s) :
    ∃ before behind x y, a.Moves before x ∧ x.Moves (Token.source w).toList y ∧ y.Moves behind b ∧
      x.position = s.start ∧ y.position = s.stop := by
  obtain ⟨first, last, hfirst, hlast, rfl⟩ := Token.extent?_eq_some.1 hs
  obtain ⟨us, vs, rfl⟩ := hw
  obtain ⟨rest, rfl⟩ := List.head?_eq_some_iff.1 hfirst
  have hpieces : (us ++ first :: rest ++ vs).flatMap Token.pieces =
      (us.flatMap Token.pieces ++ first.trivia.map Trivia.piece) ++
        (((⟨first.literal, first.span⟩ : Piece) :: rest.flatMap Token.pieces) ++ vs.flatMap Token.pieces) := by
    simp [Token.pieces]
  have hcovers := h.covers
  rw [hpieces] at hcovers
  obtain ⟨x, hax, hxb⟩ := hcovers.split
  obtain ⟨y, hxy, hyb⟩ := hxb.split
  have hmoves := hxy.moves
  rw [← Token.toList_source] at hmoves
  refine ⟨_, _, x, y, hax.moves, hmoves, hyb.moves, hxy.start_eq.symm, ?_⟩
  obtain ⟨ps, hps⟩ := Token.exists_concat_pieces hlast
  rw [hps] at hxy
  exact hxy.stop_eq.symm

/-- What lies between two offsets of a text. -/
private theorem extract_toUTF8 (before middle behind : String) :
    (before ++ middle ++ behind).toUTF8.extract before.utf8ByteSize (before.utf8ByteSize + middle.utf8ByteSize) =
      middle.toUTF8 := by
  simp only [String.toUTF8, String.toByteArray_append, ByteArray.append_assoc]
  rw [← String.size_toByteArray, ← String.size_toByteArray]
  have hskip := ByteArray.extract_append_size_add (a := before.toByteArray)
    (b := middle.toByteArray ++ behind.toByteArray) (i := 0) (j := middle.toByteArray.size)
  rw [Nat.add_zero] at hskip
  rw [hskip, ByteArray.extract_append_eq_left rfl]

/-- A stretch of the tokens of a text is what stands between the two offsets of its extent. -/
theorem Lexer.TakesAll.extract_eq {text : String} {b : Lexer} {ts : List Token} (h : TakesAll (.ofText text) ts b)
    {w : List Token} (hw : w <:+: ts) {s : Span} (hs : Token.extent? w = some s) :
    s.start ≤ s.stop ∧ s.stop.offset ≤ text.utf8ByteSize ∧
      text.toUTF8.extract s.start.offset s.stop.offset = (Token.source w).toUTF8 := by
  obtain ⟨before, behind, x, y, hax, hxy, hyb, hx, hy⟩ := h.source hw hs
  have htext : text = String.ofList before ++ Token.source w ++ String.ofList behind := by
    have hrest : text.toList = before ++ (Token.source w).toList ++ behind ++ b.rest :=
      ((hax.trans hxy).trans hyb).rest
    rw [h.rest_eq, List.append_nil] at hrest
    rw [← String.toList_inj]
    simpa using hrest
  have hstart : s.start.offset = (String.ofList before).utf8ByteSize := by
    rw [← hx, hax.position, Position.offset_after]
    exact Nat.zero_add _
  have hstop : s.stop.offset = (String.ofList before).utf8ByteSize + (Token.source w).utf8ByteSize := by
    rw [← hy, hxy.position, Position.offset_after, String.ofList_toList, hx, hstart]
  refine ⟨?_, ?_, ?_⟩
  · rw [← hx, ← hy]
    exact hxy.reaches.le
  · rw [hstop, htext, String.utf8ByteSize_append, String.utf8ByteSize_append]
    omega
  · rw [hstart, hstop]
    conv_lhs => rw [htext]
    exact extract_toUTF8 _ _ _

/-! ### Whole parses -/

/-- The leaves of the root of a parse are the tokens from the first on. -/
theorem Reads.tokens_isInfix {n : Nat} {root : Rule} {t : Tree} {ts us : List Token}
    (h : Reads n root.root [] ts (some ([t], us))) (hts : Terminated ts) : t.tokens <:+: ts := by
  by_cases hr : root = .fileInput
  · subst hr
    obtain ⟨w, e, rest, hw, rfl, hleaves⟩ := h.consumes_unit hts
    have htokens : t.tokens = w ++ [e] := by simpa using hleaves
    exact ⟨[], rest, by simp [hw.split, htokens]⟩
  · obtain ⟨w, hw, hleaves⟩ := h.consumes (b := false) rfl (root.lossless_root hr) hts
    have htokens : t.tokens = w := by simpa using hleaves
    exact ⟨[], us, by simp [hw.split, htokens]⟩

/-- The leaves of a parsed tree follow each other among the tokens of the text, and its nodes span them. -/
theorem Parser.exists_takesAll {text : String} {limits : Limits} {p : Parser} (hp : Parser.ofText text limits = .ok p)
    {root : Rule} {tree : Tree} (h : (p.parseRule root).1 = .ok tree) :
    ∃ ts b, Lexer.TakesAll (.ofText text) ts b ∧ tree.tokens <:+: ts ∧ tree.AllSpanned := by
  unfold Parser.ofText at hp
  split at hp
  · rename_i ts htokens
    cases hp
    obtain ⟨b, hall⟩ := Lexer.tokens_takesAll htokens
    obtain ⟨body, last, rfl, hend, -⟩ := hall.closed
    obtain ⟨more, e, rest, hread, -⟩ := Parser.reads_of_parseRule h
    obtain ⟨t, ht⟩ := hread.root_tree
    obtain ⟨rfl, rfl⟩ := List.cons.inj ht
    have hinfix := hread.tokens_isInfix (terminated_ofTokens _)
    rw [Parser.tokens_ofTokens_concat hend] at hinfix
    exact ⟨_, b, hall, hinfix, hread.allSpanned⟩
  · cases hp

/-- Spans identify source text.  Each node of a parsed tree reaches from the start of its first leaf to the stop of its
last; of two children next to each other, the first stops before the second starts; going to the first child again and
again leads to the first leaf; and between the two offsets of the span, the text consists of the literals of the leaves,
each but the first behind its trivia. -/
theorem parseRule_spans (text : String) (limits : Limits) (p : Parser) (hp : Parser.ofText text limits = .ok p)
    (root : Rule) (tree : Tree) (h : (p.parseRule root).1 = .ok tree) (u : Tree) (hu : u ∈ tree.descendants) :
    (∃ first last, u.tokens.head? = some first ∧ u.tokens.getLast? = some last ∧
      u.span = ⟨first.span.start, last.span.stop⟩) ∧
    (∀ before a b behind, u.children = before ++ a :: b :: behind →
      a.span.stop ≤ b.span.start ∧ a.span.stop.offset ≤ b.span.start.offset) ∧
    u.firstToken? = u.tokens.head? ∧
    u.span.start ≤ u.span.stop ∧ u.span.stop.offset ≤ text.utf8ByteSize ∧
    text.toUTF8.extract u.span.start.offset u.span.stop.offset = (Token.source u.tokens).toUTF8 := by
  obtain ⟨ts, b, hall, hinfix, hspanned⟩ := Parser.exists_takesAll hp h
  have huts : u.tokens <:+: ts := (Tree.tokens_isInfix hu).trans hinfix
  have horder : Token.InOrder u.tokens := hall.inOrder.1.of_isInfix huts
  have hall' : u.AllSpanned := fun v hv => hspanned v (Tree.mem_descendants_trans hu hv)
  have hextent := hall'.extent?_tokens horder
  refine ⟨Token.extent?_eq_some.1 hextent, ?_, hall'.firstToken?_eq, hall.extract_eq huts hextent⟩
  intro before a b behind hc
  have hsiblings := hall'.siblings horder hc
  exact ⟨hsiblings.le, hsiblings.offset_le⟩

/-- A member behind a sign, with a comment in front of its dot. -/
theorem parseRule_spans_member :
    let comment : Trivia := ⟨.lineComment, "--", ⟨⟨1, 2, 3⟩, ⟨1, 4, 5⟩⟩⟩
    let newline : Trivia := ⟨.whitespace, "\n", ⟨⟨1, 4, 5⟩, ⟨2, 0, 6⟩⟩⟩
    let sign : Token := ⟨.plus, "+", ⟨⟨1, 0, 0⟩, ⟨1, 1, 1⟩⟩, []⟩
    let owner : Token := ⟨.identifier, "é", ⟨⟨1, 1, 1⟩, ⟨1, 2, 3⟩⟩, []⟩
    let dot : Token := ⟨.dot, ".", ⟨⟨2, 0, 6⟩, ⟨2, 1, 7⟩⟩, [comment, newline]⟩
    let name : Token := ⟨.identifier, "b", ⟨⟨2, 1, 7⟩, ⟨2, 2, 8⟩⟩, []⟩
    let p := Parser.ofTokens [sign, owner, dot, name, .endAt ⟨2, 2, 8⟩] (.forDepth 16)
    let member : Tree :=
      .ofRule .memberExpression [.ofRule .variableName [.leaf owner] default, .leaf dot, .leaf name] default
    let root : Tree := .ofRule .unaryExpression [.leaf sign, member] default
    Parser.ofText "+é--\n.b" (.forDepth 16) = .ok p ∧ (p.parseRule .unaryExpression).1 = .ok root ∧
    member ∈ root.descendants ∧ "+é--\n.b".toUTF8.extract 1 8 = "é--\n.b".toUTF8 := by
  intro comment newline sign owner dot name p member root
  have htokens : tokenize "+é--\n.b" = .ok [sign, owner, dot, name, .endAt ⟨2, 2, 8⟩] := by
    decide +kernel
  have hp : Parser.ofText "+é--\n.b" (.forDepth 16) = .ok p := by rw [Parser.ofText, htokens]
  have hroot : (p.parseRule .unaryExpression).1 = .ok root := by
    dsimp only [p, root, member, sign, owner, dot, name, comment, newline]
    cbv
  have hmember : member ∈ root.descendants :=
    Tree.mem_descendants_ofRule (List.mem_cons_of_mem _ List.mem_cons_self) (Tree.mem_descendants_self _)
  have hsource : Token.source member.tokens = "é--\n.b" := by
    simp [member, Token.source, owner, dot, name, comment, newline]
  obtain ⟨-, -, -, -, -, hextract⟩ := parseRule_spans _ _ p hp _ root hroot member hmember
  rw [hsource] at hextract
  exact ⟨hp, hroot, hmember, hextract⟩

end PlsqlLint
