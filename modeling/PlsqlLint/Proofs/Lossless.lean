import Mathlib
import PlsqlLint.Proofs.Adequacy
import PlsqlLint.Tree.Traversal

/-!
# Parsing loses nothing

The leaves of the trees that a pattern yields are the tokens that it reads, each once and in the same order, behind the
leaves of the trees in front if the pattern builds onto them (`Reads.consumes`).  Whether a pattern does so can be seen
from the pattern alone (`Pattern.lossless`), and every rule but the unit does.  A unit reads the end of the input as
well, without passing it.
-/

namespace PlsqlLint

/-! ### The leaves of trees -/

namespace Tree

theorem listing_append (ts us : List Tree) : listing (ts ++ us) = listing ts ++ listing us := by
  induction hk : sizeAll ts using Nat.strongRecOn generalizing ts with
  | ind k ih =>
  subst hk
  cases ts with
  | nil => rw [listing]; rfl
  | cons t ts =>
    have hlt : sizeAll (t.children ++ ts) < sizeAll (t :: ts) := by
      have := sizeAll_children_lt t
      rw [sizeAll_append, sizeAll]; omega
    rw [List.cons_append, listing, listing, ← List.append_assoc, ih _ hlt _ rfl, List.cons_append]

/-- The tokens of the leaves of several trees. -/
def leaves (ts : List Tree) : List Token := ts.flatMap tokens

@[simp] theorem leaves_nil : leaves [] = [] := rfl

@[simp] theorem leaves_cons (t : Tree) (ts : List Tree) : leaves (t :: ts) = t.tokens ++ leaves ts := rfl

@[simp] theorem leaves_append (ts us : List Tree) : leaves (ts ++ us) = leaves ts ++ leaves us :=
  List.flatMap_append

private theorem filterMap_listing (ts : List Tree) : (listing ts).filterMap token? = leaves ts := by
  induction ts with
  | nil => rw [listing]; rfl
  | cons t ts ih =>
    rw [← List.singleton_append, listing_append, List.filterMap_append, ih]
    rfl

theorem descendants_leaf (t : Token) : (Tree.leaf t).descendants = [.leaf t] := by
  rw [descendants, listing, children, List.nil_append, listing]

@[simp] theorem tokens_leaf (t : Token) : (Tree.leaf t).tokens = [t] := by
  rw [tokens, descendants_leaf]
  rfl

@[simp] theorem tokens_node (r : Rule) (sp : Span) (ts : List Tree) : (Tree.node r sp ts).tokens = leaves ts := by
  rw [tokens, descendants, listing, children, List.append_nil, List.filterMap_cons, token?, filterMap_listing]

@[simp] theorem tokens_ofRule (r : Rule) (ts : List Tree) (p : Position) : (ofRule r ts p).tokens = leaves ts :=
  tokens_node ..

@[simp] theorem tokens_collapsed (r : Rule) (ts : List Tree) (p : Position) :
    (collapsed r ts p).tokens = leaves ts := by
  unfold collapsed
  split
  · simp
  · exact tokens_ofRule ..

@[simp] theorem tokens_build (r : Rule) (ts : List Tree) (p : Position) : (r.build ts p).tokens = leaves ts := by
  unfold Rule.build
  split
  · exact tokens_collapsed ..
  · exact tokens_ofRule ..

end Tree

/-! ### Streams and what is taken from them -/

/-- The stream ends with the end of the input. -/
def Terminated (ts : List Token) : Prop := ∃ e, ts.getLast? = some e ∧ e.terminal = .endOfInput

theorem terminated_ofTokens (tokens : List Token) : Terminated (Cursor.ofTokens tokens).tokens := by
  cases tokens with
  | nil => exact ⟨.endAt default, rfl, rfl⟩
  | cons t ts =>
    show Terminated (t :: (ts ++ Cursor.closing (ts.getLastD t)))
    unfold Cursor.closing
    split
    · rename_i h
      exact ⟨ts.getLastD t, by rw [List.append_nil, List.getLast?_cons, List.getLastD_eq_getLast?], h⟩
    · exact ⟨.endAt (ts.getLastD t).span.stop, by rw [← List.cons_append, List.getLast?_concat], rfl⟩

/-- A list without the end of the input is closed with it. -/
theorem Parser.tokens_ofTokens {tokens : List Token} (h : ∀ t ∈ tokens, t.terminal ≠ .endOfInput) (limits : Limits) :
    ∃ e, e.terminal = .endOfInput ∧ (Parser.ofTokens tokens limits).tokens = tokens ++ [e] := by
  cases tokens with
  | nil => exact ⟨.endAt default, rfl, rfl⟩
  | cons t ts =>
    have hlast : (ts.getLastD t).terminal ≠ .endOfInput := by
      refine h _ (List.mem_of_getLast? ?_)
      rw [List.getLast?_cons, List.getLastD_eq_getLast?]
    refine ⟨.endAt (ts.getLastD t).span.stop, rfl, ?_⟩
    show t :: (ts ++ Cursor.closing (ts.getLastD t)) = t :: ts ++ [.endAt (ts.getLastD t).span.stop]
    rw [Cursor.closing, if_neg hlast, List.cons_append]

/-- What is left of a stream behind some tokens of which none is the end of the input. -/
structure Consumes (ts w us : List Token) : Prop where
  split : ts = w ++ us
  inner : ∀ t ∈ w, t.terminal ≠ .endOfInput

namespace Consumes

variable {ts us vs w w' : List Token}

theorem refl (ts : List Token) : Consumes ts [] ts := ⟨rfl, by simp⟩

theorem trans (h : Consumes ts w us) (h' : Consumes us w' vs) : Consumes ts (w ++ w') vs := by
  refine ⟨by rw [h.split, h'.split, List.append_assoc], ?_⟩
  intro t ht
  rcases List.mem_append.1 ht with ht | ht
  · exact h.inner t ht
  · exact h'.inner t ht

theorem terminated (h : Consumes ts w us) (hts : Terminated ts) : Terminated us := by
  obtain ⟨e, he, hend⟩ := hts
  rw [h.split] at he
  cases us with
  | nil =>
    rw [List.append_nil] at he
    exact absurd hend (h.inner e (List.mem_of_getLast? he))
  | cons u us =>
    rw [List.getLast?_append, List.getLast?_cons, Option.some_or] at he
    exact ⟨e, by rw [List.getLast?_cons, he], hend⟩

/-- A token that is not the end of the input is passed. -/
theorem passed {t : Token} (ht : t.terminal ≠ .endOfInput) (hts : Terminated (t :: ts)) :
    Consumes (t :: ts) [t] (passed (t :: ts)) := by
  cases ts with
  | nil =>
    obtain ⟨e, he, hend⟩ := hts
    cases he
    exact absurd hend ht
  | cons u us =>
    refine ⟨by simp [PlsqlLint.passed, ht], ?_⟩
    intro v hv
    rw [List.mem_singleton.1 hv]
    exact ht

end Consumes

/-! ### Patterns that lose nothing -/

/-- The class does not hold the end of the input. -/
def TokenClass.passable : TokenClass → Bool
  | .oneOf terminals => !terminals.contains .endOfInput
  | _ => true

theorem Token.identifier_of_isWord {t : Token} {w : String} (h : t.isWord w = true) : t.terminal = .identifier := by
  simp only [isWord, Bool.and_eq_true, beq_iff_eq] at h
  exact h.1

theorem TokenClass.ne_endOfInput {k : TokenClass} {t : Token} (hk : k.passable = true) (h : k.accepts t = true) :
    t.terminal ≠ .endOfInput := by
  intro ht
  cases k with
  | oneOf terminals =>
    simp only [passable, accepts, ht] at hk h
    rw [h] at hk
    cases hk
  | word w => simp [accepts, Token.isWord, ht] at h
  | name => simp [accepts, ht, Terminal.isName] at h
  | member => simp [accepts, ht, Terminal.isName, Terminal.isKeyword] at h

/-- The leaves of what the pattern yields are what it reads, behind those of the trees in front if it builds onto
them. -/
def Pattern.lossless (onto : Bool) : Pattern → Bool
  | .fail | .reject _ => true
  | .empty | .room _ | .closingLabel => !onto
  | .take k _ => !onto && k.passable
  | .advance | .last _ => false
  | .left => onto
  | .seq a b => a.lossless onto && b.lossless false
  | .orElse a b | .ifNext _ a b => a.lossless onto && b.lossless onto
  | .many a => !onto && a.lossless false
  | .within _ a | .node _ a | .collapse _ a | .only _ _ a => a.lossless onto
  | .call r => !onto && r != .fileInput
  | .onto a b | .chain a _ b => !onto && a.lossless false && b.lossless true

/-- The same for a task. -/
def Task.lossless (onto : Bool) : Task → Bool
  | .pattern p => p.lossless onto
  | .links _ link _ => onto && link.lossless true

theorem Rule.lossless_body (r : Rule) (h : r ≠ .fileInput) : r.body.lossless false = true := by
  cases r <;> first | rfl | exact absurd rfl h

theorem Rule.lossless_root (r : Rule) (h : r ≠ .fileInput) : r.root.lossless false = true := by
  cases r <;> first | rfl | exact absurd rfl h

/-! ### The main fact and its consequence for a whole parse -/

/-- What a lossless task reads becomes the leaves of what it yields. -/
theorem Reads.consumes {n : Nat} {task : Task} {l : List Tree} {ts : List Token} {o : Reading}
    (h : Reads n task l ts o) {b : Bool} {xs : List Tree} {us : List Token} (ho : o = some (xs, us))
    (hp : task.lossless b = true) (hts : Terminated ts) :
    ∃ w, Consumes ts w us ∧ Tree.leaves xs = (if b then Tree.leaves l else []) ++ w := by
  induction h generalizing b xs us with
  | empty =>
    cases ho
    simp only [Task.lossless, Pattern.lossless, Bool.not_eq_true'] at hp
    subst hp
    exact ⟨[], .refl _, rfl⟩
  | @take n l k e t ts vs ht hu =>
    cases ho
    simp only [Task.lossless, Pattern.lossless, Bool.and_eq_true, Bool.not_eq_true'] at hp
    obtain ⟨rfl, hk⟩ := hp
    exact ⟨[t], hu ▸ .passed (TokenClass.ne_endOfInput hk ht) hts, by simp⟩
  | takeNot ht => cases ho
  | advance hu => cases hp
  | fail => cases ho
  | reject => cases ho
  | room hw =>
    cases ho
    simp only [Task.lossless, Pattern.lossless, Bool.not_eq_true'] at hp
    subst hp
    exact ⟨[], .refl _, rfl⟩
  | seq ha hb hz iha ihb =>
    cases ho
    simp only [Task.lossless, Pattern.lossless, Bool.and_eq_true] at hp
    obtain ⟨w, hw, he⟩ := iha rfl hp.1 hts
    obtain ⟨w', hw', he'⟩ := ihb rfl hp.2 (hw.terminated hts)
    exact ⟨w ++ w', hw.trans hw', by simp [hz, he, he']⟩
  | seqFirst ha => cases ho
  | seqSecond ha hb => cases ho
  | orFirst ha iha =>
    simp only [Task.lossless, Pattern.lossless, Bool.and_eq_true] at hp
    exact iha ho hp.1 hts
  | orSecond ha hb iha ihb =>
    simp only [Task.lossless, Pattern.lossless, Bool.and_eq_true] at hp
    exact ihb ho hp.2 hts
  | manyStop ha iha =>
    cases ho
    simp only [Task.lossless, Pattern.lossless, Bool.and_eq_true, Bool.not_eq_true'] at hp
    exact ⟨[], .refl _, by simp [hp.1]⟩
  | manyMore ha hlt hm hz iha ihm =>
    cases ho
    have hp' := hp
    simp only [Task.lossless, Pattern.lossless, Bool.and_eq_true, Bool.not_eq_true'] at hp'
    obtain ⟨rfl, hpa⟩ := hp'
    obtain ⟨w, hw, he⟩ := iha rfl hpa hts
    obtain ⟨w', hw', he'⟩ := ihm rfl hp (hw.terminated hts)
    exact ⟨w ++ w', hw.trans hw', by simp [hz, he, he']⟩
  | manyOnce ha hle iha =>
    simp only [Task.lossless, Pattern.lossless, Bool.and_eq_true, Bool.not_eq_true'] at hp
    obtain ⟨rfl, hpa⟩ := hp
    exact iha ho hpa hts
  | nextYes ht ha iha =>
    simp only [Task.lossless, Pattern.lossless, Bool.and_eq_true] at hp
    exact iha ho hp.1 hts
  | nextNo ht hb ihb =>
    simp only [Task.lossless, Pattern.lossless, Bool.and_eq_true] at hp
    exact ihb ho hp.2 hts
  | within ha iha => exact iha ho hp hts
  | node ha hz iha =>
    cases ho
    obtain ⟨w, hw, he⟩ := iha rfl hp hts
    exact ⟨w, hw, by simp [hz, he]⟩
  | nodeNot ha => cases ho
  | collapse ha hz iha =>
    cases ho
    obtain ⟨w, hw, he⟩ := iha rfl hp hts
    exact ⟨w, hw, by simp [hz, he]⟩
  | collapseNot ha => cases ho
  | @call n r l ts ys vs zs ha hz iha =>
    cases ho
    simp only [Task.lossless, Pattern.lossless, Bool.and_eq_true, Bool.not_eq_true', bne_iff_ne] at hp
    obtain ⟨rfl, hr⟩ := hp
    -- The body has no trees in front of it, whatever is in front of the call.
    obtain ⟨w, hw, he⟩ := iha rfl (r.lossless_body hr) hts
    exact ⟨w, hw, by simpa [hz] using he⟩
  | callNot ha => cases ho
  | only ha hall iha => exact iha ho hp hts
  | onlyOther ha hall => cases ho
  | onlyNot ha => cases ho
  | last ha hz => cases hp
  | lastNot ha => cases ho
  | onto ha hb iha ihb =>
    simp only [Task.lossless, Pattern.lossless, Bool.and_eq_true, Bool.not_eq_true'] at hp
    obtain ⟨⟨rfl, hpa⟩, hpb⟩ := hp
    obtain ⟨w, hw, he⟩ := iha rfl hpa hts
    obtain ⟨w', hw', he'⟩ := ihb ho hpb (hw.terminated hts)
    exact ⟨w ++ w', hw.trans hw', by simpa [he] using he'⟩
  | ontoNot ha => cases ho
  | left =>
    cases ho
    simp only [Task.lossless, Pattern.lossless] at hp
    subst hp
    exact ⟨[], .refl _, by simp⟩
  | chain ha hl iha ihl =>
    simp only [Task.lossless, Pattern.lossless, Bool.and_eq_true, Bool.not_eq_true'] at hp
    obtain ⟨⟨rfl, hpa⟩, hpb⟩ := hp
    obtain ⟨w, hw, he⟩ := iha rfl hpa hts
    obtain ⟨w', hw', he'⟩ := ihl (b := true) ho hpb (hw.terminated hts)
    exact ⟨w ++ w', hw.trans hw', by simpa [he] using he'⟩
  | chainNot ha => cases ho
  | @label n l t ts vs name hn hl hs hu =>
    cases ho
    simp only [Task.lossless, Pattern.lossless, Bool.not_eq_true'] at hp
    subst hp
    have ht : t.terminal ≠ .endOfInput := by intro h; simp [h, Terminal.isName] at hn
    exact ⟨[t], hu ▸ .passed ht hts, by simp⟩
  | labelOther hn hl hs => cases ho
  | labelNone hn hl => cases ho
  | labelAbsent hn =>
    cases ho
    simp only [Task.lossless, Pattern.lossless, Bool.not_eq_true'] at hp
    subst hp
    exact ⟨[], .refl _, rfl⟩
  | linksStop ht =>
    cases ho
    simp only [Task.lossless, Bool.and_eq_true] at hp
    exact ⟨[], .refl _, by simp [hp.1]⟩
  | linksMore ht hc ha hlt hm iha ihm =>
    have hp' := hp
    simp only [Task.lossless, Bool.and_eq_true] at hp'
    obtain ⟨rfl, hpl⟩ := hp'
    obtain ⟨w, hw, he⟩ := iha rfl hpl hts
    obtain ⟨w', hw', he'⟩ := ihm ho hp (hw.terminated hts)
    exact ⟨w ++ w', hw.trans hw', by simpa [he] using he'⟩
  | linksOnce ht hc ha hle iha =>
    simp only [Task.lossless, Bool.and_eq_true] at hp
    obtain ⟨rfl, hpl⟩ := hp
    exact iha ho hpl hts
  | linksNot ht hc ha => cases ho

/-! ### Patterns that yield one tree -/

/-- The pattern yields exactly one tree, if what is in front of it is one tree or (`onto` being false) whatever that
is. -/
def Pattern.single (onto : Bool) : Pattern → Bool
  | .take _ _ | .advance | .fail | .reject _ | .node _ _ | .collapse _ _ | .call _ => true
  | .left => onto
  | .orElse a b | .ifNext _ a b => a.single onto && b.single onto
  | .within _ a | .only _ _ a => a.single onto
  | .onto a b | .chain a _ b => a.single onto && b.single true
  | .empty | .room _ | .closingLabel | .seq _ _ | .many _ | .last _ => false

/-- The same for a task. -/
def Task.single (onto : Bool) : Task → Bool
  | .pattern p => p.single onto
  | .links _ link _ => onto && link.single true

private theorem Rule.single_root (r : Rule) : r.root.single false = true := by
  cases r <;> rfl

theorem Reads.one_tree {n : Nat} {task : Task} {l : List Tree} {ts : List Token} {o : Reading}
    (h : Reads n task l ts o) {b : Bool} {xs : List Tree} {us : List Token} (ho : o = some (xs, us))
    (hp : task.single b = true) (hl : b = true → ∃ t, l = [t]) : ∃ t, xs = [t] := by
  induction h generalizing b xs us with
  | take _ _ => cases ho; exact ⟨_, rfl⟩
  | advance _ => cases ho; exact ⟨_, rfl⟩
  | orFirst _ iha =>
    simp only [Task.single, Pattern.single, Bool.and_eq_true] at hp
    exact iha ho hp.1 hl
  | orSecond _ _ _ ihb =>
    simp only [Task.single, Pattern.single, Bool.and_eq_true] at hp
    exact ihb ho hp.2 hl
  | nextYes _ _ iha =>
    simp only [Task.single, Pattern.single, Bool.and_eq_true] at hp
    exact iha ho hp.1 hl
  | nextNo _ _ ihb =>
    simp only [Task.single, Pattern.single, Bool.and_eq_true] at hp
    exact ihb ho hp.2 hl
  | within _ iha => exact iha ho hp hl
  | node _ hz _ => cases ho; exact ⟨_, hz⟩
  | collapse _ hz _ => cases ho; exact ⟨_, hz⟩
  | call _ hz _ => cases ho; exact ⟨_, hz⟩
  | only _ _ iha => exact iha ho hp hl
  | onto _ _ iha ihb =>
    simp only [Task.single, Pattern.single, Bool.and_eq_true] at hp
    exact ihb ho hp.2 (fun _ => iha rfl hp.1 hl)
  | left => cases ho; exact hl hp
  | chain _ _ iha ihl =>
    simp only [Task.single, Pattern.single, Bool.and_eq_true] at hp
    exact ihl (b := true) ho hp.2 (fun _ => iha rfl hp.1 hl)
  | linksStop _ =>
    cases ho
    simp only [Task.single, Bool.and_eq_true] at hp
    exact hl hp.1
  | linksMore _ _ _ _ _ iha ihm =>
    have hp' := hp
    simp only [Task.single, Bool.and_eq_true] at hp'
    exact ihm ho hp (fun _ => iha rfl hp'.2 (fun _ => hl hp'.1))
  | linksOnce _ _ _ _ iha =>
    simp only [Task.single, Bool.and_eq_true] at hp
    exact iha ho hp.2 (fun _ => hl hp.1)
  | _ => first | (cases ho; done) | cases hp

/-- The root of a parse yields one tree. -/
theorem Reads.root_tree {n : Nat} {r : Rule} {ts us : List Token} {xs : List Tree}
    (h : Reads n r.root [] ts (some (xs, us))) : ∃ t, xs = [t] :=
  h.one_tree rfl r.single_root (by simp)

/-! ### The leaves of a parsed tree -/

/-- A token with nothing before it, at the start of the text. -/
def Token.bare (terminal : Terminal) (literal : String) : Token := ⟨terminal, literal, .empty default, []⟩

/-- A unit reads the end of the input, which stays where it is. -/
theorem Reads.consumes_unit {n : Nat} {ts us : List Token} {xs : List Tree}
    (h : Reads n Rule.fileInput.root [] ts (some (xs, us))) (hts : Terminated ts) :
    ∃ w e rest, Consumes ts w us ∧ us = e :: rest ∧ Tree.leaves xs = w ++ [e] := by
  cases h with
  | call ha hz =>
    cases ha with
    | seq ha hb hz' =>
      obtain ⟨w, hw, he⟩ := ha.consumes (b := false) rfl (by rfl) hts
      cases hb with
      | @take _ _ _ _ e rest _ hacc hu =>
        have hend : e.terminal = .endOfInput := by simpa [TokenClass.accepts] using hacc
        have hus : us = e :: rest := by
          rw [hu]
          cases rest <;> simp [passed, hend]
        refine ⟨w, e, rest, hus ▸ hw, hus, ?_⟩
        simp [hz, hz', he]

/-- The leaves of a parsed tree are the tokens in front of the first end of the input, each once and in their order,
and behind them that end itself if, and only if, the root is a unit. -/
theorem parseRule_tokens (tokens : List Token) (limits : Limits) (root : Rule) (tree : Tree)
    (h : ((Parser.ofTokens tokens limits).parseRule root).1 = .ok tree) :
    ∃ before e behind, (Parser.ofTokens tokens limits).tokens = before ++ e :: behind ∧
      (∀ t ∈ before, t.terminal ≠ .endOfInput) ∧ e.terminal = .endOfInput ∧
      tree.tokens = before ++ (if root = .fileInput then [e] else []) := by
  obtain ⟨more, e, behind, hread, he⟩ := Parser.reads_of_parseRule h
  obtain ⟨t, ht⟩ := hread.root_tree
  obtain ⟨rfl, rfl⟩ := List.cons.inj ht
  have hts : Terminated (Parser.ofTokens tokens limits).tokens := terminated_ofTokens tokens
  by_cases hr : root = .fileInput
  · subst hr
    obtain ⟨w, e', rest, hw, hus, hl⟩ := hread.consumes_unit hts
    obtain ⟨rfl, rfl⟩ := List.cons.inj hus
    exact ⟨w, e, behind, hw.split, hw.inner, he, by simpa using hl⟩
  · obtain ⟨w, hw, hl⟩ := hread.consumes (b := false) rfl (root.lossless_root hr) hts
    exact ⟨w, e, behind, hw.split, hw.inner, he, by simpa [hr] using hl⟩

/-- A unit with an end of the input in the middle: what is behind that end is not in the tree. -/
theorem parseRule_tokens_unit :
    ((Parser.ofTokens [.bare .divide "/", .bare .endOfInput "", .bare .identifier "a"] (.forDepth 4)).parseRule
        .fileInput).1 =
      .ok (.ofRule .fileInput [.leaf (.bare .divide "/"), .leaf (.bare .endOfInput "")] default) ∧
    ∃ before e behind,
      (Parser.ofTokens [.bare .divide "/", .bare .endOfInput "", .bare .identifier "a"] (.forDepth 4)).tokens =
        before ++ e :: behind ∧
      (∀ t ∈ before, t.terminal ≠ .endOfInput) ∧ e.terminal = .endOfInput ∧
      (Tree.ofRule .fileInput [.leaf (.bare .divide "/"), .leaf (.bare .endOfInput "")] default).tokens =
        before ++ (if Rule.fileInput = .fileInput then [e] else []) := by
  have hparse : ((Parser.ofTokens [.bare .divide "/", .bare .endOfInput "", .bare .identifier "a"]
      (.forDepth 4)).parseRule .fileInput).1 =
      .ok (.ofRule .fileInput [.leaf (.bare .divide "/"), .leaf (.bare .endOfInput "")] default) := by cbv
  exact ⟨hparse, parseRule_tokens _ _ _ _ hparse⟩

end PlsqlLint
