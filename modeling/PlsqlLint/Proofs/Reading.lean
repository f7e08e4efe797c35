import PlsqlLint.Grammar.Matching

/-!
# Reading as a relation

`Reads n p l ts o` says that the pattern `p`, with `n` levels left and the trees `l` in front, comes to the outcome `o`
on the tokens `ts`: a match with the trees it yields and the tokens it leaves, or a mismatch.  There is no outcome where
a bound on nesting is exceeded.  Failures, places and the rules that are being matched are left out: they do not
influence what is read (`Proofs.Adequacy`).

A reading stays the same when more levels are left (`Reads.mono`).
-/

namespace PlsqlLint

/-- What an advance leaves of the tokens.  The end of the input is not passed. -/
def passed : List Token → List Token
  | t :: u :: ts => if t.terminal = .endOfInput then t :: u :: ts else u :: ts
  | ts => ts

/-- The place where the next token starts. -/
def placeOf : List Token → Position
  | [] => default
  | t :: _ => t.span.start

/-- Whether the lookahead holds in front of the tokens. -/
def Lookahead.holds (ahead : Lookahead) : List Token → Bool
  | [] => false
  | t :: ts => Cursor.sees ⟨0, t, ts⟩ ahead

@[simp] theorem Lookahead.holds_one (k : TokenClass) (t : Token) (ts : List Token) :
    Lookahead.holds [[k]] (t :: ts) = k.accepts t := by
  simp [holds, Cursor.sees, Cursor.fits, Cursor.peek]

/-- A node of the rule, or the only tree there is. -/
def Tree.collapsed (rule : Rule) (trees : List Tree) (place : Position) : Tree :=
  match trees with
  | [tree] => tree
  | trees => .ofRule rule trees place

/-- What a call of the rule yields. -/
def Rule.build (rule : Rule) (trees : List Tree) (place : Position) : Tree :=
  if rule.collapses then .collapsed rule trees place else .ofRule rule trees place

/-- What is read: a pattern, or the links behind an operand from the `count`-th on. -/
inductive Task where
  | pattern (p : Pattern)
  | links (ahead : Lookahead) (link : Pattern) (count : Nat)

instance : Coe Pattern Task := ⟨.pattern⟩

/-- The trees of a match with the tokens that it leaves, or nothing. -/
abbrev Reading := Option (List Tree × List Token)

/-- The outcome of reading a task when some levels and the trees in front are given. -/
inductive Reads : Nat → Task → List Tree → List Token → Reading → Prop
  | empty {n l ts} : Reads n Pattern.empty l ts (some ([], ts))
  | take {n l k e t ts us} (h : TokenClass.accepts k t = true) (hu : us = passed (t :: ts)) :
      Reads n (Pattern.take k e) l (t :: ts) (some ([.leaf t], us))
  | takeNot {n l k e t ts} (h : TokenClass.accepts k t = false) : Reads n (Pattern.take k e) l (t :: ts) none
  | advance {n l t ts us} (hu : us = passed (t :: ts)) :
      Reads n Pattern.advance l (t :: ts) (some ([.leaf t], us))
  | fail {n l ts} : Reads n Pattern.fail l ts none
  | reject {n l e ts} : Reads n (Pattern.reject e) l ts none
  | room {n l wanted ts} (h : wanted ≤ n) : Reads n (Pattern.room wanted) l ts (some ([], ts))
  | seq {n a b l ts xs us ys vs zs} (ha : Reads n (.pattern a) l ts (some (xs, us)))
      (hb : Reads n (.pattern b) l us (some (ys, vs))) (hz : zs = xs ++ ys) :
      Reads n (Pattern.seq a b) l ts (some (zs, vs))
  | seqFirst {n a b l ts} (ha : Reads n (.pattern a) l ts none) : Reads n (Pattern.seq a b) l ts none
  | seqSecond {n a b l ts xs us} (ha : Reads n (.pattern a) l ts (some (xs, us)))
      (hb : Reads n (.pattern b) l us none) : Reads n (Pattern.seq a b) l ts none
  | orFirst {n a b l ts r} (ha : Reads n (.pattern a) l ts (some r)) :
      Reads n (Pattern.orElse a b) l ts (some r)
  | orSecond {n a b l ts o} (ha : Reads n (.pattern a) l ts none) (hb : Reads n (.pattern b) l ts o) :
      Reads n (Pattern.orElse a b) l ts o
  | manyStop {n a l ts} (ha : Reads n (.pattern a) l ts none) : Reads n (Pattern.many a) l ts (some ([], ts))
  | manyMore {n a l ts xs us ys vs zs} (ha : Reads n (.pattern a) l ts (some (xs, us)))
      (hlt : us.length < ts.length) (hm : Reads n (.pattern (.many a)) l us (some (ys, vs)))
      (hz : zs = xs ++ ys) : Reads n (Pattern.many a) l ts (some (zs, vs))
  | manyOnce {n a l ts xs us} (ha : Reads n (.pattern a) l ts (some (xs, us)))
      (hle : ts.length ≤ us.length) : Reads n (Pattern.many a) l ts (some (xs, us))
  | nextYes {n ahead a b l ts o} (h : ahead.holds ts = true) (ha : Reads n (.pattern a) l ts o) :
      Reads n (Pattern.ifNext ahead a b) l ts o
  | nextNo {n ahead a b l ts o} (h : ahead.holds ts = false) (hb : Reads n (.pattern b) l ts o) :
      Reads n (Pattern.ifNext ahead a b) l ts o
  | within {n r a l ts o} (ha : Reads n (.pattern a) l ts o) : Reads (n + 1) (Pattern.within r a) l ts o
  | node {n r a l ts xs us zs} (ha : Reads n (.pattern a) l ts (some (xs, us)))
      (hz : zs = [.ofRule r xs (placeOf us)]) : Reads n (Pattern.node r a) l ts (some (zs, us))
  | nodeNot {n r a l ts} (ha : Reads n (.pattern a) l ts none) : Reads n (Pattern.node r a) l ts none
  | collapse {n r a l ts xs us zs} (ha : Reads n (.pattern a) l ts (some (xs, us)))
      (hz : zs = [.collapsed r xs (placeOf us)]) : Reads n (Pattern.collapse r a) l ts (some (zs, us))
  | collapseNot {n r a l ts} (ha : Reads n (.pattern a) l ts none) : Reads n (Pattern.collapse r a) l ts none
  | call {n r l ts xs us zs} (ha : Reads n (.pattern (Rule.body r)) [] ts (some (xs, us)))
      (hz : zs = [r.build xs (placeOf us)]) : Reads (n + 1) (Pattern.call r) l ts (some (zs, us))
  | callNot {n r l ts} (ha : Reads n (.pattern (Rule.body r)) [] ts none) :
      Reads (n + 1) (Pattern.call r) l ts none
  | only {n r e a l ts xs us} (ha : Reads n (.pattern a) l ts (some (xs, us)))
      (h : xs.all (·.is (.rule r)) = true) : Reads n (Pattern.only r e a) l ts (some (xs, us))
  | onlyOther {n r e a l ts xs us} (ha : Reads n (.pattern a) l ts (some (xs, us)))
      (h : xs.all (·.is (.rule r)) = false) : Reads n (Pattern.only r e a) l ts none
  | onlyNot {n r e a l ts} (ha : Reads n (.pattern a) l ts none) : Reads n (Pattern.only r e a) l ts none
  | last {n a l ts xs us zs} (ha : Reads n (.pattern a) l ts (some (xs, us))) (hz : zs = xs.getLast?.toList) :
      Reads n (Pattern.last a) l ts (some (zs, us))
  | lastNot {n a l ts} (ha : Reads n (.pattern a) l ts none) : Reads n (Pattern.last a) l ts none
  | onto {n a b l ts xs us o} (ha : Reads n (.pattern a) l ts (some (xs, us)))
      (hb : Reads n (.pattern b) xs us o) : Reads n (Pattern.onto a b) l ts o
  | ontoNot {n a b l ts} (ha : Reads n (.pattern a) l ts none) : Reads n (Pattern.onto a b) l ts none
  | left {n l ts} : Reads n Pattern.left l ts (some (l, ts))
  | chain {n a ahead link l ts xs us o} (ha : Reads n (.pattern a) l ts (some (xs, us)))
      (hl : Reads n (.links ahead link 1) xs us o) : Reads n (Pattern.chain a ahead link) l ts o
  | chainNot {n a ahead link l ts} (ha : Reads n (.pattern a) l ts none) :
      Reads n (Pattern.chain a ahead link) l ts none
  | label {n l t ts us name} (hn : t.terminal.isName = true) (hl : Matcher.labelName? l = some name)
      (hs : name.sameText t = true) (hu : us = passed (t :: ts)) :
      Reads n Pattern.closingLabel l (t :: ts) (some ([.leaf t], us))
  | labelOther {n l t ts name} (hn : t.terminal.isName = true) (hl : Matcher.labelName? l = some name)
      (hs : name.sameText t = false) : Reads n Pattern.closingLabel l (t :: ts) none
  | labelNone {n l t ts} (hn : t.terminal.isName = true) (hl : Matcher.labelName? l = none) :
      Reads n Pattern.closingLabel l (t :: ts) none
  | labelAbsent {n l t ts} (hn : t.terminal.isName = false) :
      Reads n Pattern.closingLabel l (t :: ts) (some ([], t :: ts))
  | linksStop {n ahead link count l ts} (h : ahead.holds ts = false) :
      Reads n (.links ahead link count) l ts (some (l, ts))
  | linksMore {n ahead link count l ts xs us o} (h : ahead.holds ts = true) (hc : count ≤ n)
      (ha : Reads n (.pattern link) l ts (some (xs, us))) (hlt : us.length < ts.length)
      (hm : Reads n (.links ahead link (count + 1)) xs us o) : Reads n (.links ahead link count) l ts o
  | linksOnce {n ahead link count l ts xs us} (h : ahead.holds ts = true) (hc : count ≤ n)
      (ha : Reads n (.pattern link) l ts (some (xs, us))) (hle : ts.length ≤ us.length) :
      Reads n (.links ahead link count) l ts (some (xs, us))
  | linksNot {n ahead link count l ts} (h : ahead.holds ts = true) (hc : count ≤ n)
      (ha : Reads n (.pattern link) l ts none) : Reads n (.links ahead link count) l ts none

/-- What is read with some levels is read with more. -/
theorem Reads.mono {m n : Nat} {task : Task} {l : List Tree} {ts : List Token} {o : Reading}
    (h : Reads m task l ts o) (hmn : m ≤ n) : Reads n task l ts o := by
  induction h generalizing n with
  | empty => exact .empty
  | take h hu => exact .take h hu
  | takeNot h => exact .takeNot h
  | advance hu => exact .advance hu
  | fail => exact .fail
  | reject => exact .reject
  | room h => exact .room (by omega)
  | seq _ _ hz iha ihb => exact .seq (iha hmn) (ihb hmn) hz
  | seqFirst _ iha => exact .seqFirst (iha hmn)
  | seqSecond _ _ iha ihb => exact .seqSecond (iha hmn) (ihb hmn)
  | orFirst _ iha => exact .orFirst (iha hmn)
  | orSecond _ _ iha ihb => exact .orSecond (iha hmn) (ihb hmn)
  | manyStop _ iha => exact .manyStop (iha hmn)
  | manyMore _ hlt _ hz iha ihm => exact .manyMore (iha hmn) hlt (ihm hmn) hz
  | manyOnce _ hle iha => exact .manyOnce (iha hmn) hle
  | nextYes h _ iha => exact .nextYes h (iha hmn)
  | nextNo h _ ihb => exact .nextNo h (ihb hmn)
  | within _ iha =>
    obtain ⟨k, rfl⟩ : ∃ k, n = k + 1 := ⟨n - 1, by omega⟩
    exact .within (iha (by omega))
  | node _ hz iha => exact .node (iha hmn) hz
  | nodeNot _ iha => exact .nodeNot (iha hmn)
  | collapse _ hz iha => exact .collapse (iha hmn) hz
  | collapseNot _ iha => exact .collapseNot (iha hmn)
  | call _ hz iha =>
    obtain ⟨k, rfl⟩ : ∃ k, n = k + 1 := ⟨n - 1, by omega⟩
    exact .call (iha (by omega)) hz
  | callNot _ iha =>
    obtain ⟨k, rfl⟩ : ∃ k, n = k + 1 := ⟨n - 1, by omega⟩
    exact .callNot (iha (by omega))
  | only _ h iha => exact .only (iha hmn) h
  | onlyOther _ h iha => exact .onlyOther (iha hmn) h
  | onlyNot _ iha => exact .onlyNot (iha hmn)
  | last _ hz iha => exact .last (iha hmn) hz
  | lastNot _ iha => exact .lastNot (iha hmn)
  | onto _ _ iha ihb => exact .onto (iha hmn) (ihb hmn)
  | ontoNot _ iha => exact .ontoNot (iha hmn)
  | left => exact .left
  | chain _ _ iha ihl => exact .chain (iha hmn) (ihl hmn)
  | chainNot _ iha => exact .chainNot (iha hmn)
  | label hn hl hs hu => exact .label hn hl hs hu
  | labelOther hn hl hs => exact .labelOther hn hl hs
  | labelNone hn hl => exact .labelNone hn hl
  | labelAbsent hn => exact .labelAbsent hn
  | linksStop h => exact .linksStop h
  | linksMore h hc _ hlt _ iha ihm => exact .linksMore h (by omega) (iha hmn) hlt (ihm hmn)
  | linksOnce h hc _ hle iha => exact .linksOnce h (by omega) (iha hmn) hle
  | linksNot h hc _ iha => exact .linksNot h (by omega) (iha hmn)

/-- A token of the class is read, unless it is the end of the input. -/
theorem Reads.token {n : Nat} {k : TokenClass} {e : String} {l : List Tree} {t : Token} {ts : List Token}
    (h : k.accepts t = true) (ht : t.terminal ≠ .endOfInput) (hts : ts ≠ []) :
    Reads n (Pattern.take k e) l (t :: ts) (some ([.leaf t], ts)) := by
  refine .take h ?_
  cases ts with
  | nil => exact absurd rfl hts
  | cons u us => simp [passed, ht]

end PlsqlLint
