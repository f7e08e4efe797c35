import PlsqlLint.Proofs.FirstToken

/-!
# Semicolons as barriers

Two streams that agree up to a semicolon (`Barred`) look the same to a pattern that neither takes a semicolon nor looks
for one, whatever stands behind it: the outcome is the same, and what is left agrees up to the semicolon again
(`Reads.barred`).  A statement that takes its semicolon at the very end fails on both streams or on none
(`Reads.settled`).
-/

namespace PlsqlLint

/-! ### Lookahead, class by class -/

/-- The classes fit the first tokens one by one. -/
abbrev Fit (ks : List TokenClass) (ts : List Token) : Prop := Lookahead.holds [ks] ts = true

namespace Cursor

private theorem fits_succ (i j : Nat) (t u : Token) (us : List Token) (n : Nat) (ks : List TokenClass) :
    fits ⟨i, t, u :: us⟩ (n + 1) ks = fits ⟨j, u, us⟩ n ks := by
  induction ks generalizing n with
  | nil => rfl
  | cons k ks ih =>
    have hpeek : peek ⟨i, t, u :: us⟩ (n + 1) = peek ⟨j, u, us⟩ n := by
      cases n with
      | zero => rfl
      | succ n => simp [peek, List.getLastD_eq_getLast?, List.getLast?_cons]
    rw [fits, fits, hpeek, ih]

private theorem fits_last (i : Nat) (t : Token) (n : Nat) (ks : List TokenClass) :
    fits ⟨i, t, []⟩ n ks = ks.all (·.accepts t) := by
  induction ks generalizing n with
  | nil => rfl
  | cons k ks ih =>
    have hpeek : peek ⟨i, t, []⟩ n = t := by cases n <;> rfl
    rw [fits, hpeek, ih, List.all_cons]

end Cursor

namespace Lookahead

theorem holds_iff {ahead : Lookahead} {ts : List Token} : ahead.holds ts = true ↔ ∃ ks ∈ ahead, Fit ks ts := by
  cases ts with
  | nil => simp [holds]
  | cons t ts => simp [Fit, holds, Cursor.sees]

end Lookahead

namespace Fit

variable {t : Token} {ts us y v v' : List Token} {k : TokenClass} {ks : List TokenClass}

theorem nil (h : ts ≠ []) : Fit [] ts := by
  cases ts with
  | nil => exact absurd rfl h
  | cons t ts => rfl

theorem cons_iff (h : ts ≠ []) : Fit (k :: ks) (t :: ts) ↔ k.accepts t = true ∧ Fit ks ts := by
  cases ts with
  | nil => exact absurd rfl h
  | cons u us => simp [Fit, Lookahead.holds, Cursor.sees, Cursor.fits, Cursor.fits_succ 0 0, Cursor.peek]

theorem last_iff : Fit ks [t] ↔ ∀ k ∈ ks, k.accepts t = true := by
  simp [Fit, Lookahead.holds, Cursor.sees, Cursor.fits_last]

theorem head (h : Fit (k :: ks) (t :: ts)) : k.accepts t = true := by
  simp only [Fit, Lookahead.holds, Cursor.sees, List.any_cons, List.any_nil, Bool.or_false] at h
  exact Cursor.accepts_of_fits h

/-- Only as many tokens count as there are classes. -/
theorem congr (h : Fit ks (y ++ v)) (hk : ks.length ≤ y.length) (hne : y ++ v' ≠ []) : Fit ks (y ++ v') := by
  induction y generalizing ks with
  | nil =>
    rw [List.length_nil, Nat.le_zero, List.length_eq_zero_iff] at hk
    rw [hk]
    exact nil hne
  | cons t y ih =>
    cases ks with
    | nil => exact nil hne
    | cons k ks =>
      have hk' : ks.length ≤ y.length := Nat.le_of_succ_le_succ hk
      cases y with
      | nil =>
        rw [List.length_nil, Nat.le_zero, List.length_eq_zero_iff] at hk'
        subst hk'
        simpa [Fit] using h
      | cons u y =>
        rw [List.cons_append, cons_iff (by simp)] at h
        rw [List.cons_append, cons_iff (by simp)]
        exact ⟨h.1, ih h.2 hk' (by simp)⟩

end Fit

/-! ### Streams that agree up to a semicolon -/

/-- The streams agree up to and including a semicolon. -/
inductive Barred : List Token → List Token → Prop
  | bar {s : Token} {v v' : List Token} (h : s.terminal = .semicolon) : Barred (s :: v) (s :: v')
  | step {t : Token} {ts ts' : List Token} (h : Barred ts ts') : Barred (t :: ts) (t :: ts')

namespace TokenClass

/-- The class of the semicolon. -/
abbrev bar : TokenClass := .oneOf [.semicolon]

private theorem ne_semicolon {k : TokenClass} {t : Token} (hk : k.apart bar = true) (h : k.accepts t = true) :
    t.terminal ≠ .semicolon := by
  intro ht
  have hbar : bar.accepts t = true := by simp [accepts, ht]
  rw [not_accepts_of_apart hk hbar] at h
  cases h

end TokenClass

namespace Barred

variable {t : Token} {ts ts' : List Token}

theorem ne_nil (h : Barred ts ts') : ts ≠ [] ∧ ts' ≠ [] := by
  cases h <;> exact ⟨by simp, by simp⟩

theorem symm (h : Barred ts ts') : Barred ts' ts := by
  induction h with
  | bar hs => exact .bar hs
  | step _ ih => exact .step ih

theorem append (h : Barred ts ts') (w : List Token) : Barred (w ++ ts) (w ++ ts') := by
  induction w with
  | nil => exact h
  | cons t w ih => exact .step ih

private theorem placeOf_eq (h : Barred ts ts') : placeOf ts = placeOf ts' := by
  cases h <;> rfl

/-- Streams with a common part in which there is a semicolon. -/
theorem of_mem {w : List Token} (h : ∃ s ∈ w, s.terminal = .semicolon) (ts ts' : List Token) :
    Barred (w ++ ts) (w ++ ts') := by
  induction w with
  | nil => obtain ⟨s, hs, _⟩ := h; cases hs
  | cons t w ih =>
    obtain ⟨s, hs, hsemi⟩ := h
    rcases List.mem_cons.1 hs with rfl | hs
    · exact .bar hsemi
    · exact .step (ih ⟨s, hs, hsemi⟩)

/-- The next token, unless it is the semicolon, is passed on both sides. -/
private theorem passed (h : Barred (t :: ts) ts') (ht : t.terminal ≠ .semicolon) :
    ∃ w us', t :: ts = w ++ PlsqlLint.passed (t :: ts) ∧ ts' = w ++ us' ∧ us' = PlsqlLint.passed ts' ∧
      Barred (PlsqlLint.passed (t :: ts)) us' := by
  cases h with
  | bar hs => exact absurd hs ht
  | @step _ _ us h =>
    obtain ⟨hne, hne'⟩ := h.ne_nil
    obtain ⟨u, v, rfl⟩ := List.exists_cons_of_ne_nil hne
    obtain ⟨u', v', rfl⟩ := List.exists_cons_of_ne_nil hne'
    by_cases hend : t.terminal = .endOfInput
    · exact ⟨[], _, by simp [PlsqlLint.passed, hend], rfl, by simp [PlsqlLint.passed, hend],
        by simpa [PlsqlLint.passed, hend] using Barred.step h⟩
    · exact ⟨[t], _, by simp [PlsqlLint.passed, hend], rfl, by simp [PlsqlLint.passed, hend],
        by simpa [PlsqlLint.passed, hend] using h⟩

private theorem fit {ks : List TokenClass} (h : Barred ts ts') (hks : ∀ k ∈ ks, k.apart .bar = true) (hf : Fit ks ts) :
    Fit ks ts' := by
  induction h generalizing ks with
  | bar hs =>
    cases ks with
    | nil => exact .nil (by simp)
    | cons k ks => exact absurd hs (TokenClass.ne_semicolon (hks k List.mem_cons_self) hf.head)
  | step h ih =>
    obtain ⟨hne, hne'⟩ := h.ne_nil
    cases ks with
    | nil => exact .nil (by simp)
    | cons k ks =>
      rw [Fit.cons_iff hne] at hf
      rw [Fit.cons_iff hne']
      exact ⟨hf.1, ih (fun j hj => hks j (List.mem_cons_of_mem _ hj)) hf.2⟩

/-- A lookahead that never asks for a semicolon holds for both streams or for none. -/
private theorem holds_eq {ahead : Lookahead} (h : Barred ts ts') (ha : ahead.all (·.all (·.apart .bar)) = true) :
    ahead.holds ts = ahead.holds ts' := by
  simp only [List.all_eq_true] at ha
  rw [Bool.eq_iff_iff, Lookahead.holds_iff, Lookahead.holds_iff]
  constructor
  · rintro ⟨ks, hks, hf⟩
    exact ⟨ks, hks, h.fit (ha ks hks) hf⟩
  · rintro ⟨ks, hks, hf⟩
    exact ⟨ks, hks, h.symm.fit (ha ks hks) hf⟩

end Barred

/-! ### Patterns that stop at semicolons -/

/-- The rules whose text is part of a statement or of a declaration. -/
def Rule.inner : Rule → Bool
  | .datatype | .label | .selectExpression | .selectColumn | .intoClause | .fromClause | .tableReference | .whereClause
  | .groupByClause | .orderByClause | .forUpdateClause | .columnReference | .setClause | .orExpression
  | .andExpression | .notExpression | .relationalOperator | .concatenationExpression | .additiveExpression
  | .multiplicativeExpression | .unaryExpression | .exponentiationExpression | .bracketedExpression | .numericLiteral
  | .characterLiteral | .booleanLiteral | .nullLiteral | .bindVariable | .variableName | .arguments | .argument => true
  | _ => false

namespace Pattern

/-- The pattern neither takes a semicolon nor looks for one. -/
def avoids : Pattern → Bool
  | .empty | .room _ | .left | .fail | .reject _ | .closingLabel => true
  | .take k _ => k.apart .bar
  | .advance => false
  | .call r => r.inner
  | .seq a b | .onto a b | .orElse a b => a.avoids && b.avoids
  | .ifNext ahead a b | .chain a ahead b => ahead.all (·.all (·.apart .bar)) && a.avoids && b.avoids
  | .many a | .within _ a | .node _ a | .collapse _ a | .only _ _ a | .last a => a.avoids

end Pattern

def Task.avoids : Task → Bool
  | .pattern p => p.avoids
  | .links ahead link _ => ahead.all (·.all (·.apart .bar)) && link.avoids

private theorem Rule.avoids_body {r : Rule} (hr : r.inner = true) : r.body.avoids = true := by
  cases r <;> first | cases hr; done | decide

/-- Both outcomes are mismatches, or matches with the same trees that read the same tokens. -/
inductive Alike (ts ts' : List Token) : Reading → Reading → Prop
  | mismatch : Alike ts ts' none none
  | matched {xs : List Tree} {w us us' : List Token} (h : ts = w ++ us) (h' : ts' = w ++ us') (hb : Barred us us') :
      Alike ts ts' (some (xs, us)) (some (xs, us'))

theorem Alike.trans {ts ts' us us' w : List Token} {o o' : Reading} (hw : ts = w ++ us) (hw' : ts' = w ++ us')
    (h : Alike us us' o o') : Alike ts ts' o o' := by
  cases h with
  | mismatch => exact .mismatch
  | @matched xs v _ _ hv hv' hb =>
    exact .matched (w := w ++ v) (by rw [hw, hv, List.append_assoc]) (by rw [hw', hv', List.append_assoc]) hb

/-- A pattern that avoids semicolons does not see what stands behind one. -/
theorem Reads.barred {n : Nat} {task : Task} {l : List Tree} {ts ts' : List Token} {o : Reading}
    (h : Reads n task l ts o) (hp : task.avoids = true) (hb : Barred ts ts') :
    ∃ o', Reads n task l ts' o' ∧ Alike ts ts' o o' := by
  induction h generalizing ts' with
  | empty => exact ⟨_, .empty, .matched (w := []) rfl rfl hb⟩
  | take hacc hu =>
    obtain ⟨w, us', hw, hw', hu', hb'⟩ := hb.passed (TokenClass.ne_semicolon hp hacc)
    cases hb <;> exact ⟨_, .take hacc hu', .matched (hu ▸ hw) hw' (hu ▸ hb')⟩
  | takeNot hacc => cases hb <;> exact ⟨_, .takeNot hacc, .mismatch⟩
  | advance hu => cases hp
  | fail => exact ⟨_, .fail, .mismatch⟩
  | reject => exact ⟨_, .reject, .mismatch⟩
  | room hw => exact ⟨_, .room hw, .matched (w := []) rfl rfl hb⟩
  | seq ha hb₂ hz iha ihb =>
    simp only [Task.avoids, Pattern.avoids, Bool.and_eq_true] at hp
    obtain ⟨_, ha', hs⟩ := iha hp.1 hb
    cases hs with
    | matched hw hw' hbus =>
      obtain ⟨_, hb', hs⟩ := ihb hp.2 hbus
      cases hs with
      | matched hv hv' hbvs => exact ⟨_, .seq ha' hb' hz, .trans hw hw' (.matched hv hv' hbvs)⟩
  | seqFirst ha iha =>
    simp only [Task.avoids, Pattern.avoids, Bool.and_eq_true] at hp
    obtain ⟨_, ha', hs⟩ := iha hp.1 hb
    cases hs
    exact ⟨_, .seqFirst ha', .mismatch⟩
  | seqSecond ha hb₂ iha ihb =>
    simp only [Task.avoids, Pattern.avoids, Bool.and_eq_true] at hp
    obtain ⟨_, ha', hs⟩ := iha hp.1 hb
    cases hs with
    | matched hw hw' hbus =>
      obtain ⟨_, hb', hs⟩ := ihb hp.2 hbus
      cases hs
      exact ⟨_, .seqSecond ha' hb', .mismatch⟩
  | orFirst ha iha =>
    simp only [Task.avoids, Pattern.avoids, Bool.and_eq_true] at hp
    obtain ⟨_, ha', hs⟩ := iha hp.1 hb
    cases hs with
    | matched hw hw' hbus => exact ⟨_, .orFirst ha', .matched hw hw' hbus⟩
  | orSecond ha hb₂ iha ihb =>
    simp only [Task.avoids, Pattern.avoids, Bool.and_eq_true] at hp
    obtain ⟨_, ha', hs⟩ := iha hp.1 hb
    cases hs
    obtain ⟨_, hb', hs⟩ := ihb hp.2 hb
    exact ⟨_, .orSecond ha' hb', hs⟩
  | manyStop ha iha =>
    obtain ⟨_, ha', hs⟩ := iha hp hb
    cases hs
    exact ⟨_, .manyStop ha', .matched (w := []) rfl rfl hb⟩
  | manyMore ha hlt hm hz iha ihm =>
    obtain ⟨_, ha', hs⟩ := iha hp hb
    cases hs with
    | matched hw hw' hbus =>
      obtain ⟨_, hm', hs⟩ := ihm hp hbus
      -- The same tokens are read on both streams, so there is progress on both.
      have hlt' := hlt
      rw [hw, List.length_append] at hlt'
      cases hs with
      | matched hv hv' hbvs =>
        exact ⟨_, .manyMore ha' (by rw [hw', List.length_append]; omega) hm' hz,
          .trans hw hw' (.matched hv hv' hbvs)⟩
  | manyOnce ha hle iha =>
    obtain ⟨_, ha', hs⟩ := iha hp hb
    cases hs with
    | matched hw hw' hbus =>
      rw [hw, List.length_append] at hle
      exact ⟨_, .manyOnce ha' (by rw [hw', List.length_append]; omega), .matched hw hw' hbus⟩
  | nextYes hold ha iha =>
    simp only [Task.avoids, Pattern.avoids, Bool.and_eq_true] at hp
    obtain ⟨_, ha', hs⟩ := iha hp.1.2 hb
    exact ⟨_, .nextYes (hb.holds_eq hp.1.1 ▸ hold) ha', hs⟩
  | nextNo hold hb₂ ihb =>
    simp only [Task.avoids, Pattern.avoids, Bool.and_eq_true] at hp
    obtain ⟨_, hb', hs⟩ := ihb hp.2 hb
    exact ⟨_, .nextNo (hb.holds_eq hp.1.1 ▸ hold) hb', hs⟩
  | within ha iha =>
    obtain ⟨_, ha', hs⟩ := iha hp hb
    exact ⟨_, .within ha', hs⟩
  | node ha hz iha =>
    obtain ⟨_, ha', hs⟩ := iha hp hb
    cases hs with
    | matched hw hw' hbus => exact ⟨_, .node ha' (hbus.placeOf_eq ▸ hz), .matched hw hw' hbus⟩
  | nodeNot ha iha =>
    obtain ⟨_, ha', hs⟩ := iha hp hb
    cases hs
    exact ⟨_, .nodeNot ha', .mismatch⟩
  | collapse ha hz iha =>
    obtain ⟨_, ha', hs⟩ := iha hp hb
    cases hs with
    | matched hw hw' hbus => exact ⟨_, .collapse ha' (hbus.placeOf_eq ▸ hz), .matched hw hw' hbus⟩
  | collapseNot ha iha =>
    obtain ⟨_, ha', hs⟩ := iha hp hb
    cases hs
    exact ⟨_, .collapseNot ha', .mismatch⟩
  | call ha hz iha =>
    obtain ⟨_, ha', hs⟩ := iha (Rule.avoids_body hp) hb
    cases hs with
    | matched hw hw' hbus => exact ⟨_, .call ha' (hbus.placeOf_eq ▸ hz), .matched hw hw' hbus⟩
  | callNot ha iha =>
    obtain ⟨_, ha', hs⟩ := iha (Rule.avoids_body hp) hb
    cases hs
    exact ⟨_, .callNot ha', .mismatch⟩
  | only ha hall iha =>
    obtain ⟨_, ha', hs⟩ := iha hp hb
    cases hs with
    | matched hw hw' hbus => exact ⟨_, .only ha' hall, .matched hw hw' hbus⟩
  | onlyOther ha hall iha =>
    obtain ⟨_, ha', hs⟩ := iha hp hb
    cases hs
    exact ⟨_, .onlyOther ha' hall, .mismatch⟩
  | onlyNot ha iha =>
    obtain ⟨_, ha', hs⟩ := iha hp hb
    cases hs
    exact ⟨_, .onlyNot ha', .mismatch⟩
  | last ha hz iha =>
    obtain ⟨_, ha', hs⟩ := iha hp hb
    cases hs with
    | matched hw hw' hbus => exact ⟨_, .last ha' hz, .matched hw hw' hbus⟩
  | lastNot ha iha =>
    obtain ⟨_, ha', hs⟩ := iha hp hb
    cases hs
    exact ⟨_, .lastNot ha', .mismatch⟩
  | onto ha hb₂ iha ihb =>
    simp only [Task.avoids, Pattern.avoids, Bool.and_eq_true] at hp
    obtain ⟨_, ha', hs⟩ := iha hp.1 hb
    cases hs with
    | matched hw hw' hbus =>
      obtain ⟨_, hb', hs⟩ := ihb hp.2 hbus
      exact ⟨_, .onto ha' hb', .trans hw hw' hs⟩
  | ontoNot ha iha =>
    simp only [Task.avoids, Pattern.avoids, Bool.and_eq_true] at hp
    obtain ⟨_, ha', hs⟩ := iha hp.1 hb
    cases hs
    exact ⟨_, .ontoNot ha', .mismatch⟩
  | left => exact ⟨_, .left, .matched (w := []) rfl rfl hb⟩
  | chain ha hl iha ihl =>
    simp only [Task.avoids, Pattern.avoids, Bool.and_eq_true] at hp ihl
    obtain ⟨_, ha', hs⟩ := iha hp.1.2 hb
    cases hs with
    | matched hw hw' hbus =>
      obtain ⟨_, hl', hs⟩ := ihl ⟨hp.1.1, hp.2⟩ hbus
      exact ⟨_, .chain ha' hl', .trans hw hw' hs⟩
  | chainNot ha iha =>
    simp only [Task.avoids, Pattern.avoids, Bool.and_eq_true] at hp
    obtain ⟨_, ha', hs⟩ := iha hp.1.2 hb
    cases hs
    exact ⟨_, .chainNot ha', .mismatch⟩
  | @label n l t ts us name hn hl hsame hu =>
    have ht : t.terminal ≠ .semicolon := by intro ht; simp [ht, Terminal.isName] at hn
    obtain ⟨w, us', hw, hw', hu', hb'⟩ := hb.passed ht
    cases hb <;> exact ⟨_, .label hn hl hsame hu', .matched (hu ▸ hw) hw' (hu ▸ hb')⟩
  | labelOther hn hl hsame => cases hb <;> exact ⟨_, .labelOther hn hl hsame, .mismatch⟩
  | labelNone hn hl => cases hb <;> exact ⟨_, .labelNone hn hl, .mismatch⟩
  | labelAbsent hn =>
    have hb' := hb
    cases hb <;> exact ⟨_, .labelAbsent hn, .matched (w := []) rfl rfl hb'⟩
  | linksStop hold =>
    simp only [Task.avoids, Bool.and_eq_true] at hp
    exact ⟨_, .linksStop (hb.holds_eq hp.1 ▸ hold), .matched (w := []) rfl rfl hb⟩
  | linksMore hold hc ha hlt hm iha ihm =>
    have hp' := hp
    simp only [Task.avoids, Bool.and_eq_true] at hp'
    obtain ⟨_, ha', hs⟩ := iha hp'.2 hb
    cases hs with
    | matched hw hw' hbus =>
      obtain ⟨_, hm', hs⟩ := ihm hp hbus
      rw [hw, List.length_append] at hlt
      exact ⟨_, .linksMore (hb.holds_eq hp'.1 ▸ hold) hc ha' (by rw [hw', List.length_append]; omega) hm',
        .trans hw hw' hs⟩
  | linksOnce hold hc ha hle iha =>
    simp only [Task.avoids, Bool.and_eq_true] at hp
    obtain ⟨_, ha', hs⟩ := iha hp.2 hb
    cases hs with
    | matched hw hw' hbus =>
      rw [hw, List.length_append] at hle
      exact ⟨_, .linksOnce (hb.holds_eq hp.1 ▸ hold) hc ha' (by rw [hw', List.length_append]; omega),
        .matched hw hw' hbus⟩
  | linksNot hold hc ha iha =>
    simp only [Task.avoids, Bool.and_eq_true] at hp
    obtain ⟨_, ha', hs⟩ := iha hp.2 hb
    cases hs
    exact ⟨_, .linksNot (hb.holds_eq hp.1 ▸ hold) hc ha', .mismatch⟩

namespace Pattern

/-- The pattern takes a semicolon as its last token at most. -/
def settles : Pattern → Bool
  | .take _ _ => true
  | .seq a b => a.avoids && b.settles
  | p => p.avoids

/-- The same for what a call calls. -/
def decided : Pattern → Bool
  | .call r => r.body.settles
  | p => p.settles

end Pattern

namespace Reads

variable {n : Nat} {p : Pattern} {l : List Tree} {ts ts' : List Token}

private theorem barred_none (h : Reads n p l ts none) (hp : p.avoids = true) (hb : Barred ts ts') :
    Reads n p l ts' none := by
  obtain ⟨_, h', hs⟩ := h.barred hp hb
  cases hs
  exact h'

theorem settled (h : Reads n p l ts none) (hp : p.settles = true) (hb : Barred ts ts') : Reads n p l ts' none := by
  induction p generalizing ts ts' with
  | take k e =>
    cases h with
    | takeNot hacc => cases hb <;> exact .takeNot hacc
  | seq a b _ ihb =>
    simp only [Pattern.settles, Bool.and_eq_true] at hp
    cases h with
    | seqFirst ha => exact .seqFirst (ha.barred_none hp.1 hb)
    | seqSecond ha hb₂ =>
      obtain ⟨_, ha', hs⟩ := ha.barred hp.1 hb
      cases hs with
      | matched _ _ hbus => exact .seqSecond ha' (ihb hb₂ hp.2 hbus)
  | _ => exact h.barred_none hp hb

theorem decided (h : Reads n p l ts none) (hp : p.decided = true) (hb : Barred ts ts') : Reads n p l ts' none := by
  cases p with
  | call r =>
    cases h with
    | callNot ha => exact .callNot (ha.settled hp hb)
  | _ => exact h.settled hp hb

end Reads

end PlsqlLint
