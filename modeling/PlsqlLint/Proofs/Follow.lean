import PlsqlLint.Proofs.Barrier

/-!
# What may follow a pattern

A stream can be cut off at some place, where the end of the input is put (`CutOff`).  What a pattern reads in front of
that place should not change then.  This needs to be known about what follows the pattern, in the whole stream and in
the shorter one: how it starts (`Pattern.lead` computes that up to two tokens ahead), whether the first token is still
there, and whether there is a semicolon in what is left (`Follow`).

The central question is where a trial that fails on the whole stream fails on the shorter one as well.  It does so if
the first tokens already rule it out (`Reads.ruledOut`), or if there is a semicolon that it cannot cross
(`Reads.decided`).
-/

namespace PlsqlLint

/-! ### Cutting off a stream -/

/-- The second stream is the first one, cut off at some place. -/
inductive CutOff : List Token → List Token → Prop
  | stop {ts : List Token} {e : Token} (hts : Terminated ts) (he : e.terminal = .endOfInput) : CutOff ts [e]
  | step {t : Token} {ts ts' : List Token} (h : CutOff ts ts') : CutOff (t :: ts) (t :: ts')

namespace Terminated

theorem ne_nil {ts : List Token} (h : Terminated ts) : ts ≠ [] := by
  obtain ⟨e, he, _⟩ := h
  rintro rfl
  cases he

theorem cons {ts : List Token} (h : Terminated ts) (t : Token) : Terminated (t :: ts) := by
  obtain ⟨e, he, hend⟩ := h
  exact ⟨e, by rw [List.getLast?_cons, he]; rfl, hend⟩

private theorem last {e : Token} (he : e.terminal = .endOfInput) : Terminated [e] := ⟨e, rfl, he⟩

theorem tail {t : Token} {ts : List Token} (h : Terminated (t :: ts)) (ht : t.terminal ≠ .endOfInput) :
    Terminated ts ∧ passed (t :: ts) = ts := by
  have hpass := Consumes.passed ht h
  have hts : passed (t :: ts) = ts := (List.cons.inj hpass.split).2.symm
  exact ⟨hts ▸ hpass.terminated h, hts⟩

end Terminated

namespace CutOff

variable {ts ts' : List Token}

theorem terminated (h : CutOff ts ts') : Terminated ts ∧ Terminated ts' := by
  induction h with
  | stop hts he => exact ⟨hts, .last he⟩
  | step _ ih => exact ⟨ih.1.cons _, ih.2.cons _⟩

theorem append (h : CutOff ts ts') (w : List Token) : CutOff (w ++ ts) (w ++ ts') := by
  induction w with
  | nil => exact h
  | cons t w ih => exact .step ih

private theorem fit {ks : List TokenClass} (h : CutOff ts ts') (hks : ∀ k ∈ ks, k.passable = true) (hf : Fit ks ts') :
    Fit ks ts := by
  induction h generalizing ks with
  | stop hts he =>
    cases ks with
    | nil => exact .nil hts.ne_nil
    | cons k ks => exact absurd he (TokenClass.ne_endOfInput (hks k List.mem_cons_self) hf.head)
  | step h ih =>
    cases ks with
    | nil => exact .nil (by simp)
    | cons k ks =>
      rw [Fit.cons_iff h.terminated.2.ne_nil] at hf
      rw [Fit.cons_iff h.terminated.1.ne_nil]
      exact ⟨hf.1, ih (fun j hj => hks j (List.mem_cons_of_mem _ hj)) hf.2⟩

/-- A lookahead does not begin to hold when the stream is cut off. -/
theorem holds_eq_false {ahead : Lookahead} (h : CutOff ts ts') (hk : ahead.all (·.all (·.passable)) = true)
    (hno : ahead.holds ts = false) : ahead.holds ts' = false := by
  simp only [List.all_eq_true] at hk
  rw [← Bool.not_eq_true, Lookahead.holds_iff] at hno ⊢
  rintro ⟨ks, hks, hf⟩
  exact hno ⟨ks, hks, h.fit (hk ks hks) hf⟩

end CutOff

/-- A lookahead goes on to hold if all that it asks about is still there. -/
theorem Lookahead.holds_congr {ahead : Lookahead} {y v v' : List Token} (h : ahead.holds (y ++ v) = true)
    (hk : ∀ ks ∈ ahead, ks.length ≤ y.length) (hne : y ++ v' ≠ []) : ahead.holds (y ++ v') = true := by
  rw [holds_iff] at h ⊢
  obtain ⟨ks, hks, hf⟩ := h
  exact ⟨ks, hks, hf.congr (hk ks hks) hne⟩

/-! ### How a match starts -/

namespace Pattern

/-- The classes of the first one or two tokens where the pattern matches, if the tokens behind it fit `behind`. -/
def lead (behind : Lookahead) : Pattern → Lookahead
  | .empty | .room _ | .left => behind
  | .take k _ => behind.map fun ks => (k :: ks).take 2
  | .advance | .fail | .reject _ => []
  | .seq a b | .onto a b => a.lead (b.lead behind)
  | .orElse a b | .ifNext _ a b => a.lead behind ++ b.lead behind
  | .many a => a.lead [[]] ++ behind
  | .within _ a | .node _ a | .collapse _ a | .only _ _ a | .last a => a.lead behind
  | .call r => r.first.map ([·])
  | .chain a _ _ => a.lead [[]]
  | .closingLabel => [.name] :: behind

end Pattern

def Task.lead (behind : Lookahead) : Task → Lookahead
  | .pattern p => p.lead behind
  | .links _ _ _ => [[]]

namespace Lookahead

variable {ahead more : Lookahead} {ts : List Token}

private theorem holds_left (h : ahead.holds ts = true) : Lookahead.holds (ahead ++ more) ts = true := by
  rw [holds_iff] at h ⊢
  obtain ⟨ks, hks, hf⟩ := h
  exact ⟨ks, List.mem_append_left _ hks, hf⟩

theorem holds_right (h : more.holds ts = true) : Lookahead.holds (ahead ++ more) ts = true := by
  rw [holds_iff] at h ⊢
  obtain ⟨ks, hks, hf⟩ := h
  exact ⟨ks, List.mem_append_right _ hks, hf⟩

theorem holds_nil (h : ts ≠ []) : Lookahead.holds [[]] ts = true := Fit.nil h

end Lookahead

private theorem Fit.first_two {ks : List TokenClass} {ts : List Token} (h : Fit ks ts) : Fit (ks.take 2) ts := by
  match ks, ts with
  | [], _ | [_], _ | [_, _], _ => exact h
  | k :: j :: i :: ks, [] => cases h
  | k :: j :: i :: ks, [t] =>
    rw [Fit.last_iff] at h ⊢
    exact fun k hk => h k (List.mem_of_mem_take hk)
  | k :: j :: i :: ks, t :: u :: ts =>
    rw [Fit.cons_iff (by simp)] at h
    rw [List.take_succ_cons, List.take_succ_cons, List.take_zero, Fit.cons_iff (by simp)]
    exact ⟨h.1, by simpa [Fit] using h.2.head⟩

/-- A pattern that reads something reads one of its first tokens. -/
theorem Reads.starts {n : Nat} {p : Pattern} {l : List Tree} {t : Token} {ts us : List Token} {xs : List Tree}
    (h : Reads n p l (t :: ts) (some (xs, us))) (hp : 0 < p.width) : ∃ k ∈ p.firsts, k.accepts t = true := by
  by_cases hno : ∃ k ∈ p.firsts, k.accepts t = true
  · exact hno
  have ht : t.Foreign p.firsts := by
    intro k hk
    rw [← Bool.not_eq_true]
    exact fun hacc => hno ⟨k, hk, hacc⟩
  obtain ⟨_, _, hu⟩ := h.foreign rfl ht ht ts l
  cases hu with
  | nothing hw =>
    have hzero : p.width = 0 := hw
    omega

/-- Where a pattern matches, the tokens fit its lead. -/
theorem Reads.leads {n : Nat} {task : Task} {l : List Tree} {ts : List Token} {o : Reading} (h : Reads n task l ts o)
    {xs : List Tree} {us : List Token} (ho : o = some (xs, us)) (hp : task.passes = true) (hts : Terminated ts)
    {behind : Lookahead} (hK : behind.holds us = true) : (task.lead behind).holds ts = true := by
  have hany := Lookahead.holds_nil hts.ne_nil
  induction h generalizing xs us behind with
  | empty => cases ho; exact hK
  | @take n l k e t ts vs hacc hu =>
    cases ho
    obtain ⟨hts', hpass⟩ := hts.tail (TokenClass.ne_endOfInput hp hacc)
    rw [hu, hpass, Lookahead.holds_iff] at hK
    obtain ⟨ks, hks, hf⟩ := hK
    rw [Lookahead.holds_iff]
    exact ⟨_, List.mem_map_of_mem hks, Fit.first_two ((Fit.cons_iff hts'.ne_nil).2 ⟨hacc, hf⟩)⟩
  | advance hu => cases hp
  | room hw => cases ho; exact hK
  | seq ha hb hz iha ihb =>
    cases ho
    simp only [Task.passes, Pattern.passes, Bool.and_eq_true] at hp
    obtain ⟨w, hw, _⟩ := ha.wide hp.1 hts
    have hts' := hw.terminated hts
    exact iha rfl hp.1 hts (ihb rfl hp.2 hts' hK (Lookahead.holds_nil hts'.ne_nil)) hany
  | orFirst ha iha =>
    simp only [Task.passes, Pattern.passes, Bool.and_eq_true] at hp
    exact Lookahead.holds_left (iha ho hp.1 hts hK hany)
  | orSecond ha hb iha ihb =>
    simp only [Task.passes, Pattern.passes, Bool.and_eq_true] at hp
    exact Lookahead.holds_right (ihb ho hp.2 hts hK hany)
  | manyStop ha iha => cases ho; exact Lookahead.holds_right hK
  | manyMore ha hlt hm hz iha ihm =>
    obtain ⟨w, hw, _⟩ := ha.wide hp hts
    exact Lookahead.holds_left (iha rfl hp hts (Lookahead.holds_nil (hw.terminated hts).ne_nil) hany)
  | manyOnce ha hle iha =>
    obtain ⟨w, hw, _⟩ := ha.wide hp hts
    exact Lookahead.holds_left (iha rfl hp hts (Lookahead.holds_nil (hw.terminated hts).ne_nil) hany)
  | nextYes hold ha iha =>
    simp only [Task.passes, Pattern.passes, Bool.and_eq_true] at hp
    exact Lookahead.holds_left (iha ho hp.1 hts hK hany)
  | nextNo hold hb ihb =>
    simp only [Task.passes, Pattern.passes, Bool.and_eq_true] at hp
    exact Lookahead.holds_right (ihb ho hp.2 hts hK hany)
  | within ha iha => exact iha ho hp hts hK hany
  | node ha hz iha => cases ho; exact iha rfl hp hts hK hany
  | collapse ha hz iha => cases ho; exact iha rfl hp hts hK hany
  | @call n r l ts ys vs zs ha hz iha =>
    have hr : r ≠ .fileInput := by simpa [Task.passes, Pattern.passes] using hp
    have hwidth : 0 < (Pattern.call r).width := Rule.width_pos hr
    obtain ⟨t, ts, rfl⟩ := List.exists_cons_of_ne_nil hts.ne_nil
    obtain ⟨k, hk, hacc⟩ := (Reads.call (l := l) ha hz).starts hwidth
    rw [Lookahead.holds_iff]
    exact ⟨[k], List.mem_map_of_mem hk, by simpa [Fit] using hacc⟩
  | only ha hall iha => exact iha ho hp hts hK hany
  | last ha hz iha => cases ho; exact iha rfl hp hts hK hany
  | onto ha hb iha ihb =>
    simp only [Task.passes, Pattern.passes, Bool.and_eq_true] at hp
    obtain ⟨w, hw, _⟩ := ha.wide hp.1 hts
    have hts' := hw.terminated hts
    exact iha rfl hp.1 hts (ihb ho hp.2 hts' hK (Lookahead.holds_nil hts'.ne_nil)) hany
  | left => cases ho; exact hK
  | chain ha hl iha ihl =>
    simp only [Task.passes, Pattern.passes, Bool.and_eq_true] at hp
    obtain ⟨w, hw, _⟩ := ha.wide hp.1 hts
    exact iha rfl hp.1 hts (Lookahead.holds_nil (hw.terminated hts).ne_nil) hany
  | @label n l t ts vs name hn hl hs hu =>
    rw [Lookahead.holds_iff]
    exact ⟨[.name], List.mem_cons_self, by simpa [Fit, TokenClass.accepts] using hn⟩
  | labelAbsent hn =>
    cases ho
    have hlead : Lookahead.holds ([[.name]] ++ behind) _ = true := Lookahead.holds_right hK
    exact hlead
  | linksStop | linksMore | linksOnce => exact hany
  | _ => cases ho

/-! ### Trials that the first tokens rule out -/

/-- What a pattern without calls does in front of a token. -/
inductive Move where
  | fails
  | skips
  | reads

namespace Pattern

/-- The pattern reads one token or fails. -/
def flat : Pattern → Bool
  | .take k _ => k.passable
  | .ifNext [[_]] a b => a.flat && b.flat
  | _ => false

/-- The pattern reads one token or nothing. -/
def optional : Pattern → Bool
  | .left | .empty => true
  | .ifNext [[j]] (.take k _) .empty => j == k && k.passable
  | _ => false

/-- What the pattern does in front of the token, if it is flat or optional. -/
def move (t : Token) : Pattern → Move
  | .take k _ => if k.accepts t then .reads else .fails
  | .ifNext [[j]] a b => if j.accepts t then a.move t else b.move t
  | _ => .skips

/-- What the pattern may do in front of a token of the class. -/
def moves (k : TokenClass) : Pattern → List Move
  | .take j _ => if j.apart k then [.fails] else if j.covers k then [.reads] else [.fails, .reads]
  | .ifNext [[j]] a b => if j.apart k then b.moves k else if j.covers k then a.moves k else a.moves k ++ b.moves k
  | _ => [.skips]

/-- The pattern does not match in front of tokens that fit the classes. -/
def refuses : Pattern → List TokenClass → Bool
  | .node _ a, ks | .within _ a, ks => a.refuses ks
  | _, [] => false
  | .seq a b, k :: ks =>
    if a.flat || a.optional then
      (a.moves k).all fun
        | .fails => true
        | .skips => b.refuses (k :: ks)
        | .reads => b.refuses ks
    else (Pattern.seq a b).firsts.all (·.apart k)
  | p, k :: _ => p.firsts.all (·.apart k)

private theorem move_mem_moves {k : TokenClass} {t : Token} (hk : k.accepts t = true) (p : Pattern) :
    p.move t ∈ p.moves k := by
  fun_induction Pattern.moves k p with
  | case1 j e hj => simp [move, TokenClass.not_accepts_of_apart hj hk]
  | case2 j e _ hj => simp [move, TokenClass.accepts_of_covers hj hk]
  | case3 j e => by_cases hj : j.accepts t = true <;> simp [move, hj]
  | case4 j a b hj ihb => simpa [move, TokenClass.not_accepts_of_apart hj hk] using ihb
  | case5 j a b _ hj iha => simpa [move, TokenClass.accepts_of_covers hj hk] using iha
  | case6 j a b _ _ iha ihb =>
    by_cases hj : j.accepts t = true
    · simp [move, hj, iha]
    · simp [move, hj, ihb]
  | case7 p hp hp' =>
    unfold move
    split
    · exact absurd rfl (hp _ _)
    · exact absurd rfl (hp' _ _ _)
    · exact List.mem_cons_self

end Pattern

/-- The pattern does this in front of the token, whatever stands behind it and however few levels are left. -/
def Move.Shown (p : Pattern) (t : Token) : Move → Prop
  | .fails => ∀ n l ts, Reads n p l (t :: ts) none
  | .skips => ∀ n l ts, ∃ xs, Reads n p l (t :: ts) (some (xs, t :: ts))
  | .reads => t.terminal ≠ .endOfInput ∧ ∀ n l ts, ts ≠ [] → ∃ xs, Reads n p l (t :: ts) (some (xs, ts))

namespace Pattern

private theorem shown_take {k : TokenClass} (hk : k.passable = true) (e : String) (t : Token) :
    ((Pattern.take k e).move t).Shown (.take k e) t := by
  by_cases hacc : k.accepts t = true
  · have ht := TokenClass.ne_endOfInput hk hacc
    simp only [move, hacc, if_true]
    exact ⟨ht, fun n l ts hts => ⟨_, .token hacc ht hts⟩⟩
  · simp only [move, hacc]
    exact fun n l ts => .takeNot (by simpa using hacc)

private theorem shown_ifNext {j : TokenClass} {a b : Pattern} {t : Token} (ha : (a.move t).Shown a t)
    (hb : (b.move t).Shown b t) : ((Pattern.ifNext [[j]] a b).move t).Shown (.ifNext [[j]] a b) t := by
  by_cases hj : j.accepts t = true
  · have hold : ∀ ts, Lookahead.holds [[j]] (t :: ts) = true := fun ts => by rw [Lookahead.holds_one, hj]
    simp only [move, hj, if_true]
    cases hm : a.move t with
    | fails => rw [hm] at ha; exact fun n l ts => .nextYes (hold ts) (ha n l ts)
    | skips => rw [hm] at ha; exact fun n l ts => (ha n l ts).imp fun _ => .nextYes (hold ts)
    | reads => rw [hm] at ha; exact ⟨ha.1, fun n l ts hts => (ha.2 n l ts hts).imp fun _ => .nextYes (hold ts)⟩
  · rw [Bool.not_eq_true] at hj
    have hold : ∀ ts, Lookahead.holds [[j]] (t :: ts) = false := fun ts => by rw [Lookahead.holds_one, hj]
    simp only [move, hj, Bool.false_eq_true, if_false]
    cases hm : b.move t with
    | fails => rw [hm] at hb; exact fun n l ts => .nextNo (hold ts) (hb n l ts)
    | skips => rw [hm] at hb; exact fun n l ts => (hb n l ts).imp fun _ => .nextNo (hold ts)
    | reads => rw [hm] at hb; exact ⟨hb.1, fun n l ts hts => (hb.2 n l ts hts).imp fun _ => .nextNo (hold ts)⟩

private theorem shown_of_flat {p : Pattern} (hp : p.flat = true) (t : Token) :
    (p.move t).Shown p t ∧ p.move t ≠ .skips := by
  fun_induction Pattern.flat p with
  | case1 k e => exact ⟨shown_take hp e t, by unfold move; split <;> simp⟩
  | case2 j a b iha ihb =>
    rw [Bool.and_eq_true] at hp
    refine ⟨shown_ifNext (iha hp.1).1 (ihb hp.2).1, ?_⟩
    unfold move
    split
    · exact (iha hp.1).2
    · exact (ihb hp.2).2
  | case3 => cases hp

private theorem shown_of_optional {p : Pattern} (hp : p.optional = true) (t : Token) :
    (p.move t).Shown p t ∧ p.move t ≠ .fails := by
  have hempty : (Pattern.empty.move t).Shown .empty t := fun _ _ _ => ⟨_, .empty⟩
  unfold optional at hp
  split at hp
  · exact ⟨fun _ _ _ => ⟨_, .left⟩, by simp [move]⟩
  · exact ⟨hempty, by simp [move]⟩
  · rename_i j k e
    simp only [Bool.and_eq_true, beq_iff_eq] at hp
    obtain ⟨rfl, hk⟩ := hp
    refine ⟨shown_ifNext (shown_take hk e t) hempty, ?_⟩
    by_cases hj : j.accepts t = true <;> simp [move, hj]
  · cases hp

end Pattern

/-- A token that fits classes apart from all of the first ones is foreign. -/
private theorem Token.Foreign.of_apart {t : Token} {k : TokenClass} {ks : List TokenClass} (hk : k.accepts t = true)
    (h : ks.all (·.apart k) = true) : t.Foreign ks :=
  fun j hj => TokenClass.not_accepts_of_apart (List.all_eq_true.1 h j hj) hk

namespace Reads

variable {n : Nat} {p a b : Pattern} {l : List Tree} {ts ts' us : List Token} {k k' : TokenClass}
  {ks ks' : List TokenClass}

private theorem ruledOut_first (h : Reads n p l ts none) (hf : Fit (k :: ks) ts) (hf' : Fit (k' :: ks') ts')
    (hr : p.firsts.all (·.apart k) = true) (hr' : p.firsts.all (·.apart k') = true) : Reads n p l ts' none := by
  cases ts with
  | nil => cases hf
  | cons t ts =>
    cases ts' with
    | nil => cases hf'
    | cons t' ts' =>
      obtain ⟨_, h', hu⟩ := h.foreign rfl (.of_apart hf.head hr) (.of_apart hf'.head hr') ts' l
      cases hu
      exact h'

/-- Behind a first part that matches, the second part has failed. -/
private theorem second_of_none (h : Reads n (Pattern.seq a b) l ts none) {xs : List Tree}
    (ha : Reads n a l ts (some (xs, us))) (hts : ts ≠ []) : Reads n b l us none := by
  cases h with
  | seqFirst ha' => cases ha'.unique ha hts
  | seqSecond ha' hb =>
    cases ha'.unique ha hts
    exact hb

private theorem refuses_second {t : Token} (hplain : (a.flat || a.optional) = true)
    (hr : (Pattern.seq a b).refuses (k :: ks) = true) (hk : k.accepts t = true) :
    (a.move t = .skips → b.refuses (k :: ks) = true) ∧ (a.move t = .reads → b.refuses ks = true) := by
  simp only [Pattern.refuses, hplain, if_true, List.all_eq_true] at hr
  have hmove := hr _ (Pattern.move_mem_moves hk a)
  constructor
  · intro hm
    rwa [hm] at hmove
  · intro hm
    rwa [hm] at hmove

private theorem shown_of_plain (hplain : (a.flat || a.optional) = true) (t : Token) : (a.move t).Shown a t := by
  rw [Bool.or_eq_true] at hplain
  exact hplain.elim (fun h => (Pattern.shown_of_flat h t).1) (fun h => (Pattern.shown_of_optional h t).1)

/-- A trial that the first tokens rule out fails on the shorter stream, and needs no more levels for that. -/
theorem ruledOut (h : Reads n p l ts none) (hcut : CutOff ts ts') (hf : Fit ks ts) (hf' : Fit ks' ts')
    (hr : p.refuses ks = true) (hr' : p.refuses ks' = true) : Reads n p l ts' none := by
  induction p generalizing n ts ts' ks ks' with
  | seq a b _ ihb =>
    cases ks with
    | nil => cases hr
    | cons k ks =>
    cases ks' with
    | nil => cases hr'
    | cons k' ks' =>
    by_cases hplain : (a.flat || a.optional) = true
    · have hshow := shown_of_plain hplain
      cases hcut with
      | @stop _ e hts he =>
        have hsecond' := refuses_second hplain hr' hf'.head
        have hshow' := hshow e
        cases hm' : a.move e with
        | fails =>
          rw [hm'] at hshow'
          exact .seqFirst (hshow' n l [])
        | reads =>
          rw [hm'] at hshow'
          exact absurd he hshow'.1
        | skips =>
          -- Only an optional part skips a token; it has not failed on the whole stream then.
          have hopt : a.optional = true := by
            rcases (Bool.or_eq_true _ _).mp hplain with hflat | hopt
            · exact absurd hm' (Pattern.shown_of_flat hflat e).2
            · exact hopt
          rw [hm'] at hshow'
          obtain ⟨_, ha'⟩ := hshow' n l []
          obtain ⟨t, u, rfl⟩ := List.exists_cons_of_ne_nil hts.ne_nil
          have hsecond := refuses_second hplain hr hf.head
          have hshow := hshow t
          cases hm : a.move t with
          | fails => exact absurd hm (Pattern.shown_of_optional hopt t).2
          | skips =>
            rw [hm] at hshow
            obtain ⟨_, ha⟩ := hshow n l u
            have hb := h.second_of_none ha (by simp)
            exact .seqSecond ha' (ihb hb (.stop hts he) hf hf' (hsecond.1 hm) (hsecond'.1 hm'))
          | reads =>
            rw [hm] at hshow
            have hu := (hts.tail hshow.1).1
            obtain ⟨_, ha⟩ := hshow.2 n l u hu.ne_nil
            have hb := h.second_of_none ha (by simp)
            rw [Fit.cons_iff hu.ne_nil] at hf
            exact .seqSecond ha' (ihb hb (.stop hu he) hf.2 hf' (hsecond.2 hm) (hsecond'.1 hm'))
      | @step t u u' hcut' =>
        obtain ⟨hu, hu'⟩ := hcut'.terminated
        have hsecond := refuses_second hplain hr hf.head
        have hsecond' := refuses_second hplain hr' hf'.head
        have hshow := hshow t
        cases hm : a.move t with
        | fails =>
          rw [hm] at hshow
          exact .seqFirst (hshow n l u')
        | skips =>
          rw [hm] at hshow
          obtain ⟨_, ha⟩ := hshow n l u
          obtain ⟨_, ha'⟩ := hshow n l u'
          have hb := h.second_of_none ha (by simp)
          exact .seqSecond ha' (ihb hb (.step hcut') hf hf' (hsecond.1 hm) (hsecond'.1 hm))
        | reads =>
          rw [hm] at hshow
          obtain ⟨_, ha⟩ := hshow.2 n l u hu.ne_nil
          obtain ⟨_, ha'⟩ := hshow.2 n l u' hu'.ne_nil
          have hb := h.second_of_none ha (by simp)
          rw [Fit.cons_iff hu.ne_nil] at hf
          rw [Fit.cons_iff hu'.ne_nil] at hf'
          exact .seqSecond ha' (ihb hb hcut' hf.2 hf'.2 (hsecond.2 hm) (hsecond'.2 hm))
    · simp only [Pattern.refuses, hplain] at hr hr'
      exact h.ruledOut_first hf hf' hr hr'
  | node r a iha =>
    cases h with
    | nodeNot ha => exact .nodeNot (iha ha hcut hf hf' hr hr')
  | within r a iha =>
    cases h with
    | within ha => exact .within (iha ha hcut hf hf' hr hr')
  | _ =>
    cases ks with
    | nil => cases hr
    | cons k ks =>
    cases ks' with
    | nil => cases hr'
    | cons k' ks' => exact h.ruledOut_first hf hf' hr hr'

end Reads

end PlsqlLint
