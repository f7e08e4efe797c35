import Mathlib
import PlsqlLint.Check.Message

/-!
# Filling in a template

The arguments of a message are put in one after the other, each into the text that the ones before it have left.  To
fill in all of them at once (`substitute`) looks for places in the template alone.  The two differ if the text of an
argument, by itself or together with the template around it, forms a place for a later argument
(`fillTemplate_ne_substitute`).

Filling in one more argument is right just if the arguments before it have made no new place for it, unless it is the
text of its own place (`fill_step`).  From step to step this decides whether a message is right up to each of its
arguments (`fillTemplate_stages`).
-/

namespace PlsqlLint

/-! ### Places -/

/-- The place of the argument with number `n`. -/
def place (n : Nat) : List Char := '\x7b' :: placeTail n

/-- How often the place of the argument with number `n` stands in a text. -/
def places (n : Nat) : List Char → Nat
  | [] => 0
  | c :: cs => (if (place n).isPrefixOf (c :: cs) then 1 else 0) + places n cs

section Places

variable {m n : Nat} {c : Char} {cs ds : List Char}

private theorem place_append (n : Nat) (cs : List Char) : place n ++ cs = '\x7b' :: (placeTail n ++ cs) := rfl

private theorem digit_of_mem_toDigits {n : Nat} (h : c ∈ Nat.toDigits 10 n) : c.isDigit = true :=
  Nat.isDigit_of_mem_toDigits (by decide) (by decide) h

private theorem open_not_mem_placeTail (n : Nat) : '\x7b' ∉ placeTail n := by
  intro h
  rcases List.mem_append.1 h with h | h
  · exact absurd (digit_of_mem_toDigits h) (by decide)
  · exact absurd h (by decide)

private theorem close_not_mem_toDigits (n : Nat) : '\x7d' ∉ Nat.toDigits 10 n :=
  fun h => absurd (digit_of_mem_toDigits h) (by decide)

/-- Up to the first `x`, a list can be told from what stands there. -/
private theorem eq_of_append_cons_eq {x : Char} {as bs as' bs' : List Char} (ha : x ∉ as) (hb : x ∉ bs)
    (h : as ++ x :: as' = bs ++ x :: bs') : as = bs := by
  have htake : ∀ {ds : List Char} (es : List Char), x ∉ ds → (ds ++ x :: es).takeWhile (· != x) = ds := by
    intro ds es hd
    rw [List.takeWhile_append_of_pos (by grind), List.takeWhile_cons_of_neg (by simp), List.append_nil]
  rw [← htake as' ha, h, htake bs' hb]

/-- At most one place stands at the beginning of a text. -/
private theorem eq_of_place_isPrefix (hm : place m <+: cs) (hn : place n <+: cs) : m = n := by
  obtain ⟨ds, rfl⟩ := hm
  obtain ⟨es, hes⟩ := hn
  have hdigits : Nat.toDigits 10 m = Nat.toDigits 10 n := by
    simp only [place, placeTail, List.cons_append, List.append_assoc, List.cons.injEq, true_and, List.nil_append] at hes
    exact (eq_of_append_cons_eq (close_not_mem_toDigits n) (close_not_mem_toDigits m) hes).symm
  rw [← Nat.ofDigitChars_ten_toDigits (n := m), hdigits, Nat.ofDigitChars_ten_toDigits]

/-- What does not hold `x` is not continued by `x`. -/
private theorem isPrefix_append_cons {x : Char} {as : List Char} (h : x ∉ as) : as <+: cs ++ x :: ds ↔ as <+: cs := by
  constructor
  · intro hp
    rcases List.prefix_or_prefix_of_prefix hp (List.prefix_append cs (x :: ds)) with hp' | ⟨bs, rfl⟩
    · exact hp'
    · cases bs with
      | nil => rw [List.append_nil]
      | cons b bs =>
        obtain ⟨rfl, -⟩ := List.cons_prefix_cons.1 ((List.prefix_append_right_inj cs).1 hp)
        exact absurd (by simp) h
  · intro hp
    exact hp.trans (List.prefix_append ..)

/-- No place goes on with an opening brace. -/
private theorem place_isPrefix_append (n : Nat) (c : Char) (cs ds : List Char) :
    (place n).isPrefixOf (c :: cs ++ '\x7b' :: ds) = (place n).isPrefixOf (c :: cs) := by
  rw [Bool.eq_iff_iff, List.isPrefixOf_iff_prefix, List.isPrefixOf_iff_prefix, place, List.cons_append,
    List.cons_prefix_cons, List.cons_prefix_cons, isPrefix_append_cons (open_not_mem_placeTail n)]

private theorem place_not_isPrefix (h : c ≠ '\x7b') (n : Nat) (cs : List Char) :
    (place n).isPrefixOf (c :: cs) = false := by
  simp [place, List.isPrefixOf, Ne.symm h]

private theorem places_append_open (n : Nat) (cs ds : List Char) :
    places n (cs ++ '\x7b' :: ds) = places n cs + places n ('\x7b' :: ds) := by
  induction cs with
  | nil => simp [places]
  | cons c cs ih =>
    rw [List.cons_append, places, ih, ← List.cons_append, place_isPrefix_append, places.eq_def n (c :: cs)]
    exact (Nat.add_assoc ..).symm

/-- Without an opening brace there is no place. -/
private theorem places_append_of_not_mem (h : '\x7b' ∉ cs) (n : Nat) (ds : List Char) :
    places n (cs ++ ds) = places n ds := by
  induction cs with
  | nil => rfl
  | cons c cs ih =>
    rw [List.mem_cons, not_or] at h
    rw [List.cons_append, places, place_not_isPrefix (Ne.symm h.1), ih h.2]
    simp

private theorem places_place_append (n : Nat) (cs : List Char) : places n (place n ++ cs) = 1 + places n cs := by
  have hhead : (place n).isPrefixOf (place n ++ cs) = true := List.isPrefixOf_iff_prefix.2 (List.prefix_append ..)
  rw [place_append] at hhead ⊢
  rw [places, hhead, if_pos rfl, places_append_of_not_mem (open_not_mem_placeTail n)]

private theorem places_append_place (n : Nat) (cs ds : List Char) :
    places n (cs ++ (place n ++ ds)) = places n cs + (1 + places n ds) := by
  rw [← places_place_append, place_append, places_append_open]

/-- A text without the place, or one in front of the first place and one behind it. -/
private theorem places_induction {motive : List Char → Prop} (absent : ∀ cs, places n cs = 0 → motive cs)
    (present : ∀ cs ds, places n cs = 0 → motive ds → motive (cs ++ (place n ++ ds))) (cs : List Char) : motive cs := by
  have hfirst : ∀ cs : List Char, places n cs ≠ 0 → ∃ as bs, cs = as ++ (place n ++ bs) ∧ places n as = 0 := by
    intro cs
    induction cs with
    | nil => intro h; exact absurd rfl h
    | cons c cs ih =>
      intro h
      by_cases hp : place n <+: c :: cs
      · obtain ⟨bs, hbs⟩ := hp
        exact ⟨[], bs, hbs.symm, rfl⟩
      · have hp' : (place n).isPrefixOf (c :: cs) = false := by
          rwa [← Bool.not_eq_true, List.isPrefixOf_iff_prefix]
        rw [places, hp'] at h
        obtain ⟨as, bs, rfl, has⟩ := ih (by simpa using h)
        refine ⟨c :: as, bs, rfl, ?_⟩
        rw [place_append n bs, ← List.cons_append, place_isPrefix_append] at hp'
        rw [places, hp', has]
        rfl
  induction hlen : cs.length using Nat.strongRecOn generalizing cs with
  | ind len ih =>
    by_cases h : places n cs = 0
    · exact absent cs h
    · obtain ⟨as, bs, rfl, has⟩ := hfirst cs h
      refine present as bs has (ih bs.length ?_ bs rfl)
      simp only [List.length_append, place, List.length_cons] at hlen
      omega

end Places

/-! ### Filling in at once -/

/-- Arguments with the numbers of their places. -/
abbrev Filling := List (String × Nat)

namespace Filling

/-- The argument whose place stands at the beginning of a text. -/
def here? (args : Filling) (text : List Char) : Option (String × Nat) :=
  args.find? fun a => (place a.2).isPrefixOf text

/-- Puts all arguments in at once.  Only the text that is given is searched for places. -/
def fill (args : Filling) : List Char → List Char
  | [] => []
  | c :: cs =>
    match args.here? (c :: cs) with
    | some a => a.1.toList ++ fill args (cs.drop (placeTail a.2).length)
    | none => c :: fill args cs
termination_by cs => cs.length
decreasing_by all_goals simp; try omega

/-- No two arguments have the same number. -/
def Apart (args : Filling) : Prop := (args.map Prod.snd).Nodup

variable {args : Filling} {a : String × Nat} {n : Nat} {c : Char} {cs ds : List Char}

private theorem here?_eq_none : args.here? cs = none ↔ ∀ a ∈ args, ¬ place a.2 <+: cs := by
  simp only [here?, List.find?_eq_none, List.isPrefixOf_iff_prefix]

private theorem here?_spec (h : args.here? cs = some a) : a ∈ args ∧ place a.2 <+: cs := by
  have hfits := List.find?_some h
  exact ⟨List.mem_of_find?_eq_some h, List.isPrefixOf_iff_prefix.1 hfits⟩

private theorem here?_eq_some (hargs : args.Apart) (ha : a ∈ args) (h : place a.2 <+: cs) : args.here? cs = some a := by
  cases hb : args.here? cs with
  | none => exact absurd h (here?_eq_none.1 hb a ha)
  | some b =>
    obtain ⟨hmem, hprefix⟩ := here?_spec hb
    rw [List.inj_on_of_nodup_map hargs hmem ha (eq_of_place_isPrefix hprefix h)]

private theorem here?_append_open (args : Filling) (c : Char) (cs ds : List Char) :
    args.here? (c :: cs ++ '\x7b' :: ds) = args.here? (c :: cs) := by
  simp only [here?, place_isPrefix_append]

private theorem fill_some (h : args.here? (place a.2 ++ cs) = some a) :
    args.fill (place a.2 ++ cs) = a.1.toList ++ args.fill cs := by
  rw [place_append] at h ⊢
  rw [fill, h]
  simp

private theorem fill_none (h : args.here? (c :: cs) = none) : args.fill (c :: cs) = c :: args.fill cs := by
  rw [fill, h]

/-- Either a place is filled at the beginning of a text, or its first character is copied. -/
private theorem fill_induction {motive : List Char → Prop} (args : Filling) (nil : motive [])
    (filled : ∀ a ds, args.here? (place a.2 ++ ds) = some a → motive ds → motive (place a.2 ++ ds))
    (copied : ∀ c cs, args.here? (c :: cs) = none → motive cs → motive (c :: cs)) (cs : List Char) : motive cs := by
  fun_induction fill args cs with
  | case1 => exact nil
  | case2 c cs a hfind ih =>
    obtain ⟨ds, hds⟩ := (here?_spec hfind).2
    rw [← hds] at hfind ⊢
    refine filled a ds hfind ?_
    rw [place_append, List.cons.injEq] at hds
    rwa [← hds.2, List.drop_left] at ih
  | case3 c cs hfind ih => exact copied c cs hfind ih

/-- Where no place can begin, the text is copied. -/
private theorem fill_append_of_not_mem (h : '\x7b' ∉ cs) : args.fill (cs ++ ds) = cs ++ args.fill ds := by
  induction cs with
  | nil => rfl
  | cons c cs ih =>
    rw [List.mem_cons, not_or] at h
    have hnone : args.here? (c :: (cs ++ ds)) = none := by
      rw [here?_eq_none]
      intro a _ hp
      exact h.1 (List.cons_prefix_cons.1 hp).1
    rw [List.cons_append, fill_none hnone, ih h.2, List.cons_append]

/-- An opening brace starts afresh. -/
private theorem fill_append_open (args : Filling) (cs ds : List Char) :
    args.fill (cs ++ '\x7b' :: ds) = args.fill cs ++ args.fill ('\x7b' :: ds) := by
  induction cs using fill_induction args with
  | nil => rw [List.nil_append, fill, List.nil_append]
  | filled a es h ih =>
    have h' : args.here? (place a.2 ++ (es ++ '\x7b' :: ds)) = some a := by
      rwa [← List.append_assoc, place_append, here?_append_open]
    rw [List.append_assoc, fill_some h', fill_some h, ih, List.append_assoc]
  | copied c cs h ih =>
    have h' : args.here? (c :: (cs ++ '\x7b' :: ds)) = none := by
      rwa [← List.cons_append, here?_append_open]
    rw [List.cons_append, fill_none h', fill_none h, ih, List.cons_append]

private theorem fill_append_place (args : Filling) (n : Nat) (cs ds : List Char) :
    args.fill (cs ++ (place n ++ ds)) = args.fill cs ++ args.fill (place n ++ ds) :=
  fill_append_open args cs (placeTail n ++ ds)

/-- The places of other arguments stay. -/
theorem fill_other (hn : ∀ a ∈ args, a.2 ≠ n) (cs : List Char) :
    args.fill (place n ++ cs) = place n ++ args.fill cs := by
  have hnone : args.here? (place n ++ cs) = none := by
    rw [here?_eq_none]
    exact fun a ha hp => hn a ha (eq_of_place_isPrefix hp (List.prefix_append ..))
  rw [place_append] at hnone ⊢
  rw [fill_none hnone, fill_append_of_not_mem (open_not_mem_placeTail n), place_append]

private theorem fill_nil (cs : List Char) : fill [] cs = cs := by
  induction cs with
  | nil => rw [fill]
  | cons c cs ih => rw [fill_none rfl, ih]

/-- An argument without a place does nothing. -/
theorem fill_absent (args : Filling) (h : places a.2 cs = 0) : fill (args ++ [a]) cs = args.fill cs := by
  induction cs using fill_induction args with
  | nil => rw [fill, fill]
  | filled b ds hb ih =>
    have hb' : here? (args ++ [a]) (place b.2 ++ ds) = some b := by
      rw [here?, List.find?_append, ← here?, hb, Option.some_or]
    have hds : places a.2 ds = 0 := by
      rw [place_append, places, places_append_of_not_mem (open_not_mem_placeTail b.2)] at h
      omega
    rw [fill_some hb', fill_some hb, ih hds]
  | copied c cs hc ih =>
    rw [places] at h
    have hc' : here? (args ++ [a]) (c :: cs) = none := by
      have hnone := here?_eq_none.1 hc
      rw [here?_eq_none]
      intro b hb hp
      rcases List.mem_append.1 hb with hb | hb
      · exact hnone b hb hp
      · rw [List.mem_singleton.1 hb] at hp
        rw [if_pos (List.isPrefixOf_iff_prefix.2 hp)] at h
        omega
    rw [fill_none hc', fill_none hc, ih (by omega)]

/-! ### One more argument -/

section Step

variable {args : Filling} {a : String × Nat} (hargs : (args ++ [a]).Apart)

include hargs

private theorem ne_of_apart : ∀ b ∈ args, b.2 ≠ a.2 := by
  intro b hb heq
  simp only [Apart, List.map_append, List.map_cons, List.map_nil, List.nodup_append] at hargs
  exact hargs.2.2 b.2 (List.mem_map_of_mem hb) a.2 (by simp) heq

/-- Behind what holds no place of the argument, its next place is filled. -/
private theorem fill_next {cs : List Char} (h : places a.2 cs = 0) (ds : List Char) :
    fill (args ++ [a]) (cs ++ (place a.2 ++ ds)) = args.fill cs ++ (a.1.toList ++ fill (args ++ [a]) ds) := by
  have hhere : here? (args ++ [a]) (place a.2 ++ ds) = some a := here?_eq_some hargs (by simp) (List.prefix_append ..)
  rw [fill_append_place, fill_absent args h, fill_some hhere]

private theorem fill_keep (cs ds : List Char) :
    args.fill (cs ++ (place a.2 ++ ds)) = args.fill cs ++ (place a.2 ++ args.fill ds) := by
  rw [fill_append_place, fill_other (ne_of_apart hargs)]

/-- Each place of the argument is replaced by its text. -/
theorem length_fill (cs : List Char) :
    (fill (args ++ [a]) cs).length + places a.2 cs * (place a.2).length =
      (args.fill cs).length + places a.2 cs * a.1.toList.length := by
  induction cs using places_induction (n := a.2) with
  | absent cs h => rw [fill_absent args h, h, Nat.zero_mul, Nat.zero_mul]
  | present cs ds h ih =>
    rw [fill_next hargs h, fill_keep hargs, places_append_place, h, Nat.zero_add]
    simp only [List.length_append, Nat.add_mul, Nat.one_mul]
    omega

private theorem places_le_fill (cs : List Char) : places a.2 cs ≤ places a.2 (args.fill cs) := by
  induction cs using places_induction (n := a.2) with
  | absent cs h => omega
  | present cs ds h ih =>
    rw [fill_keep hargs, places_append_place, places_append_place]
    omega

/-- An argument that is the text of its own place does nothing. -/
theorem fill_own (h : a.1.toList = place a.2) (cs : List Char) : fill (args ++ [a]) cs = args.fill cs := by
  induction cs using places_induction (n := a.2) with
  | absent cs hcs => exact fill_absent args hcs
  | present cs ds hcs ih => rw [fill_next hargs hcs, fill_keep hargs, ih, h]

end Step

section Single

variable {a : String × Nat} {cs : List Char}

private theorem fill_single_absent (h : places a.2 cs = 0) : fill [a] cs = cs := by
  rw [← List.nil_append [a], fill_absent [] h, fill_nil]

private theorem fill_single_append (cs ds : List Char) :
    fill [a] (cs ++ (place a.2 ++ ds)) = fill [a] cs ++ (a.1.toList ++ fill [a] ds) := by
  have hhere : here? [a] (place a.2 ++ ds) = some a :=
    here?_eq_some (List.nodup_singleton _) (by simp) (List.prefix_append ..)
  rw [fill_append_place, fill_some hhere]

private theorem length_fill_single (cs : List Char) :
    (fill [a] cs).length + places a.2 cs * (place a.2).length = cs.length + places a.2 cs * a.1.toList.length := by
  have h := @length_fill [] a (List.nodup_singleton _) cs
  rwa [fill_nil, List.nil_append] at h

/-- An argument as long as its place changes a text that holds the place, unless it is the text of the place. -/
private theorem eq_place_of_fill_single (hlen : a.1.toList.length = (place a.2).length) (h : fill [a] cs = cs) :
    places a.2 cs = 0 ∨ a.1.toList = place a.2 := by
  induction cs using places_induction (n := a.2) with
  | absent cs hcs => exact .inl hcs
  | present cs ds hcs ih =>
    rw [fill_single_append, fill_single_absent hcs, List.append_cancel_left_eq] at h
    exact .inr (List.append_inj_left h hlen)

end Single

/-- Once some arguments have been filled in, the next one is filled in as it should be just if its places are still
those of the template, or if it is the text of its own place. -/
theorem fill_step {args : Filling} {a : String × Nat} (hargs : (args ++ [a]).Apart) (cs : List Char) :
    fill [a] (args.fill cs) = fill (args ++ [a]) cs ↔
      places a.2 (args.fill cs) = places a.2 cs ∨ a.1.toList = place a.2 := by
  constructor
  · intro h
    by_cases hlen : a.1.toList.length = (place a.2).length
    · -- The text keeps its length, so it agrees piece by piece between the places of the template.
      induction cs using places_induction (n := a.2) with
      | absent cs hcs =>
        rw [fill_absent args hcs] at h
        rw [hcs]
        exact eq_place_of_fill_single hlen h
      | present cs ds hcs ih =>
        have hfront : (fill [a] (args.fill cs)).length = (args.fill cs).length := by
          have hsingle := length_fill_single (a := a) (args.fill cs)
          rw [hlen] at hsingle
          omega
        rw [fill_keep hargs, fill_single_append, fill_next hargs hcs] at h
        obtain ⟨hcs', hrest⟩ := List.append_inj h hfront
        rcases eq_place_of_fill_single hlen hcs' with hzero | heq
        · rcases ih (List.append_cancel_left hrest) with hds | heq
          · left
            rw [fill_keep hargs, places_append_place, places_append_place, hzero, hcs, hds]
          · exact .inr heq
        · exact .inr heq
    · left
      have hsingle := length_fill_single (a := a) (args.fill cs)
      have hall := length_fill hargs cs
      rw [h] at hsingle
      zify at hsingle hall hlen ⊢
      have hprod :
          ((places a.2 (args.fill cs) : ℤ) - places a.2 cs) * ((place a.2).length - a.1.toList.length) = 0 := by
        linear_combination hsingle - hall
      rcases mul_eq_zero.1 hprod with hzero | hzero
      · exact sub_eq_zero.1 hzero
      · exact absurd (sub_eq_zero.1 hzero).symm hlen
  · rintro (h | h)
    · induction cs using places_induction (n := a.2) with
      | absent cs hcs =>
        rw [hcs] at h
        rw [fill_single_absent h, fill_absent args hcs]
      | present cs ds hcs ih =>
        have hle := places_le_fill hargs ds
        rw [fill_keep hargs, places_append_place, places_append_place, hcs] at h
        have hzero : places a.2 (args.fill cs) = 0 := by omega
        have hds : places a.2 (args.fill ds) = places a.2 ds := by omega
        rw [fill_keep hargs, fill_single_append, fill_single_absent hzero, ih hds, fill_next hargs hcs]
    · have hself := @fill_own [] a (List.nodup_singleton _) h (args.fill cs)
      rw [List.nil_append, fill_nil] at hself
      rw [hself, fill_own hargs h]

/-- The arguments of a list with their numbers. -/
def ofArgs (args : List String) : Filling := args.zipIdx

private theorem apart_ofArgs (args : List String) : (ofArgs args).Apart := by
  rw [Apart, ofArgs, List.zipIdx_map_snd]
  exact List.nodup_range'

private theorem ofArgs_concat (args : List String) (arg : String) :
    ofArgs (args ++ [arg]) = ofArgs args ++ [(arg, args.length)] := by
  simp [ofArgs, List.zipIdx_append]

private theorem mem_ofArgs {args : List String} {a : String × Nat} (h : a ∈ ofArgs args) :
    a.1 ∈ args ∧ a.2 < args.length := by
  obtain ⟨arg, n⟩ := a
  have hget : args[n]? = some arg := List.mk_mem_zipIdx_iff_getElem?.1 h
  exact ⟨List.mem_of_getElem? hget, (List.getElem?_eq_some_iff.1 hget).1⟩

private theorem fill_single_eq_replaceAll (arg : String) (n : Nat) (cs : List Char) :
    replaceAll '\x7b' (placeTail n) arg.toList cs = fill [(arg, n)] cs := by
  fun_induction replaceAll '\x7b' (placeTail n) arg.toList cs with
  | case1 => rw [fill]
  | case2 c cs h ih =>
    have hhere : here? [(arg, n)] (c :: cs) = some (arg, n) := by
      rw [Bool.and_eq_true, beq_iff_eq, List.isPrefixOf_iff_prefix] at h
      refine here?_eq_some (List.nodup_singleton _) (by simp) ?_
      rw [place, List.cons_prefix_cons]
      exact ⟨h.1.symm, h.2⟩
    rw [fill, hhere, ih]
  | case3 c cs h ih =>
    have hhere : here? [(arg, n)] (c :: cs) = none := by
      rw [Bool.and_eq_true, beq_iff_eq, List.isPrefixOf_iff_prefix] at h
      rw [here?_eq_none]
      intro a ha hp
      rw [List.mem_singleton.1 ha, place, List.cons_prefix_cons] at hp
      exact h ⟨hp.1.symm, hp.2⟩
    rw [fill, hhere, ih]

/-! ### Arguments that make no places -/

/-- A text that holds no brace and is not made of digits alone.  Such a text is neither a place nor a part of one. -/
def isInert (text : List Char) : Bool :=
  text.all (fun c => c != '\x7b' && c != '\x7d') && text.any (!·.isDigit)

section Inert

variable {args : Filling} {text digits cs : List Char} {n : Nat}

private theorem brace_not_mem_of_isInert (h : isInert text = true) : '\x7b' ∉ text ∧ '\x7d' ∉ text := by
  rw [isInert, Bool.and_eq_true, List.all_eq_true] at h
  constructor
  · intro hm
    exact absurd (h.1 _ hm) (by decide)
  · intro hm
    exact absurd (h.1 _ hm) (by decide)

/-- The number of a place and its closing brace are not found where an inert text begins. -/
private theorem not_isPrefix_of_isInert (h : isInert text = true) (hd : ∀ d ∈ digits, d.isDigit = true)
    (cs : List Char) :
    ¬ digits ++ ['\x7d'] <+: text ++ cs := by
  obtain ⟨-, hclose⟩ := brace_not_mem_of_isInert h
  intro hp
  rcases List.prefix_or_prefix_of_prefix hp (List.prefix_append text cs) with hp | hp
  · exact hclose (hp.subset (by simp))
  · rw [isPrefix_append_cons hclose] at hp
    rw [isInert, Bool.and_eq_true, List.any_eq_true] at h
    obtain ⟨c, hc, hdigit⟩ := h.2
    rw [hd c (hp.subset hc)] at hdigit
    cases hdigit

/-- What closes a place is not changed by inert arguments. -/
private theorem isPrefix_fill_iff (hargs : ∀ a ∈ args, isInert a.1.toList = true)
    (hd : ∀ d ∈ digits, d.isDigit = true) :
    digits ++ ['\x7d'] <+: args.fill cs ↔ digits ++ ['\x7d'] <+: cs := by
  induction cs using fill_induction args generalizing digits with
  | nil => rw [fill]
  | filled a ds h _ =>
    have hleft := not_isPrefix_of_isInert (hargs a (here?_spec h).1) hd (args.fill ds)
    have hright : ¬ digits ++ ['\x7d'] <+: place a.2 ++ ds := by
      rw [place_append]
      cases digits with
      | nil => simp [List.cons_prefix_cons]
      | cons d digits =>
        rw [List.cons_append, List.cons_prefix_cons]
        rintro ⟨rfl, -⟩
        exact absurd (hd _ List.mem_cons_self) (by decide)
    rw [fill_some h]
    exact iff_of_false hleft hright
  | copied c cs h ih =>
    rw [fill_none h]
    cases digits with
    | nil => simp [List.cons_prefix_cons]
    | cons d digits =>
      rw [List.forall_mem_cons] at hd
      rw [List.cons_append, List.cons_prefix_cons, List.cons_prefix_cons, ih hd.2]

private theorem places_fill (hargs : ∀ a ∈ args, isInert a.1.toList = true) (hn : ∀ a ∈ args, a.2 ≠ n)
    (cs : List Char) :
    places n (args.fill cs) = places n cs := by
  induction cs using fill_induction args with
  | nil => rw [fill]
  | filled a ds h ih =>
    obtain ⟨ha, -⟩ := here?_spec h
    have hhead : (place n).isPrefixOf (place a.2 ++ ds) = false := by
      rw [← Bool.not_eq_true, List.isPrefixOf_iff_prefix]
      exact fun hp => hn a ha (eq_of_place_isPrefix (List.prefix_append ..) hp)
    rw [place_append] at hhead
    rw [fill_some h, places_append_of_not_mem (brace_not_mem_of_isInert (hargs a ha)).1, ih, place_append, places,
      hhead, places_append_of_not_mem (open_not_mem_placeTail a.2)]
    simp
  | copied c cs h ih =>
    have hhead : (place n).isPrefixOf (c :: args.fill cs) = (place n).isPrefixOf (c :: cs) := by
      rw [Bool.eq_iff_iff, List.isPrefixOf_iff_prefix, List.isPrefixOf_iff_prefix, place, List.cons_prefix_cons,
        List.cons_prefix_cons, placeTail, isPrefix_fill_iff hargs fun d hd => digit_of_mem_toDigits hd]
    rw [fill_none h, places, hhead, ih, places]

end Inert

end Filling

/-! ### Stages of a message -/

/-- The template with all its places filled in at once. -/
def substitute (template : String) (args : List String) : String :=
  String.ofList ((Filling.ofArgs args).fill template.toList)

private theorem fillFrom_concat (n : Nat) (text : List Char) (args : List String) (arg : String) :
    fillFrom n text (args ++ [arg]) = Filling.fill [(arg, n + args.length)] (fillFrom n text args) := by
  induction args generalizing n text with
  | nil => simp [fillFrom, Filling.fill_single_eq_replaceAll]
  | cons b args ih =>
    rw [List.cons_append, fillFrom, ih, fillFrom, List.length_cons, Nat.add_right_comm, Nat.add_assoc]

section Stages

variable {template : String} {args : List String} {k : Nat} {arg : String}

private theorem fillTemplate_take_succ (h : args[k]? = some arg) :
    (fillTemplate template (args.take (k + 1))).toList =
      Filling.fill [(arg, k)] (fillTemplate template (args.take k)).toList := by
  obtain ⟨hk, rfl⟩ := List.getElem?_eq_some_iff.1 h
  have hlen : (args.take k).length = k := List.length_take_of_le (by omega)
  rw [fillTemplate, fillTemplate, String.toList_ofList, String.toList_ofList, ← List.take_concat_get' args k hk,
    fillFrom_concat, hlen, Nat.zero_add]

private theorem substitute_take_succ (h : args[k]? = some arg) :
    (substitute template (args.take (k + 1))).toList =
      Filling.fill (Filling.ofArgs (args.take k) ++ [(arg, k)]) template.toList := by
  obtain ⟨hk, rfl⟩ := List.getElem?_eq_some_iff.1 h
  have hlen : (args.take k).length = k := List.length_take_of_le (by omega)
  rw [substitute, String.toList_ofList, ← List.take_concat_get' args k hk, Filling.ofArgs_concat, hlen]

/-- If a message is right up to some argument, it is right up to the next one just if that one finds the places that
the template has for it, or is the text of its own place. -/
theorem fillTemplate_stage (h : args[k]? = some arg)
    (hk : fillTemplate template (args.take k) = substitute template (args.take k)) :
    fillTemplate template (args.take (k + 1)) = substitute template (args.take (k + 1)) ↔
      places k (substitute template (args.take k)).toList = places k template.toList ∨ arg.toList = place k := by
  have hapart : (Filling.ofArgs (args.take k) ++ [(arg, k)]).Apart := by
    obtain ⟨hlt, rfl⟩ := List.getElem?_eq_some_iff.1 h
    have hlen : (args.take k).length = k := List.length_take_of_le (by omega)
    have hall := Filling.apart_ofArgs (args.take k ++ [args[k]])
    rwa [Filling.ofArgs_concat, hlen] at hall
  rw [← String.toList_inj, fillTemplate_take_succ h, substitute_take_succ h, hk, substitute, String.toList_ofList]
  exact Filling.fill_step hapart template.toList

end Stages

/-- Filling in a message argument by argument is right up to each of them, if, and only if, no argument finds other
places than those of the template when its turn comes, unless it is the text of its own place.  Arguments of which all
but the last hold no brace and something else than digits fill in every template as it should be. -/
theorem fillTemplate_stages (template : String) (args : List String) :
    ((∀ k ≤ args.length, fillTemplate template (args.take k) = substitute template (args.take k)) ↔
      ∀ k arg, args[k]? = some arg →
        places k (substitute template (args.take k)).toList = places k template.toList ∨ arg.toList = place k) ∧
    ((∀ arg ∈ args.dropLast, Filling.isInert arg.toList = true) →
      fillTemplate template args = substitute template args) := by
  have hstages : (∀ k ≤ args.length, fillTemplate template (args.take k) = substitute template (args.take k)) ↔
      ∀ k arg, args[k]? = some arg →
        places k (substitute template (args.take k)).toList = places k template.toList ∨ arg.toList = place k := by
    constructor
    · intro h k arg hk
      have hlt := (List.getElem?_eq_some_iff.1 hk).1
      exact (fillTemplate_stage hk (h k (by omega))).1 (h (k + 1) hlt)
    · intro h k hk
      induction k with
      | zero => simp [fillTemplate, fillFrom, substitute, Filling.ofArgs, Filling.fill_nil]
      | succ k ih =>
        have harg : args[k]? = some args[k] := List.getElem?_eq_getElem hk
        exact (fillTemplate_stage harg (ih (by omega))).2 (h k args[k] harg)
  refine ⟨hstages, ?_⟩
  intro hinert
  have hall := hstages.2 ?_ args.length le_rfl
  · rwa [List.take_length] at hall
  · intro k arg hk
    left
    have hlt := (List.getElem?_eq_some_iff.1 hk).1
    rw [substitute, String.toList_ofList]
    refine Filling.places_fill ?_ ?_ _
    · intro a ha
      have hle : k ≤ args.length - 1 := by omega
      refine hinert a.1 ?_
      rw [List.dropLast_eq_take]
      exact (List.take_prefix_take_left hle).subset (Filling.mem_ofArgs ha).1
    · intro a ha
      have hlt' := (Filling.mem_ofArgs ha).2
      rw [List.length_take] at hlt'
      omega

/-- Braces of the template and of the last argument do no harm. -/
theorem fillTemplate_stages_braces :
    Filling.isInert "a".toList = true ∧
      fillTemplate "\x7b\x7b1\x7d\x7b0\x7d\x7d" ["a", "\x7b0\x7d"] = "\x7b\x7b0\x7da\x7d" ∧
      fillTemplate "\x7b\x7b1\x7d\x7b0\x7d\x7d" ["a", "\x7b0\x7d"] =
        substitute "\x7b\x7b1\x7d\x7b0\x7d\x7d" ["a", "\x7b0\x7d"] := by
  refine ⟨by decide, by cbv, (fillTemplate_stages _ _).2 ?_⟩
  simp [Filling.isInert]

/-- An argument with the place of the next one in it: that place is filled as well, although it is not one of the
template. -/
theorem fillTemplate_ne_substitute :
    fillTemplate "\x7b0\x7d" ["\x7b1\x7d", "x"] = "x" ∧ substitute "\x7b0\x7d" ["\x7b1\x7d", "x"] = "\x7b1\x7d" ∧
      ¬ ∀ template args, fillTemplate template args = substitute template args := by
  have hfill : fillTemplate "\x7b0\x7d" ["\x7b1\x7d", "x"] = "x" := by cbv
  have hsubst : substitute "\x7b0\x7d" ["\x7b1\x7d", "x"] = "\x7b1\x7d" := by cbv
  refine ⟨hfill, hsubst, fun h => ?_⟩
  have heq := h "\x7b0\x7d" ["\x7b1\x7d", "x"]
  rw [hfill, hsubst] at heq
  exact absurd heq (by decide)

end PlsqlLint
