import PlsqlLint.Proofs.Lexing
import PlsqlLint.Proofs.Literal

/-!
# Layout carries no meaning

What stands between the tokens of a text can be replaced by any blanks, the comments among it as well, and the tokens
stay the same (`tokenize_layout`).  Only their places and their trivia change.

A text is laid out from tokens (`Lexer.Laid`) if each of them is spelled out behind some blanks, and is followed by a
blank or by the end of the text.  Such a text is read back as these tokens (`Lexer.Laid.tokens_eq`).
-/

namespace PlsqlLint

/-- A token without its place and its trivia. -/
def Token.spelling (t : Token) : Terminal × String := (t.terminal, t.literal)

/-- The tokens with the blanks between them. -/
def spread (blanks : List String) (ts : List Token) : String :=
  String.join (List.zipWith (fun w t => w ++ t.literal) blanks ts)

namespace Lexer

open Lexeme

variable {a b : Lexer}

theorem next_spells {t : Token} (h : a.next = (.ok t, b)) : Spells t.terminal t.literal.toList := by
  unfold next at h
  split at h
  · cases h
  · dsimp only at h
    split at h
    · cases h
    · rename_i terminal hf
      cases h
      rw [String.toList_ofList]
      exact token_spells hf

theorem tokens_spells {ts : List Token} (h : a.tokens = .ok ts) : ∀ t ∈ ts, Spells t.terminal t.literal.toList := by
  fun_induction tokens a generalizing ts with
  | case1 a e b _ => cases h
  | case2 a t b hn ht =>
    cases h
    intro u hu
    rw [List.mem_singleton.1 hu]
    exact next_spells hn
  | case3 a t b hn ht rest hr ih =>
    cases h
    rw [List.forall_mem_cons]
    exact ⟨next_spells hn, ih hr⟩
  | case4 a t b hn ht e _ _ => cases h

/-! ### Reading what is laid out -/

theorem trivia_of_none (h : trivia? a.rest = none) : a.trivia = (.ok [], a) := by
  unfold trivia
  split
  · rfl
  · rename_i heq
    rw [h] at heq
    cases heq

theorem trivia_of_some {lexeme : Lexeme TriviaKind} {kind : TriviaKind} (h : trivia? a.rest = some lexeme)
    (hk : lexeme.found = .ok kind) {vs : List Trivia} (hb : (a.past lexeme).trivia = (.ok vs, b)) :
    a.trivia = (.ok (⟨kind, String.ofList lexeme.taken, ⟨a.position, (a.past lexeme).position⟩⟩ :: vs), b) := by
  unfold trivia
  split
  · rename_i heq
    rw [h] at heq
    cases heq
  · rename_i other heq
    rw [h] at heq
    cases heq
    rw [hk, hb]

/-- Blanks in front of what is no trivia are skipped. -/
private theorem trivia_of_blanks {w cs : List Char} (ha : a.rest = w ++ cs) (hw : ∀ c ∈ w, isBlank c = true)
    (hcs : trivia? cs = none) : ∃ vs b, a.trivia = (.ok vs, b) ∧ b.rest = cs := by
  cases w with
  | nil =>
    rw [List.nil_append] at ha
    exact ⟨[], a, trivia_of_none (by rwa [ha]), ha⟩
  | cons c w =>
    have hstop : startsWith isBlank cs = false := by
      cases cs with
      | nil => rfl
      | cons d cs =>
        by_contra hd
        have hd' : isBlank d = true := Bool.eq_true_of_not_eq_false hd
        rw [trivia?, if_pos hd'] at hcs
        cases hcs
    have hpiece : trivia? a.rest = some (ofCut .whitespace (c :: w, cs)) := by
      rw [ha, List.cons_append, trivia?, if_pos (hw c List.mem_cons_self), ← List.cons_append, whileIn_append hw hstop]
    have hbehind : (a.past (ofCut TriviaKind.whitespace (c :: w, cs))).trivia =
        (.ok [], a.past (ofCut TriviaKind.whitespace (c :: w, cs))) := trivia_of_none hcs
    exact ⟨_, _, trivia_of_some hpiece rfl hbehind, rfl⟩

/-- A spelling behind blanks is read as its terminal, if what follows does not go on with it. -/
theorem next_of_spells {terminal : Terminal} {w cs rest : List Char} (ha : a.rest = w ++ (cs ++ rest))
    (hw : ∀ c ∈ w, isBlank c = true) (hs : Spells terminal cs) (hrest : Loose rest)
    (hend : terminal = .endOfInput → rest = []) :
    ∃ t b, a.next = (.ok t, b) ∧ t.spelling = (terminal, String.ofList cs) ∧ b.rest = rest := by
  obtain ⟨vs, start, htrivia, hstart⟩ := trivia_of_blanks ha hw (hs.trivia?_eq_none hrest hend)
  have htoken := hs.token_eq hrest hend
  rw [← hstart] at htoken
  refine ⟨⟨terminal, String.ofList cs, ⟨start.position, start.position.after cs⟩, vs⟩,
    ⟨rest, start.position.after cs⟩, ?_, rfl, rfl⟩
  unfold next
  rw [htrivia]
  dsimp only
  rw [htoken]
  rfl

theorem tokens_of_last {t : Token} (h : a.next = (.ok t, b)) (ht : t.terminal = .endOfInput) : a.tokens = .ok [t] := by
  unfold tokens
  split
  · rename_i heq
    rw [h] at heq
    cases heq
  · rename_i heq
    rw [h] at heq
    cases heq
    rw [dif_pos ht]

theorem tokens_of_cons {t : Token} {ts : List Token} (h : a.next = (.ok t, b)) (ht : t.terminal ≠ .endOfInput)
    (hb : b.tokens = .ok ts) : a.tokens = .ok (t :: ts) := by
  unfold tokens
  split
  · rename_i heq
    rw [h] at heq
    cases heq
  · rename_i heq
    rw [h] at heq
    cases heq
    rw [dif_neg ht, hb]

/-- The text spells out the tokens, each behind some blanks and in front of a blank or of the end of the text. -/
inductive Laid : List Token → List Char → Prop
  | last {t w} (ht : t.terminal = .endOfInput) (hl : t.literal = "") (hw : ∀ c ∈ w, isBlank c = true) : Laid [t] w
  | cons {t ts w cs} (ht : t.terminal ≠ .endOfInput) (hs : Spells t.terminal t.literal.toList)
      (hw : ∀ c ∈ w, isBlank c = true) (hcs : Loose cs) (h : Laid ts cs) :
      Laid (t :: ts) (w ++ (t.literal.toList ++ cs))

/-- What is laid out is read back. -/
theorem Laid.tokens_eq {ts : List Token} {cs : List Char} (h : Laid ts cs) (ha : a.rest = cs) :
    ∃ us, a.tokens = .ok us ∧ us.map Token.spelling = ts.map Token.spelling := by
  induction h generalizing a with
  | @last t w ht hl hw =>
    have ha' : a.rest = w ++ ([] ++ []) := by simpa using ha
    obtain ⟨u, b, hnext, hu, -⟩ := next_of_spells ha' hw .endOfInput loose_nil (fun _ => rfl)
    have hend : u.terminal = .endOfInput := congrArg Prod.fst hu
    refine ⟨[u], tokens_of_last hnext hend, ?_⟩
    rw [List.map_singleton, List.map_singleton, hu, Token.spelling, ht, hl]
  | @cons t ts w cs ht hs hw hcs h ih =>
    obtain ⟨u, b, hnext, hu, hb⟩ := next_of_spells ha hw hs hcs (fun hend => absurd hend ht)
    have hterminal : u.terminal = t.terminal := congrArg Prod.fst hu
    obtain ⟨us, hus, hmap⟩ := ih hb
    refine ⟨u :: us, tokens_of_cons hnext (by rwa [hterminal]) hus, ?_⟩
    rw [List.map_cons, List.map_cons, hu, hmap, String.ofList_toList]
    rfl

/-! ### Laying tokens out -/

private theorem toList_spread_cons (w : String) (t : Token) (blanks : List String) (ts : List Token) :
    (spread (w :: blanks) (t :: ts)).toList = w.toList ++ (t.literal.toList ++ (spread blanks ts).toList) := by
  simp [spread, String.toList_join]

private theorem loose_append {w cs : List Char} (hw : ∀ c ∈ w, isBlank c = true) (h : w = [] → cs = []) :
    Loose (w ++ cs) := by
  cases w with
  | nil =>
    rw [h rfl]
    exact loose_nil
  | cons c w =>
    intro d hd
    cases hd
    exact hw c List.mem_cons_self

/-- Tokens are laid out with blanks of which at most the first and the last are empty. -/
theorem laid_spread {body : List Token} {last : Token} (ht : last.terminal = .endOfInput) (hl : last.literal = "")
    (hbody : ∀ t ∈ body, t.terminal ≠ .endOfInput ∧ Spells t.terminal t.literal.toList) {blanks : List String}
    (hlen : blanks.length = (body ++ [last]).length) (hblank : ∀ w ∈ blanks, ∀ c ∈ w.toList, isBlank c = true)
    (hne : ∀ w ∈ blanks.tail.dropLast, w ≠ "") :
    Laid (body ++ [last]) (spread blanks (body ++ [last])).toList := by
  induction body generalizing blanks with
  | nil =>
    obtain ⟨w, rfl⟩ := List.length_eq_one_iff.1 hlen
    have hw := hblank w (by simp)
    simpa [spread, hl] using Laid.last ht hl hw
  | cons t body ih =>
    obtain ⟨w, v, blanks, rfl⟩ : ∃ w v vs, blanks = w :: v :: vs := by
      rcases blanks with _ | ⟨w, _ | ⟨v, vs⟩⟩
      · simp at hlen
      · simp at hlen
      · exact ⟨w, v, vs, rfl⟩
    rw [List.forall_mem_cons] at hbody hblank
    have hlen' : (v :: blanks).length = (body ++ [last]).length := by simpa using hlen
    have hne' : ∀ u ∈ (v :: blanks).tail.dropLast, u ≠ "" := by
      intro u hu
      apply hne
      rw [List.tail_cons] at hu ⊢
      cases blanks with
      | nil => cases hu
      | cons x blanks => exact List.mem_cons_of_mem _ hu
    rw [List.cons_append, toList_spread_cons]
    refine .cons hbody.1.1 hbody.1.2 hblank.1 ?_ (ih hbody.2 hlen' hblank.2 hne')
    -- The next blanks are empty only in front of the end of the input, which has no text.
    obtain ⟨u, us, hus⟩ : ∃ u us, body ++ [last] = u :: us := List.exists_cons_of_ne_nil (by simp)
    rw [hus, toList_spread_cons]
    apply loose_append (hblank.2 v List.mem_cons_self)
    intro hv
    have hblanks : blanks = [] := by
      by_contra hcons
      obtain ⟨x, blanks, rfl⟩ := List.exists_cons_of_ne_nil hcons
      exact hne v (by simp) (String.toList_eq_nil_iff.1 hv)
    have hbody' : body = [] := by
      have hlength := hlen'
      rw [hblanks, List.length_append, List.length_singleton, List.length_singleton] at hlength
      exact List.eq_nil_of_length_eq_zero (by omega)
    rw [hbody', List.nil_append] at hus
    obtain ⟨rfl, rfl⟩ := List.cons.inj hus
    rw [hblanks, hl]
    rfl

end Lexer

/-- Layout carries no meaning.  If each token of a text, the end of the input among them, is written out behind blanks
of its own, of which only the first and the last may be empty, then the tokens of the new text are the same, up to
their places and their trivia. -/
theorem tokenize_layout (text : String) (tokens : List Token) (h : tokenize text = .ok tokens) (blanks : List String)
    (hlen : blanks.length = tokens.length) (hblank : ∀ w ∈ blanks, ∀ c ∈ w.toList, isBlank c = true)
    (hne : ∀ w ∈ blanks.tail.dropLast, w ≠ "") :
    ∃ others, tokenize (spread blanks tokens) = .ok others ∧
      others.map Token.spelling = tokens.map Token.spelling := by
  obtain ⟨b, hall⟩ := Lexer.tokens_takesAll h
  obtain ⟨body, last, rfl, hend, hlit, hbody⟩ := hall.closed
  have hspells := Lexer.tokens_spells h
  have hlaid : Lexer.Laid (body ++ [last]) (spread blanks (body ++ [last])).toList := by
    apply Lexer.laid_spread hend hlit _ hlen hblank hne
    intro t ht
    exact ⟨(hbody t ht).1, hspells t (List.mem_append_left _ ht)⟩
  exact hlaid.tokens_eq rfl

/-- A range, a word behind a number, a string with a mark, and a comment that goes: the same tokens between blanks. -/
theorem tokenize_layout_marks :
    ∃ tokens, tokenize "1..3fx--c\nn'a'''" = .ok tokens ∧
      spread ["", " ", "\t", "\n", "\u00a0", " "] tokens = "1 ..\t3\nfx\u00a0n'a''' " ∧
      ∃ others, tokenize (spread ["", " ", "\t", "\n", "\u00a0", " "] tokens) = .ok others ∧
        others.map Token.spelling = tokens.map Token.spelling := by
  have h : tokenize "1..3fx--c\nn'a'''" = .ok
      [⟨.number, "1", ⟨⟨1, 0, 0⟩, ⟨1, 1, 1⟩⟩, []⟩, ⟨.range, "..", ⟨⟨1, 1, 1⟩, ⟨1, 3, 3⟩⟩, []⟩,
       ⟨.number, "3", ⟨⟨1, 3, 3⟩, ⟨1, 4, 4⟩⟩, []⟩, ⟨.identifier, "fx", ⟨⟨1, 4, 4⟩, ⟨1, 6, 6⟩⟩, []⟩,
       ⟨.string, "n'a'''", ⟨⟨2, 0, 10⟩, ⟨2, 6, 16⟩⟩,
        [⟨.lineComment, "--c", ⟨⟨1, 6, 6⟩, ⟨1, 9, 9⟩⟩⟩, ⟨.whitespace, "\n", ⟨⟨1, 9, 9⟩, ⟨2, 0, 10⟩⟩⟩]⟩,
       ⟨.endOfInput, "", ⟨⟨2, 6, 16⟩, ⟨2, 6, 16⟩⟩, []⟩] := by
    decide +kernel
  have hblank : ["", " ", "\t", "\n", "\u00a0", " "].all (·.toList.all isBlank) = true := by decide
  refine ⟨_, h, by decide +kernel, tokenize_layout _ _ h _ rfl ?_ (by simp)⟩
  intro w hw c hc
  exact List.all_eq_true.1 (List.all_eq_true.1 hblank w hw) c hc

end PlsqlLint
