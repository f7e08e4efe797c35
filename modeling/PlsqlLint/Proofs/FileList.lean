import PlsqlLint.CommandLine.Run
import PlsqlLint.Proofs.BuiltIn
import PlsqlLint.Proofs.Workers

/-!
# Files on the command line

The program treats its files one by one, although it reads all of them before it analyses any and has a pool of workers
for the analysis.  Whatever order the workers have their turns in, what it shows for a list of files is what it shows
for the parts of the list, one part after the other (`run_files`).

If there is a file without a text, nothing is analysed, and the first such file is named (`exists_of_readUnits_error`).
Otherwise each file has a unit (`readUnits_eq_ok_iff`), and the reports are those of workers that deal with one unit
each (`Shows.eq_display`).
-/

namespace PlsqlLint.CommandLine

/-! ### The texts of files -/

section Texts

variable {read : String → Except String ByteArray} {file text reason : String} {files : List String}
  {units : List SourceUnit}

/-- The file can be read, and its bytes encode the text. -/
def HasText (read : String → Except String ByteArray) (file text : String) : Prop := read file = .ok text.toUTF8

/-- The file cannot be read for the reason, or its bytes encode no text. -/
def LacksText (read : String → Except String ByteArray) (file reason : String) : Prop :=
  read file = .error reason ∨ ∃ bytes, read file = .ok bytes ∧ (∀ text : String, bytes ≠ text.toUTF8) ∧ reason = notText

private theorem fromUTF8?_eq_some_iff {bytes : ByteArray} :
    String.fromUTF8? bytes = some text ↔ bytes = text.toUTF8 := by
  unfold String.fromUTF8?
  split
  · rw [Option.some.injEq]
    constructor
    · rintro rfl
      rfl
    · rintro rfl
      rfl
  · rename_i hvalid
    refine iff_of_false (by simp) ?_
    rintro rfl
    exact hvalid text.isValidUTF8

private theorem fileText_eq_ok_iff : fileText (read file) = .ok text ↔ HasText read file text := by
  unfold fileText HasText
  cases read file with
  | error e => simp
  | ok bytes =>
    rw [Except.ok.injEq, ← fromUTF8?_eq_some_iff]
    dsimp only
    split <;> simp [*]

private theorem fileText_eq_error_iff : fileText (read file) = .error reason ↔ LacksText read file reason := by
  unfold fileText LacksText
  cases read file with
  | error e => simp
  | ok bytes =>
    simp only [← fromUTF8?_eq_some_iff, ne_eq]
    split <;> simp [*, eq_comm]

private theorem HasText.unique {text' : String} (h : HasText read file text) (h' : HasText read file text') :
    text = text' := by
  rw [← fileText_eq_ok_iff] at h h'
  exact Except.ok.inj (h.symm.trans h')

private theorem HasText.not_lacksText (h : HasText read file text) : ¬ LacksText read file reason := by
  rw [← fileText_eq_ok_iff] at h
  rw [← fileText_eq_error_iff, h]
  simp

/-- The unit of a file has its name and its text. -/
def IsUnitOf (read : String → Except String ByteArray) (file : String) (unit : SourceUnit) : Prop :=
  unit.name = file ∧ HasText read file unit.text

/-- The units are those of the files. -/
theorem readUnits_eq_ok_iff : readUnits read files = .ok units ↔ List.Forall₂ (IsUnitOf read) files units := by
  induction files generalizing units with
  | nil => cases units <;> simp [readUnits]
  | cons file files ih =>
    rw [readUnits]
    constructor
    · intro h
      cases htext : fileText (read file) with
      | error reason => rw [htext] at h; cases h
      | ok text =>
        cases hrest : readUnits read files with
        | error e => rw [htext, hrest] at h; cases h
        | ok rest =>
          rw [htext, hrest] at h
          cases h
          exact .cons ⟨rfl, fileText_eq_ok_iff.1 htext⟩ (ih.1 hrest)
    · intro h
      cases h with
      | @cons _ unit _ rest hunit hrest =>
        obtain ⟨rfl, htext⟩ := hunit
        rw [fileText_eq_ok_iff.2 htext, ih.2 hrest]

/-- If the units cannot be read, it is because of the first file without a text. -/
theorem exists_of_readUnits_error (h : readUnits read files = .error (file, reason)) :
    ∃ before after, files = before ++ file :: after ∧ (∀ f ∈ before, ∃ text, HasText read f text) ∧
      LacksText read file reason := by
  induction files with
  | nil => cases h
  | cons f files ih =>
    rw [readUnits] at h
    cases htext : fileText (read f) with
    | error r =>
      rw [htext] at h
      cases h
      exact ⟨[], files, rfl, List.forall_mem_nil _, fileText_eq_error_iff.1 htext⟩
    | ok text =>
      have hfirst := fileText_eq_ok_iff.1 htext
      rw [htext] at h
      cases hrest : readUnits read files with
      | ok rest => rw [hrest] at h; cases h
      | error e =>
        rw [hrest] at h
        cases h
        obtain ⟨before, after, rfl, hbefore, hlacks⟩ := ih hrest
        exact ⟨f :: before, after, rfl, List.forall_mem_cons.2 ⟨⟨text, hfirst⟩, hbefore⟩, hlacks⟩

private theorem exists_units (h : ∀ f ∈ files, ∃ text, HasText read f text) :
    ∃ units, readUnits read files = .ok units := by
  cases hread : readUnits read files with
  | ok units => exact ⟨units, rfl⟩
  | error e =>
    obtain ⟨before, after, rfl, -, hlacks⟩ := exists_of_readUnits_error hread
    obtain ⟨text, htext⟩ := h e.1 (by simp)
    exact absurd hlacks htext.not_lacksText

theorem readUnits_append {more : List String} {others : List SourceUnit} (h : readUnits read files = .ok units)
    (hmore : readUnits read more = .ok others) : readUnits read (files ++ more) = .ok (units ++ others) := by
  rw [readUnits_eq_ok_iff] at h hmore ⊢
  exact List.rel_append h hmore

private theorem hasText_of_mem (h : List.Forall₂ (IsUnitOf read) files units) {f : String} (hf : f ∈ files) :
    ∃ text, HasText read f text := by
  induction h with
  | nil => cases hf
  | cons hunit _ ih =>
    rcases List.mem_cons.1 hf with rfl | hf
    · exact ⟨_, hunit.2⟩
    · exact ih hf

/-- Some unit has a text of a kind if and only if some file has. -/
private theorem exists_text_iff {P : String → Prop} (h : List.Forall₂ (IsUnitOf read) files units) :
    (∃ unit ∈ units, P unit.text) ↔ ∃ f ∈ files, ∃ text, HasText read f text ∧ P text := by
  induction h with
  | nil => simp
  | @cons f unit files units hunit _ ih =>
    have hhere : P unit.text ↔ ∃ text, HasText read f text ∧ P text := by
      constructor
      · intro hp
        exact ⟨unit.text, hunit.2, hp⟩
      · rintro ⟨text, htext, hp⟩
        exact hunit.2.unique htext ▸ hp
    simp only [List.exists_mem_cons_iff, ih, hhere]

end Texts

/-! ### Texts that cannot be analysed -/

/-- With these settings the text cannot be cut into tokens, or cannot be parsed by a worker with its budget of stack. -/
inductive Fails (c : Config) (host : Host) (text : String) : AnalysisError → Prop
  | lexical {e : LexError} (h : tokenize text = .error e) : Fails c host text (.lexical e)
  | parse {tokens : List Token} {e : ParseError} (h : tokenize text = .ok tokens)
      (hp : (Parser.ofTokens tokens ⟨c.maxDepth, c.workerBudget, host.stackUse⟩).parse.1 = .error e) :
      Fails c host text (.parse e)

section Reports

variable {c : Config} {host : Host} {unit : SourceUnit} {e : AnalysisError}

private theorem parseWithin_eq_error_iff {text : String} :
    (Analyzer.standard c host).parseWithin (Analyzer.standard c host).config.workerBudget text = .error e ↔
      Fails c host text e := by
  unfold Analyzer.parseWithin Parser.ofText
  constructor
  · intro h
    cases htokens : tokenize text with
    | error reason =>
      rw [htokens] at h
      cases h
      exact .lexical htokens
    | ok tokens =>
      rw [htokens] at h
      dsimp only at h
      split at h
      · cases h
      · rename_i hparse
        cases h
        exact .parse htokens hparse
  · intro h
    cases h with
    | lexical htokens => rw [htokens]
    | parse htokens hparse =>
      rw [htokens]
      dsimp only
      split
      · rename_i htree
        cases htree.symm.trans hparse
      · rename_i herror
        cases herror.symm.trans hparse
        rfl

/-- A text that cannot be analysed is reported with the reason. -/
theorem workerReport_of_fails (h : Fails c host unit.text e) :
    (Analyzer.standard c host).workerReport unit = ⟨unit.name, .error e⟩ := by
  unfold Analyzer.workerReport Analyzer.analyzeWithin
  rw [parseWithin_eq_error_iff.2 h]

/-- A report tells of a failure exactly if the text cannot be analysed. -/
theorem isFailure_workerReport_iff :
    ((Analyzer.standard c host).workerReport unit).isFailure = true ↔ ∃ e, Fails c host unit.text e := by
  constructor
  · intro h
    cases hparse : (Analyzer.standard c host).parseWithin (Analyzer.standard c host).config.workerBudget unit.text with
    | error e => exact ⟨e, parseWithin_eq_error_iff.1 hparse⟩
    | ok t =>
      unfold Analyzer.workerReport Analyzer.analyzeWithin at h
      rw [hparse] at h
      cases h
  · rintro ⟨e, h⟩
    rw [workerReport_of_fails h]
    rfl

end Reports

/-! ### What is shown for reports -/

section Displays

variable (reports more : List Report)

theorem display_append :
    (display (reports ++ more)).stdout = (display reports).stdout ++ (display more).stdout ∧
      (display (reports ++ more)).stderr = (display reports).stderr ++ (display more).stderr := by
  simp only [display, List.map_append, String.join_append, and_self]

private theorem code_display_ne_zero_iff : (display reports).code ≠ 0 ↔ ∃ r ∈ reports, r.isFailure = true := by
  rw [← List.any_eq_true]
  unfold display
  cases reports.any Report.isFailure <;> simp

end Displays

/-! ### What the program shows -/

/-- What may be shown for the files if no worker fails: that a file cannot be read, or the reports of a pool whose
workers all start, have their turns in any order, and have nothing left to do in the end. -/
inductive Shows (c : Config) (host : Host) (read : String → Except String ByteArray) (files : List String) :
    Display → Prop
  | unread {file reason : String} (h : readUnits read files = .error (file, reason)) :
      Shows c host read files (readFailure file reason)
  | reported {units : List SourceUnit} {starts : Nat → Bool} {schedule : List Turn}
      (h : readUnits read files = .ok units)
      (hstarts : ∀ i < (Analyzer.standard c host).workersFor units.length, starts i = true)
      (hperish : ∀ turn ∈ schedule, turn.perishes = false)
      (hsettled : ((Pool.start (.standard c host) ((Analyzer.standard c host).workersFor units.length) starts units).run
        (.standard c host) schedule).isSettled = true) :
      Shows c host read files (display (((Pool.start (.standard c host)
        ((Analyzer.standard c host).workersFor units.length) starts units).run (.standard c host) schedule).reports
          units))

section Runs

variable {c : Config} {host : Host} {read : String → Except String ByteArray} {files : List String} {d : Display}

/-- The reports are those of workers that deal with one unit each. -/
theorem Shows.eq_display (h : Shows c host read files d) {units : List SourceUnit}
    (hunits : readUnits read files = .ok units) : d = display (units.map (Analyzer.standard c host).workerReport) := by
  cases h with
  | unread hread => rw [hunits] at hread; cases hread
  | reported hread hstarts hperish hsettled =>
    obtain rfl := Except.ok.inj (hread.symm.trans hunits)
    have hreport := Analyzer.handsIn_workerReport (a := Analyzer.standard c host) Check.resets_builtIn
    rw [Analyzer.reports_of_handsIn hreport hstarts hperish hsettled]

/-- The rounds in which the workers have their turns are one of the orders that they may come in. -/
private theorem shows_analyzeOn {units : List SourceUnit} (hunits : readUnits read files = .ok units)
    (starts : Nat → Bool) (hstarts : ∀ i, starts i = true) :
    Shows c host read files (display ((Analyzer.standard c host).analyzeOn starts units)) :=
  .reported hunits (fun i _ => hstarts i) Pool.perishes_rounds (Pool.isSettled_start _ _ _)

theorem existsUnique_shows (c : Config) (host : Host) (read : String → Except String ByteArray) (files : List String) :
    ∃! d, Shows c host read files d := by
  cases hread : readUnits read files with
  | error e =>
    refine ⟨readFailure e.1 e.2, .unread hread, ?_⟩
    intro d hd
    cases hd with
    | unread h => rw [hread] at h; cases h; rfl
    | reported h => rw [hread] at h; cases h
  | ok units =>
    have hd : Shows c host read files _ := shows_analyzeOn hread (fun _ => true) fun _ => rfl
    exact ⟨_, hd, fun d' hd' => (hd'.eq_display hread).trans (hd.eq_display hread).symm⟩

/-- The program shows this for its files, if its workers can be started. -/
theorem shows_run (o : Options) (hlist : o.listChecks = false)
    (hstarts : ∀ i, host.starts (o.config host).workerStack i = true) :
    Shows (o.config host) host read o.files (run host o read) := by
  unfold run
  rw [hlist, if_neg (by simp)]
  cases hread : readUnits read o.files with
  | error e => exact .unread hread
  | ok units => exact shows_analyzeOn hread _ hstarts

/-- What is shown for two lists of files, one after the other. -/
theorem Shows.append {more : List String} {d₁ d₂ : Display} (hfiles : ∀ f ∈ files ++ more, ∃ text, HasText read f text)
    (h₁ : Shows c host read files d₁) (h₂ : Shows c host read more d₂) (h : Shows c host read (files ++ more) d) :
    d.stdout = d₁.stdout ++ d₂.stdout ∧ d.stderr = d₁.stderr ++ d₂.stderr ∧
      (d.code ≠ 0 ↔ d₁.code ≠ 0 ∨ d₂.code ≠ 0) := by
  rw [List.forall_mem_append] at hfiles
  obtain ⟨units, hunits⟩ := exists_units hfiles.1
  obtain ⟨others, hothers⟩ := exists_units hfiles.2
  rw [h₁.eq_display hunits, h₂.eq_display hothers, h.eq_display (readUnits_append hunits hothers), List.map_append]
  obtain ⟨hout, herr⟩ := display_append (units.map (Analyzer.standard c host).workerReport)
    (others.map (Analyzer.standard c host).workerReport)
  refine ⟨hout, herr, ?_⟩
  simp only [code_display_ne_zero_iff, List.mem_append, or_and_right, exists_or]

/-- The run fails exactly if the text of some file cannot be analysed. -/
theorem Shows.code_ne_zero_iff (hfiles : ∀ f ∈ files, ∃ text, HasText read f text) (h : Shows c host read files d) :
    d.code ≠ 0 ↔ ∃ f ∈ files, ∃ text, HasText read f text ∧ ∃ e, Fails c host text e := by
  obtain ⟨units, hunits⟩ := exists_units hfiles
  rw [h.eq_display hunits, code_display_ne_zero_iff, ← exists_text_iff (readUnits_eq_ok_iff.1 hunits)]
  simp only [List.mem_map, exists_exists_and_eq_and, isFailure_workerReport_iff]

/-- For a file whose text cannot be analysed there is one line, and it is not on the standard output. -/
theorem Shows.of_fails {file text : String} {e : AnalysisError} (htext : HasText read file text)
    (hfails : Fails c host text e) (h : Shows c host read [file] d) :
    d.code ≠ 0 ∧ d.stdout = "" ∧ d.stderr = file ++ ": error: " ++ e.message ++ "\n" := by
  have hunits : readUnits read [file] = .ok [⟨file, text⟩] := readUnits_eq_ok_iff.2 (.cons ⟨rfl, htext⟩ .nil)
  rw [h.eq_display hunits, List.map_singleton, workerReport_of_fails hfails]
  simp [display, reportOutput, reportErrors, Report.isFailure, Except.isOk, Except.toBool, String.join_cons,
    String.join_nil]

/-- If a file has no text, the first such file is named, and there is nothing on the standard output. -/
theorem Shows.of_lacksText (hfiles : ∃ f ∈ files, ∃ reason, LacksText read f reason) (h : Shows c host read files d) :
    ∃ before file after reason, files = before ++ file :: after ∧ (∀ f ∈ before, ∃ text, HasText read f text) ∧
      LacksText read file reason ∧ d = readFailure file reason := by
  cases h with
  | unread hread =>
    obtain ⟨before, after, hsplit, hbefore, hlacks⟩ := exists_of_readUnits_error hread
    exact ⟨before, _, after, _, hsplit, hbefore, hlacks, rfl⟩
  | reported hread =>
    obtain ⟨f, hf, reason, hlacks⟩ := hfiles
    obtain ⟨text, htext⟩ := hasText_of_mem (readUnits_eq_ok_iff.1 hread) hf
    exact absurd hlacks htext.not_lacksText

end Runs

/-- Whatever files go with the same options, the program shows one thing for them, in whatever order the workers have
their turns, and however much stack the parses use.

If all files have texts, what is shown for some files and then others is what is shown for the first and then for the
others, on the standard output and on the standard error.  The run fails if it fails for the first or for the others,
that is, if the text of some file cannot be cut into tokens or parsed.  Such a file adds a line to the standard error
and nothing to the standard output, and leaves all that is shown for the other files as it is.

If some file has no text, the run fails with nothing on the standard output, and the first such file is named. -/
theorem run_files (host : Host) (o : Options) (hlist : o.listChecks = false)
    (hstarts : ∀ i, host.starts (o.config host).workerStack i = true) (read : String → Except String ByteArray) :
    let c := o.config host
    (∀ files, Shows c host read files (run host { o with files := files } read)) ∧
    (∀ files, ∃! d, Shows c host read files d) ∧
    (∀ F G d₁ d₂ d, (∀ f ∈ F ++ G, ∃ text, HasText read f text) → Shows c host read F d₁ →
      Shows c host read G d₂ → Shows c host read (F ++ G) d →
      d.stdout = d₁.stdout ++ d₂.stdout ∧ d.stderr = d₁.stderr ++ d₂.stderr ∧
      (d.code ≠ 0 ↔ d₁.code ≠ 0 ∨ d₂.code ≠ 0) ∧
      (d.code ≠ 0 ↔ ∃ f ∈ F ++ G, ∃ text, HasText read f text ∧ ∃ e, Fails c host text e)) ∧
    (∀ F G file text e d₁ d₂ d, (∀ f ∈ F ++ G, ∃ text, HasText read f text) → HasText read file text →
      Fails c host text e → Shows c host read F d₁ → Shows c host read G d₂ →
      Shows c host read (F ++ file :: G) d →
      d.code ≠ 0 ∧ d.stdout = d₁.stdout ++ d₂.stdout ∧
      d.stderr = d₁.stderr ++ (file ++ ": error: " ++ e.message ++ "\n") ++ d₂.stderr) ∧
    ∀ files d, (∃ f ∈ files, ∃ reason, LacksText read f reason) → Shows c host read files d →
      d.code ≠ 0 ∧ d.stdout = "" ∧
      ∃ before file after reason, files = before ++ file :: after ∧ (∀ f ∈ before, ∃ text, HasText read f text) ∧
        LacksText read file reason ∧
        d.stderr = "Error: Failed to read " ++ file ++ "\n\nCaused by:\n    " ++ reason ++ "\n" := by
  intro c
  refine ⟨?_, existsUnique_shows c host read, ?_, ?_, ?_⟩
  · intro files
    exact shows_run { o with files := files } hlist hstarts
  · intro F G d₁ d₂ d hfiles h₁ h₂ h
    obtain ⟨hout, herr, hcode⟩ := Shows.append hfiles h₁ h₂ h
    exact ⟨hout, herr, hcode, h.code_ne_zero_iff hfiles⟩
  · intro F G file text e d₁ d₂ d hfiles htext hfails h₁ h₂ h
    rw [List.forall_mem_append] at hfiles
    have hbehind : ∀ f ∈ file :: G, ∃ text, HasText read f text := List.forall_mem_cons.2 ⟨⟨text, htext⟩, hfiles.2⟩
    obtain ⟨d₃, h₃, -⟩ := existsUnique_shows c host read [file]
    obtain ⟨d₄, h₄, -⟩ := existsUnique_shows c host read (file :: G)
    obtain ⟨hfail, hnothing, hline⟩ := h₃.of_fails htext hfails
    obtain ⟨hout, herr, hcode⟩ := Shows.append (List.forall_mem_append.2 ⟨hfiles.1, hbehind⟩) h₁ h₄ h
    obtain ⟨hout', herr', hcode'⟩ := Shows.append hbehind h₃ h₂ h₄
    refine ⟨hcode.2 (.inr (hcode'.2 (.inl hfail))), ?_, ?_⟩
    · rw [hout, hout', hnothing, String.empty_append]
    · rw [herr, herr', hline, ← String.append_assoc]
  · intro files d hfiles h
    obtain ⟨before, file, after, reason, hsplit, hbefore, hlacks, rfl⟩ := h.of_lacksText hfiles
    exact ⟨by simp [readFailure], rfl, before, file, after, reason, hsplit, hbefore, hlacks, rfl⟩

/-- What a worker reports of a text in which something is compared with itself. -/
private theorem workerReport_same (c : Config) (hdepth : c.maxDepth = 64) (hbudget : c.workerBudget = 12582912)
    (host : Host) (huse : host.stackUse = fun rules _ => 16384 * rules.length) :
    (Analyzer.standard c host).workerReport ⟨"same", "EXIT WHEN a=a;"⟩ =
      ⟨"same", .ok ⟨[⟨Check.identicalOperandsEntry, "Identical sub-expressions on both sides of operator \"=\".",
        ⟨⟨⟨1, 10, 10⟩, ⟨1, 11, 11⟩⟩, none⟩, [⟨⟨⟨1, 12, 12⟩, ⟨1, 13, 13⟩⟩, some "Original"⟩]⟩], []⟩⟩ := by
  let blank (n : Nat) : Trivia := ⟨.whitespace, " ", ⟨⟨1, n, n⟩, ⟨1, n + 1, n + 1⟩⟩⟩
  let tokens : List Token :=
    [⟨.keyword .EXIT, "EXIT", ⟨⟨1, 0, 0⟩, ⟨1, 4, 4⟩⟩, []⟩,
     ⟨.keyword .WHEN, "WHEN", ⟨⟨1, 5, 5⟩, ⟨1, 9, 9⟩⟩, [blank 4]⟩,
     ⟨.identifier, "a", ⟨⟨1, 10, 10⟩, ⟨1, 11, 11⟩⟩, [blank 9]⟩,
     ⟨.equals, "=", ⟨⟨1, 11, 11⟩, ⟨1, 12, 12⟩⟩, []⟩,
     ⟨.identifier, "a", ⟨⟨1, 12, 12⟩, ⟨1, 13, 13⟩⟩, []⟩,
     ⟨.semicolon, ";", ⟨⟨1, 13, 13⟩, ⟨1, 14, 14⟩⟩, []⟩,
     .endAt ⟨1, 14, 14⟩]
  let p := Parser.ofTokens tokens ⟨64, 12582912, fun rules _ => 16384 * rules.length⟩
  have htokens : tokenize "EXIT WHEN a=a;" = .ok tokens := by decide +kernel
  have hp : Parser.ofText "EXIT WHEN a=a;"
      ((Analyzer.standard c host).limits (Analyzer.standard c host).config.workerBudget) = .ok p := by
    have hlimits : (Analyzer.standard c host).limits (Analyzer.standard c host).config.workerBudget =
        ⟨64, 12582912, fun rules _ => 16384 * rules.length⟩ := by
      rw [← hdepth, ← hbudget, ← huse]
      rfl
    rw [Parser.ofText, htokens, hlimits]
  have hscan : (p.parse.1.toOption.map fun root => ((Engine.mk Check.builtIn).scan root).1) =
      some ⟨[⟨Check.identicalOperandsEntry, "Identical sub-expressions on both sides of operator \"=\".",
        ⟨⟨⟨1, 10, 10⟩, ⟨1, 11, 11⟩⟩, none⟩, [⟨⟨⟨1, 12, 12⟩, ⟨1, 13, 13⟩⟩, some "Original"⟩]⟩], []⟩ := by
    simp only [Engine.outcome_builtIn]
    dsimp only [p, tokens, blank]
    cbv
  cases hroot : p.parse.1 with
  | error e =>
    rw [hroot] at hscan
    cases hscan
  | ok root =>
    rw [hroot] at hscan
    have houtcome : ((Analyzer.standard c host).engine.scan root).1 = _ := Option.some.inj hscan
    simp only [Analyzer.workerReport, Analyzer.analyzeWithin, Analyzer.parseWithin, hp, hroot, houtcome]

/-- Two workers, and a file with an issue.  The issue is shown each time the file is named, also where a file with a
string that does not end stands in between, and not at all if there is a file that does not exist. -/
theorem run_files_between :
    let host : Host := ⟨4, fun _ _ => true, fun rules _ => 16384 * rules.length⟩
    let o : Options := ⟨some 2, 64, 16, false, []⟩
    let read : String → Except String ByteArray := fun file =>
      if file = "same" then .ok "EXIT WHEN a=a;".toUTF8 else if file = "open" then .ok "'".toUTF8 else .error notFound
    let shown (files : List String) : Display := run host { o with files := files } read
    let issue := "same:1:11: BLOCKER [IdenticalExpression] " ++
      "Identical sub-expressions on both sides of operator \"=\".\n    same:1:13: Original\n"
    let line := "open: error: lexical error: Unterminated string literal starting at line 1, column 0\n"
    (∀ i, host.starts (o.config host).workerStack i = true) ∧ HasText read "same" "EXIT WHEN a=a;" ∧
    HasText read "open" "'" ∧ LacksText read "none" notFound ∧
    Fails (o.config host) host "'" (.lexical ⟨.unterminatedString, ⟨1, 0, 0⟩⟩) ∧
    shown ["same"] = ⟨0, issue, ""⟩ ∧ (shown ["same", "same"]).stdout = issue ++ issue ∧
    (shown ["same", "open", "same"]).code ≠ 0 ∧ (shown ["same", "open", "same"]).stdout = issue ++ issue ∧
    (shown ["same", "open", "same"]).stderr = line ∧
    (shown ["same", "none", "open"]).code ≠ 0 ∧ (shown ["same", "none", "open"]).stdout = "" := by
  intro host o read shown issue line
  have hstarts : ∀ i, host.starts (o.config host).workerStack i = true := fun _ => rfl
  have hsame : HasText read "same" "EXIT WHEN a=a;" := rfl
  have hopen : HasText read "open" "'" := rfl
  have hnone : LacksText read "none" notFound := .inl rfl
  have hfails : Fails (o.config host) host "'" (.lexical ⟨.unterminatedString, ⟨1, 0, 0⟩⟩) :=
    .lexical (by decide +kernel)
  have hline : "open" ++ ": error: " ++ AnalysisError.message (.lexical ⟨.unterminatedString, ⟨1, 0, 0⟩⟩) ++ "\n" =
      line := by decide +kernel
  have htexts : ∀ f ∈ ["same", "same"], ∃ text, HasText read f text :=
    List.forall_mem_cons.2 ⟨⟨_, hsame⟩, List.forall_mem_singleton.2 ⟨_, hsame⟩⟩
  obtain ⟨hrun, -, happend, hbetween, hunread⟩ := run_files host o rfl hstarts read
  have hissue : shown ["same"] = ⟨0, issue, ""⟩ := by
    have hunits : readUnits read ["same"] = .ok [⟨"same", "EXIT WHEN a=a;"⟩] :=
      readUnits_eq_ok_iff.2 (.cons ⟨rfl, hsame⟩ .nil)
    refine ((hrun ["same"]).eq_display hunits).trans ?_
    rw [List.map_singleton, workerReport_same (o.config host) rfl (by decide +kernel) host rfl]
    decide +kernel
  obtain ⟨htwice, -⟩ := happend ["same"] ["same"] _ _ _ htexts (hrun ["same"]) (hrun ["same"]) (hrun ["same", "same"])
  obtain ⟨hcode, hout, herr⟩ := hbetween ["same"] ["same"] "open" _ _ _ _ _ htexts hopen hfails (hrun ["same"])
    (hrun ["same"]) (hrun ["same", "open", "same"])
  obtain ⟨hcode', hout', -⟩ := hunread ["same", "none", "open"] _ ⟨"none", by simp, _, hnone⟩ (hrun _)
  change (shown ["same", "same"]).stdout = (shown ["same"]).stdout ++ (shown ["same"]).stdout at htwice
  change (shown ["same", "open", "same"]).stdout = (shown ["same"]).stdout ++ (shown ["same"]).stdout at hout
  change (shown ["same", "open", "same"]).stderr = (shown ["same"]).stderr ++ _ ++ (shown ["same"]).stderr at herr
  rw [hissue] at htwice hout herr
  rw [hline, String.empty_append, String.append_empty] at herr
  exact ⟨hstarts, hsame, hopen, hnone, hfails, hissue, htwice, hcode, hout, herr, hcode', hout'⟩

end PlsqlLint.CommandLine
