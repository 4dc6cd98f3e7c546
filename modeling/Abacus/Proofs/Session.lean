import Abacus.CommandLine.Session
import Abacus.Proofs.Arguments
import Abacus.Proofs.Lines

/-!
# One expression, a file and the prompt

* `Text.WholeLines` — a text of which every line is ended.
* `report_fst`, `report_out` — a report tells whether an expression has a value, and ends with
  this value.
* `reportAll_output`, `reportAll_fst` — the reports on many expressions one after another.
* `answer`, `promptTurns_toUTF8` — the answer to one line, and to all lines that are read from
  the bytes of a text.
* `respond_expression`, `respond_file`, `respond_prompt` — what a command does with flags and
  an expression, a file or nothing else.
* `modes_agree` — the three ways to give a command the expressions of a text do the same.
-/

namespace Abacus

/-! ## Outputs -/

namespace Output

variable {first second : Output} {text : String}

@[simp] theorem out_append : (first ++ second).out = first.out ++ second.out := rfl

@[simp] theorem err_append : (first ++ second).err = first.err ++ second.err := rfl

@[simp] theorem out_empty : empty.out = "" := rfl

@[simp] theorem err_empty : empty.err = "" := rfl

@[simp] theorem out_ofOut : (ofOut text).out = text := rfl

@[simp] theorem err_ofOut : (ofOut text).err = "" := rfl

@[simp] theorem out_ofErr : (ofErr text).out = "" := rfl

@[simp] theorem err_ofErr : (ofErr text).err = text := rfl

end Output

namespace Text

/-- The text is empty or ends with a newline. -/
def WholeLines (text : String) : Prop := ∀ c ∈ text.toList.getLast?, c = '\n'

namespace WholeLines

variable {text first second : String} {texts : List String}

theorem empty : WholeLines "" := by
  intro c hc
  cases hc

theorem newline (text : String) : WholeLines (text ++ "\n") := by
  intro c hc
  have hlast : '\n' = c := by simpa using hc
  exact hlast.symm

theorem append (hfirst : WholeLines first) (hsecond : WholeLines second) :
    WholeLines (first ++ second) := by
  intro c hc
  rw [String.toList_append, List.getLast?_append] at hc
  rcases hlast : second.toList.getLast? with _ | d
  · rw [hlast] at hc
    exact hfirst c (by simpa using hc)
  · rw [hlast] at hc
    obtain rfl : d = c := by simpa using hc
    exact hsecond d hlast

theorem join (h : ∀ text ∈ texts, WholeLines text) : WholeLines (String.join texts) := by
  induction texts with
  | nil => exact empty
  | cons text texts ih =>
    rw [String.join_cons]
    exact (h text (List.mem_cons_self ..)).append
      (ih fun other hother => h other (List.mem_cons_of_mem _ hother))

end WholeLines

end Text

/-! ## One expression -/

section Report

variable {settings other : Settings} {source : String} {value : Int64}

/-- What is shown is decided by the flags alone. -/
theorem report_congr (htokens : settings.tokens = other.tokens)
    (htree : settings.tree = other.tree) (hverbosity : settings.verbosity = other.verbosity) :
    report settings = report other := by
  funext source
  simp only [report, attempt, Settings.log, Settings.level, htokens, htree, hverbosity]

/-- The stages on which something is shown are those of `interpret`. -/
theorem result_attempt (settings : Settings) (source : String) :
    (attempt settings source).result = interpret source := by
  unfold attempt interpret interpretRecorded
  dsimp only
  rcases (parseRecorded 0 (.ofSource source)).result.1 with error | tree
  · rfl
  · dsimp only
    cases (evaluateRecorded tree).result <;> rfl

theorem wholeLines_tokenTable (source : String) : Text.WholeLines (tokenTable source) := by
  refine .join fun text htext => ?_
  obtain ⟨item, -, rfl⟩ := List.mem_map.mp htext
  cases item with
  | error => exact .empty
  | ok => exact .newline _

/-- What is shown in front of a value are whole lines. -/
theorem wholeLines_attempt (settings : Settings) (source : String) :
    Text.WholeLines (attempt settings source).output.out := by
  have htable : Text.WholeLines (if settings.tokens then tokenTable source else "") := by
    split
    · exact wholeLines_tokenTable source
    · exact .empty
  have htree (tree : Expr) :
      Text.WholeLines (if settings.tree then tree.render ++ "\n" else "") := by
    split
    · exact .newline _
    · exact .empty
  have hlog (events : List Event) : (settings.log events).out = "" := rfl
  unfold attempt
  dsimp only
  split
  · simpa [hlog] using htable
  · split <;> simpa [hlog] using htable.append (htree _)

/-- A report tells whether there is a value. -/
theorem report_fst : (report settings source).1 = true ↔ ∃ value, interpret source = .ok value := by
  rw [← result_attempt settings, report]
  cases (attempt settings source).result <;> simp

/-- The last line of a report is the value. -/
theorem report_out (h : interpret source = .ok value) : (report settings source).2.out =
    (attempt settings source).output.out ++ toString value.toInt ++ "\n" := by
  rw [← result_attempt settings] at h
  simp [report, h, String.append_assoc]

end Report

/-! ## Many expressions -/

section Sources

variable {settings : Settings} {sources : List String}

theorem reportAll_congr {other : Settings} (h : report settings = report other) :
    reportAll settings = reportAll other := by
  funext sources
  induction sources with
  | nil => rfl
  | cons source sources ih => rw [reportAll, reportAll, h, ih]

/-- Whatever happens at one expression, all are reported on. -/
theorem reportAll_output :
    (reportAll settings sources).2.out =
        String.join (sources.map fun source => (report settings source).2.out) ∧
      (reportAll settings sources).2.err =
        String.join (sources.map fun source => (report settings source).2.err) := by
  induction sources with
  | nil => exact ⟨rfl, rfl⟩
  | cons source sources ih => simp [reportAll, ih]

/-- The reports on some expressions succeed just if the report on each of them does. -/
theorem reportAll_fst : (reportAll settings sources).1 = true ↔
    ∀ source ∈ sources, (report settings source).1 = true := by
  induction sources with
  | nil => simp [reportAll]
  | cons source sources ih => simp [reportAll, ih]

/-- What is empty adds nothing to a text. -/
theorem join_filter (answer : String → String) :
    String.join ((sources.filter (· ≠ "")).map answer) =
      String.join (sources.map fun source => if source = "" then "" else answer source) := by
  induction sources with
  | nil => rfl
  | cons source sources ih =>
    by_cases hempty : source = ""
    · rw [List.filter_cons_of_neg (by simpa using hempty), ih]
      simp [hempty]
    · rw [List.filter_cons_of_pos (by simpa using hempty), List.map_cons, String.join_cons, ih]
      simp [hempty]

end Sources

/-! ## The prompt -/

section Prompt

variable {settings : Settings}

/-- The answer to a line of text. -/
def answer (settings : Settings) (line : String) : Output :=
  if Text.trim line = "" then .empty else (report settings (Text.trim line)).2

theorem answer_out (line : String) : (answer settings line).out =
    if Text.trim line = "" then "" else (report settings (Text.trim line)).2.out := by
  rw [answer]
  split <;> rfl

theorem answer_err (line : String) : (answer settings line).err =
    if Text.trim line = "" then "" else (report settings (Text.trim line)).2.err := by
  rw [answer]
  split <;> rfl

/-- Lines are read with their line endings, which are white space. -/
theorem answer_dropEnding (line : List Char) :
    answer settings (.ofList (Text.dropEnding line)) = answer settings (.ofList line) := by
  rw [answer, answer, Text.trim_dropEnding]

theorem promptTurn_flatMap (line : List Char) :
    promptTurn settings (line.flatMap String.utf8EncodeChar) =
      (true, answer settings (.ofList line)) := by
  rw [promptTurn, Text.fromUTF8?_flatMap]
  rfl

/-- Whatever the answers are, the prompt goes on to the end of the text. -/
theorem promptTurns_flatMap (lines : List (List Char)) :
    (promptTurns settings (lines.map (List.flatMap String.utf8EncodeChar))).out =
        String.join (lines.map fun line => promptText ++ (answer settings (.ofList line)).out) ++
          promptText ∧
      (promptTurns settings (lines.map (List.flatMap String.utf8EncodeChar))).err =
        String.join (lines.map fun line => (answer settings (.ofList line)).err) := by
  induction lines with
  | nil => simp [promptTurns]
  | cons line lines ih =>
    rw [List.map_cons, promptTurns, promptTurn_flatMap]
    simp [ih, String.append_assoc]

/-- The lines that are read are the lines of the text. -/
theorem promptTurns_toUTF8 (settings : Settings) (text : String) :
    (promptTurns settings (inputLines text.toUTF8)).out =
        String.join ((Text.lines text).map fun line =>
          promptText ++ (answer settings line).out) ++ promptText ∧
      (promptTurns settings (inputLines text.toUTF8)).err =
        String.join ((Text.lines text).map fun line => (answer settings line).err) := by
  have hlines : inputLines text.toUTF8 =
      (Text.segments (· = '\n') text.toList).map (List.flatMap String.utf8EncodeChar) :=
    Text.segments_toUTF8 text
  rw [hlines]
  simpa only [Text.lines, List.map_map, Function.comp_def, answer_dropEnding] using
    promptTurns_flatMap (Text.segments (· = '\n') text.toList)

/-- The prompt is announced to those who want to see some of the log. -/
theorem log_prompting : settings.log [.prompting] =
    .ofErr (if settings.verbosity = 0 then "" else Event.prompting.line) := by
  have hshown : Event.isShown settings.level .prompting = decide (settings.verbosity ≠ 0) := by
    rcases settings with ⟨file, tokens, tree, _ | _ | _ | verbosity, contents⟩ <;> rfl
  rw [Settings.log, List.filter_cons, hshown]
  by_cases hquiet : settings.verbosity = 0
  · simp [hquiet]
  · simp [hquiet]

end Prompt

/-! ## Commands -/

theorem statusOf_eq_zero {succeeded : Bool} : statusOf succeeded = 0 ↔ succeeded = true := by
  cases succeeded <;> decide

section Commands

open Invocation (AreFlags cluster)

variable {clusters : List (List Char)} {files : String → Option ByteArray} {input : ByteArray}
  {name source text : String}

/-- The settings that the flags ask for. -/
def flagSettings (clusters : List (List Char)) : Settings :=
  Settings.default.withLetters clusters.flatten

/-- With one expression besides the flags, a command reports on it. -/
theorem respond_expression (hflags : AreFlags clusters) :
    respond (clusters.map cluster ++ ["--", source]) files input =
      ⟨statusOf (report (flagSettings clusters) source).1,
        (report (flagSettings clusters) source).2⟩ := by
  let settings : Settings := { flagSettings clusters with contents := some source }
  have harguments : Invocation.ofArguments (clusters.map cluster ++ ["--", source]) =
      .run settings := by
    rw [hflags.ofArguments]
    rfl
  have hreport : report settings = report (flagSettings clusters) := report_congr rfl rfl rfl
  rw [respond, harguments, ← hreport]
  rfl

/-- With the name of a file that can be read, a command reports on the expressions of the
file. -/
theorem respond_file (hflags : AreFlags clusters) (hfile : files name = some text.toUTF8) :
    respond (clusters.map cluster ++ ["-f", "--", name]) files input =
      ⟨statusOf (reportAll (flagSettings clusters) (expressions text)).1,
        (reportAll (flagSettings clusters) (expressions text)).2⟩ := by
  let settings : Settings := { flagSettings clusters with file := true, contents := some name }
  have harguments : Invocation.ofArguments (clusters.map cluster ++ ["-f", "--", name]) =
      .run settings := by
    rw [hflags.ofArguments]
    rfl
  have hbytes : (files name).bind String.fromUTF8? = some text := by
    rw [hfile]
    exact Text.fromUTF8?_toUTF8 text
  have hreport : reportAll settings = reportAll (flagSettings clusters) :=
    reportAll_congr (report_congr rfl rfl rfl)
  have hrespond : respond (clusters.map cluster ++ ["-f", "--", name]) files input =
      respondFile settings name (files name) := by
    rw [respond, harguments]
    rfl
  rw [hrespond, respondFile, hbytes, ← hreport]
  rfl

/-- With nothing but flags, a command prompts. -/
theorem respond_prompt (hflags : AreFlags clusters) :
    respond (clusters.map cluster) files input = ⟨0, prompt (flagSettings clusters) input⟩ := by
  have harguments := hflags.ofArguments []
  rw [List.append_nil] at harguments
  rw [respond, harguments]
  rfl

end Commands

/-! ## All together -/

/-- What a command does with one expression, `alone`, is what it does with the expressions
among the lines of a file and at the prompt: the lines without the white space around them,
and without those of which nothing is left. -/
structure ModesAgree (lines : List String) (alone : String → Response) (file prompt : Response)
    (announcement : String) : Prop where
  /-- Nothing but white space is taken from the lines, and all of it at both ends. -/
  trimmed : ∀ line ∈ lines, Text.Trimmed line (Text.trim line)
  /-- A file is answered by the answers to its expressions one after another, whether or not
  they have a value. -/
  file_out : file.output.out = String.join
    (((lines.map Text.trim).filter (· ≠ "")).map fun source => (alone source).output.out)
  file_err : file.output.err = String.join
    (((lines.map Text.trim).filter (· ≠ "")).map fun source => (alone source).output.err)
  file_status : file.status = 0 ↔
    ∀ source ∈ (lines.map Text.trim).filter (· ≠ ""), (alone source).status = 0
  /-- At the prompt there is a request in front of each line, blank or not, and one more at
  the end. -/
  prompt_out : prompt.output.out = String.join (lines.map fun line =>
    "calc> " ++ if Text.trim line = "" then "" else (alone (Text.trim line)).output.out) ++ "calc> "
  prompt_err : prompt.output.err = announcement ++ file.output.err
  prompt_status : prompt.status = 0
  /-- An expression succeeds if it has a value, which is the last line shown. -/
  succeeds_iff : ∀ source, (alone source).status = 0 ↔ ∃ value, interpret source = .ok value
  last_line : ∀ source value, interpret source = .ok value →
    ∃ shown, (alone source).output.out = shown ++ toString value.toInt ++ "\n" ∧
      Text.WholeLines shown

/-- Whatever flags are given, a command does the same with the lines of a text when they are
given as expressions, when a file has them, and at the prompt. -/
theorem modes_agree {clusters : List (List Char)} (hflags : Invocation.AreFlags clusters)
    {text : String} {lines : List String}
    (hlines : Text.LinesOf text.toList (lines.map String.toList))
    {files : String → Option ByteArray} {name : String} (hfile : files name = some text.toUTF8)
    (input : ByteArray) :
    ModesAgree lines
      (fun source => respond (clusters.map Invocation.cluster ++ ["--", source]) files input)
      (respond (clusters.map Invocation.cluster ++ ["-f", "--", name]) files input)
      (respond (clusters.map Invocation.cluster) files text.toUTF8)
      (if clusters.flatten.count 'v' = 0 then "" else Event.prompting.line) := by
  obtain rfl := hlines.eq_lines
  simp only [respond_expression hflags, respond_file hflags hfile, respond_prompt hflags]
  obtain ⟨hout, herr⟩ := promptTurns_toUTF8 (flagSettings clusters) text
  have hverbosity : (flagSettings clusters).verbosity = clusters.flatten.count 'v' :=
    Nat.zero_add _
  constructor
  · exact fun line _ => Text.trimmed_trim line
  · exact reportAll_output.1
  · exact reportAll_output.2
  · simp only [statusOf_eq_zero]
    exact reportAll_fst
  · rw [prompt, Output.out_append, log_prompting, Output.out_ofErr, String.empty_append, hout]
    simp only [answer_out]
    rfl
  · rw [prompt, Output.err_append, log_prompting, Output.err_ofErr, herr, hverbosity,
      reportAll_output.2, expressions, join_filter, List.map_map]
    simp only [answer_err]
    rfl
  · rfl
  · intro source
    rw [statusOf_eq_zero, report_fst]
  · intro source value hvalue
    exact ⟨_, report_out hvalue, wholeLines_attempt _ source⟩

/-- A line with an error between others, lines that end in both ways, and a blank one. -/
theorem modes_agree_zero_divisor :
    let text := "1 + 1\r\n\n 2 / 0\n7"
    let files := fun name => if name = "sums" then some text.toUTF8 else none
    Text.LinesOf text.toList (["1 + 1", "", " 2 / 0", "7"].map String.toList) ∧
      ModesAgree ["1 + 1", "", " 2 / 0", "7"]
        (fun source => respond ["-tv", "-v", "--", source] files .empty)
        (respond ["-tv", "-v", "-f", "--", "sums"] files .empty)
        (respond ["-tv", "-v"] files text.toUTF8) Event.prompting.line := by
  intro text files
  have hflags : Invocation.AreFlags [['t', 'v'], ['v']] :=
    ⟨by simp, by simp, by decide, by decide⟩
  have hlines : Text.LinesOf text.toList (["1 + 1", "", " 2 / 0", "7"].map String.toList) := by
    have hcut : Text.lines text = ["1 + 1", "", " 2 / 0", "7"] := by decide +kernel
    exact hcut ▸ Text.linesOf_lines text
  have hfile : files "sums" = some text.toUTF8 := rfl
  exact ⟨hlines, modes_agree hflags hlines hfile .empty⟩

end Abacus
