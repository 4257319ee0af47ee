import Reckoner.CommandLine.Report
import Reckoner.Proofs.Spacing
import Reckoner.Proofs.Text

/-!
# Scripts and the standard input

The lines of a script and those of the standard input lose different characters at their ends.  What
one of them loses and the other keeps is blank, and no line takes notice of blank characters at its
end.
-/

namespace Reckoner

namespace Session

variable {back : List Char}

theorem evaluateText_append_blanks (blank : ∀ c ∈ back, Text.isBlank c = true) (table : Table)
    (line : List Char) : table.evaluateText (line ++ back) = table.evaluateText line := by
  simp only [Table.evaluateText, Scope.evaluateText, Lexer.tokenize_append_blanks blank]

theorem assign_append_blanks (blank : ∀ c ∈ back, Text.isBlank c = true) (line : List Char) :
    Update.assign (line ++ back ++ ['\n']) = Update.assign (line ++ ['\n']) := by
  have kept : ∀ c ∈ back.filter (· != '\n'), Text.isBlank c = true :=
    fun c member => blank c (List.mem_of_mem_filter member)
  have read : Statement.read (line ++ back ++ ['\n']) = Statement.read (line ++ ['\n']) := by
    simp [Statement.read, Text.trim_append_blanks kept]
  have finished (text : List Char) : (text ++ ['\n']).contains '\n' = true := by simp
  simp only [Update.assign, read, finished]

theorem perform_append_blanks (blank : ∀ c ∈ back, Text.isBlank c = true) (line : List Char) :
    perform (line ++ back) = perform line := by
  rw [perform, perform, Text.cutAt?_append_blanks (by decide) blank]
  cases Text.cutAt? '=' line with
  | none => simp only [Option.map_none, evaluateText_append_blanks blank]
  | some parts => simp only [Option.map_some, assign_append_blanks blank]

theorem runLine_append_blanks (blank : ∀ c ∈ back, Text.isBlank c = true) (session : Session)
    (line : List Char) : session.runLine (line ++ back) = session.runLine line := by
  rw [runLine, runLine, Text.trim_append_blanks blank, perform_append_blanks blank]

theorem runLines_map_congr {records : List (List Char)} {read read' : List Char → List Char}
    (alike : ∀ (session : Session) (record : List Char),
      session.runLine (read record) = session.runLine (read' record)) (session : Session) :
    session.runLines (records.map read) = session.runLines (records.map read') := by
  induction records generalizing session with
  | nil => rfl
  | cons record records induction =>
      simp only [List.map_cons, runLines, alike, induction]

end Session

namespace CommandLine

theorem runLines_scriptLines (text : List Char) (session : Session) :
    session.runLines (scriptLines text) = session.runLines (inputLines text) := by
  refine Session.runLines_map_congr (fun session record => ?_) session
  obtain ⟨back, more, blank⟩ := Text.exists_withoutLineEnd record
  rw [more, Session.runLine_append_blanks blank]

/-- A text has the same report as a script and as the standard input, if the arguments ask for the
same otherwise and give no expressions.  How the options are read from them does not matter. -/
theorem report_script_eq_report_input {parse : List String → Except Report Options}
    {files files' : String → Option (List Char)} {ignored text : List Char}
    {args args' : List String} {options : Options} {path : String}
    (asScript : parse args = .ok { options with file? := some path })
    (asInput : parse args' = .ok { options with file? := none })
    (unaccompanied : options.expressions = []) (found : files path = some text) :
    reportWith parse files ignored args = reportWith parse files' text args' := by
  have script : Options.lines { options with file? := some path } text = scriptLines text := by
    simp [Options.lines, Options.readsInput, unaccompanied]
  have input : Options.lines { options with file? := none } text = inputLines text := by
    simp [Options.lines, Options.readsInput, unaccompanied]
  simp only [reportWith, asScript, asInput, Options.report, found, script, input]
  simp only [Options.run, runLines_scriptLines]
  rfl

/-- A script with stray carriage returns and without a last newline. -/
theorem report_script_carriage_returns :
    let text := "f(x)=x\r\r\n\r\nf(2)\r".toList
    let files := fun path => if path = "script" then some text else none
    let report' : Report := ⟨["f(x)=x", "2", "-10\t-10"], 0⟩
    let requests := ["--plot", "f", "--samples", "1"]
    report files [] ("script" :: requests) = report' ∧
      report (fun _ => none) text requests = report' := by
  intro text files report' requests
  let options : Options := { Options.default with plot? := some "f", samples? := some 1 }
  have asScript : Options.parse ("script" :: requests) =
      .ok { options with file? := some "script" } := rfl
  have asInput : Options.parse requests = .ok { options with file? := none } := rfl
  have same : report files [] ("script" :: requests) = report (fun _ => none) text requests :=
    report_script_eq_report_input asScript asInput rfl rfl
  have shown : report files [] ("script" :: requests) = report' := by decide +kernel
  exact ⟨shown, same.symm.trans shown⟩

end CommandLine
end Reckoner
