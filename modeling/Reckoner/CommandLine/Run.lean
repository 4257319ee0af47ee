import Reckoner.Sampling
import Reckoner.Session

/-!
# Command-line runs

A run of the command line performs the lines of expressions and of a script, or of the standard
input if there are neither, then samples a function and lists the tables on request.  Its report
holds what goes to standard output and the exit code, which is 1 for a file or function that is
missing.  How the options are read from the arguments is left open.
-/

namespace Reckoner
namespace CommandLine

/-- What the arguments ask for. -/
structure Options where
  /-- The script to run. -/
  file? : Option String
  /-- Lines to run before the script. -/
  expressions : List String
  /-- The function to sample afterwards. -/
  plot? : Option String
  /-- The start of the sampled range. -/
  first? : Option Float
  /-- The end of the sampled range. -/
  last? : Option Float
  /-- The number of samples. -/
  samples? : Option Nat
  /-- Whether lines are only read as tokens and not run. -/
  debugLexer : Bool
  /-- Whether the tables are listed at the end. -/
  list : Bool
  /-- Whether more is logged. -/
  verbose : Bool

/-- The visible result of a run. -/
structure Report where
  /-- The lines written to standard output. -/
  output : List String
  /-- The exit code. -/
  code : Nat
deriving DecidableEq, Repr

namespace Report

/-- The standard output as one text; a newline ends every line. -/
def text (report : Report) : String := String.join (report.output.map (· ++ "\n"))

/-- The report on a missing script. -/
def missingFile : Report := ⟨[], 1⟩

end Report

/-- The lines that show samples, with the argument and the result between tabs. -/
def plotLines (samples : List Sampling.Sample) : List String :=
  samples.map fun sample =>
    String.ofList (Numeral.write sample.x ++ '\t' :: Value.writeEntry sample.y)

/-- The lines that list the tables. -/
def tableLines (table : Table) : List String :=
  ("Variables" :: table.values.toList.map fun (name, value) => s!"  {name} = {value.text}") ++
    "Functions" :: table.functions.toList.map fun (_, entry) => s!"  {entry.description}"

/-- The lines of a script. -/
def scriptLines (text : List Char) : List (List Char) :=
  (Text.records text).map Text.withoutLineEnd

/-- The lines of the standard input. -/
def inputLines (text : List Char) : List (List Char) :=
  (Text.records text).map Text.withoutLineEnds

namespace Options

/-- Whether the lines come from the standard input. -/
def readsInput (options : Options) : Bool := options.file?.isNone && options.expressions.isEmpty

/-- The lines to perform, given the text of the script or of the standard input. -/
def lines (options : Options) (text : List Char) : List (List Char) :=
  if options.readsInput then inputLines text
  else
    options.expressions.map String.toList ++
      if options.file?.isSome then scriptLines text else []

/-- Sample the function asked for, if there is one. -/
def plot (options : Options) (table : Table) : Option (List String) :=
  match options.plot? with
  | none => some []
  | some name =>
      (table.function? name).map fun entry =>
        plotLines (Sampling.sample (.ofTable table) entry name (options.first?.getD (-10))
          (options.last?.getD 10) (options.samples?.getD 41))

/-- Perform lines, then sample and list on request. -/
def run (options : Options) (lines : List (List Char)) : Report :=
  let (session, shown) :=
    if options.debugLexer then (Session.initial, []) else Session.initial.runLines lines
  match options.plot session.table with
  | none => ⟨shown, 1⟩
  | some plotted =>
      ⟨shown ++ plotted ++ if options.list then tableLines session.table else [], 0⟩

/-- The report of a run, given the texts of all readable files and of the standard input. -/
def report (options : Options) (files : String → Option (List Char)) (input : List Char) :
    Report :=
  match options.file? with
  | none => options.run (options.lines input)
  | some path =>
      match files path with
      | none => .missingFile
      | some text => options.run (options.lines text)

end Options

/-- The report of a whole run.  What reads the options from the arguments can end the run at once
with a report of its own. -/
def reportWith (parse : List String → Except Report Options) (files : String → Option (List Char))
    (input : List Char) (args : List String) : Report :=
  match parse args with
  | .error report => report
  | .ok options => options.report files input

end CommandLine
end Reckoner
