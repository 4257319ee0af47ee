import Reckoner.CommandLine.Run
import Reckoner.Number.Numeral

/-!
# Reports for arguments

The program reads its options from flags, settings with a value, and at most one file.  Short names
can be run together, a value can be attached to its setting, and only the ends of the sampled range
accept a separate value that begins with a minus sign.  Everything except an expression can be given
once.  Any other arguments are unusable; those that ask for a help text or for the version count as
unusable as well.
-/

namespace Reckoner
namespace CommandLine

/-- Options without a value. -/
inductive Flag where
  | debugLexer
  | list
  | verbose
deriving DecidableEq, Repr

/-- Options with a value. -/
inductive Setting where
  | expression
  | plot
  | first
  | last
  | samples
deriving DecidableEq, Repr

namespace Options

/-- The options when there are no arguments. -/
def default : Options := ⟨none, [], none, none, none, none, false, false, false⟩

/-- Set a flag that is not set yet. -/
def setFlag (options : Options) : Flag → Option Options
  | .debugLexer => if options.debugLexer then none else some { options with debugLexer := true }
  | .list => if options.list then none else some { options with list := true }
  | .verbose => if options.verbose then none else some { options with verbose := true }

/-- Read a count that fits a machine word. -/
def readCount? (text : List Char) : Option Nat := do
  let n ← Decimal.ofWhole? (if text.head? = some '+' then text.tail else text)
  if n < UInt64.size then some n else none

/-- Give a setting a value; only expressions can be given again. -/
def give (options : Options) (value : String) : Setting → Option Options
  | .expression => some { options with expressions := options.expressions ++ [value] }
  | .plot => if options.plot?.isSome then none else some { options with plot? := some value }
  | .first => do
      let x ← Numeral.read? value.toList
      if options.first?.isSome then none else some { options with first? := some x }
  | .last => do
      let x ← Numeral.read? value.toList
      if options.last?.isSome then none else some { options with last? := some x }
  | .samples => do
      let n ← readCount? value.toList
      if options.samples?.isSome then none else some { options with samples? := some n }

/-- Name the script, once and not by an empty text. -/
def setFile (options : Options) (path : String) : Option Options :=
  if path.isEmpty || options.file?.isSome then none else some { options with file? := some path }

end Options

/-- The flag with a long name. -/
def longFlag? (name : String) : Option Flag :=
  [("debug-lexer", .debugLexer), ("list", .list), ("verbose", .verbose)].lookup name

/-- The setting with a long name. -/
def longSetting? (name : String) : Option Setting :=
  [("eval", .expression), ("plot", .plot), ("from", .first), ("to", .last),
    ("samples", .samples)].lookup name

/-- Whether the characters behind a minus sign look like a number: digits with at most one point
behind the first character and at most one exponent mark behind it and before the last. -/
def isNumberLike (text : List Char) : Bool :=
  let plain := text.takeWhile (!Decimal.isExponentMark ·)
  let exponent := text.dropWhile (!Decimal.isExponentMark ·)
  let fraction := plain.dropWhile (· != '.')
  (plain.takeWhile (· != '.')).all Char.isDigit && (fraction.drop 1).all Char.isDigit &&
    (exponent.drop 1).all Char.isDigit && plain.head? != some '.' &&
    (exponent.isEmpty || (!plain.isEmpty && exponent.length != 1))

/-- Whether an argument can be the separate value of a setting. -/
def isValueOf (setting : Setting) (arg : List Char) : Bool :=
  match arg with
  | '-' :: text@(_ :: _) => (setting == .first || setting == .last) && isNumberLike text
  | _ => true

/-- Read a run of short names, with the setting that still lacks its value if there is one. -/
def readShort (options : Options) : List Char → Option (Options × Option Setting)
  | [] => some (options, none)
  | 'v' :: rest => do readShort (← options.setFlag .verbose) rest
  | ['e'] => some (options, some .expression)
  | 'e' :: '=' :: value => (options.give (String.ofList value) .expression).map (·, none)
  | 'e' :: value => (options.give (String.ofList value) .expression).map (·, none)
  | _ => none

/-- Read a long name with the value attached to it, if there is one. -/
def readLong (options : Options) (text : List Char) : Option (Options × Option Setting) :=
  let name := String.ofList (text.takeWhile (· != '='))
  match longSetting? name, longFlag? name, text.dropWhile (· != '=') with
  | some setting, _, [] => some (options, some setting)
  | some setting, _, _ :: value => (options.give (String.ofList value) setting).map (·, none)
  | none, some flag, [] => (options.setFlag flag).map (·, none)
  | _, _, _ => none

/-- Read arguments of which none is an option. -/
def readFiles (options : Options) : List String → Option Options
  | [] => some options
  | path :: rest => do readFiles (← options.setFile path) rest

/-- Read arguments when `pending` still lacks its value. -/
def readFrom (options : Options) : Option Setting → List String → Option Options
  | none, [] => some options
  | some _, [] => none
  | some setting, arg :: rest =>
      if arg ≠ "--" && isValueOf setting arg.toList then do
        readFrom (← options.give arg setting) none rest
      else none
  | none, arg :: rest =>
      match arg.toList with
      | ['-', '-'] => readFiles options rest
      | '-' :: '-' :: text => do
          let (options, pending) ← readLong options text
          readFrom options pending rest
      | '-' :: text@(_ :: _) => do
          let (options, pending) ← readShort options text
          readFrom options pending rest
      | _ => do readFrom (← options.setFile arg) none rest

/-- The options that arguments ask for, unless the arguments are unusable. -/
def Options.ofArguments? (args : List String) : Option Options := readFrom .default none args

/-- The report on unusable arguments. -/
def Report.unusable : Report := ⟨[], 2⟩

/-- Read the options from the arguments, or end with the report on unusable ones. -/
def Options.parse (args : List String) : Except Report Options :=
  match ofArguments? args with
  | none => .error .unusable
  | some options => .ok options

/-- The report of the program. -/
def report (files : String → Option (List Char)) (input : List Char) (args : List String) :
    Report :=
  reportWith Options.parse files input args

end CommandLine
end Reckoner
