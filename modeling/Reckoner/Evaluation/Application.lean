import Reckoner.Fault

/-!
# Application of functions

A function name applies to the number behind it or to a bracketed list of numbers between
separators.  Calls are made from left to right, and each is replaced by its result.
-/

namespace Reckoner
namespace Evaluation

/-- Where a walk over tokens stands with respect to calls. -/
inductive CallState where
  /-- Outside a call. -/
  | outside
  /-- Behind the name of a function. -/
  | named (name : String)
  /-- In an argument list, before an argument. -/
  | beforeArgument (name : String) (args : List Value)
  /-- In an argument list, behind an argument. -/
  | afterArgument (name : String) (args : List Value)

/-- Replace every call in the rest of a token sequence by its result. -/
def applyFrom (call : String → List Value → Except Fault Value) :
    CallState → List Token → Except Fault (List Token)
  | .outside, [] => .ok []
  | .outside, .functionName name :: rest => applyFrom call (.named name) rest
  | .outside, token :: rest => do
      let rest ← applyFrom call .outside rest
      return token :: rest
  | .named name, [] => .error (.invalidCall name .missingArguments)
  | .named name, .number value :: rest => do
      let result ← call name [value]
      let rest ← applyFrom call .outside rest
      return .number result :: rest
  | .named name, .opening .round :: .closing .round :: rest => do
      let result ← call name []
      let rest ← applyFrom call .outside rest
      return .number result :: rest
  | .named name, .opening .round :: rest => applyFrom call (.beforeArgument name []) rest
  | .named name, token :: _ => .error (.invalidCall name (.notArguments token))
  | .beforeArgument name _, [] => .error (.invalidCall name .openArgumentList)
  | .beforeArgument name args, .number value :: rest =>
      applyFrom call (.afterArgument name (args ++ [value])) rest
  | .beforeArgument name args, token :: _ =>
      .error (.invalidCall name (.argumentNotNumber (args.length + 1) token))
  | .afterArgument name _, [] => .error (.invalidCall name .openArgumentList)
  | .afterArgument name args, .separator :: rest =>
      applyFrom call (.beforeArgument name args) rest
  | .afterArgument name args, .closing .round :: rest => do
      let result ← call name args
      let rest ← applyFrom call .outside rest
      return .number result :: rest
  | .afterArgument name _, token :: _ => .error (.invalidCall name (.notSeparator token))

/-- Replace every call by its result. -/
def applyFunctions (call : String → List Value → Except Fault Value) (tokens : List Token) :
    Except Fault (List Token) :=
  applyFrom call .outside tokens

end Evaluation
end Reckoner
