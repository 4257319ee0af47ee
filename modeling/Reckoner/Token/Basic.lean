import Reckoner.Value.Basic

/-!
# Tokens

The items an expression is made of.  Arithmetic works on flat sequences of tokens, in which finished
parts are replaced by number tokens; a number token therefore holds a whole value.
-/

namespace Reckoner

/-- The two shapes of brackets: round ones group, square ones build a value from entries. -/
inductive Bracket where
  | round
  | square
deriving DecidableEq, Repr

/-- The operators. All but the factorial stand between two operands. -/
inductive Operator where
  | add
  | sub
  | mul
  | div
  | mod
  | pow
  | factorial
deriving DecidableEq, Repr

namespace Operator

/-- The character that writes an operator. -/
def symbol : Operator → Char
  | add => '+'
  | sub => '-'
  | mul => '*'
  | div => '/'
  | mod => '%'
  | pow => '^'
  | factorial => '!'

/-- All operators. -/
def all : List Operator := [add, sub, mul, div, mod, pow, factorial]

/-- The operator that a character writes. -/
def ofSymbol? (c : Char) : Option Operator := all.find? (·.symbol == c)

end Operator

/-- An item of an expression. -/
inductive Token where
  | number (value : Value)
  | opening (shape : Bracket)
  | closing (shape : Bracket)
  | operator (op : Operator)
  | variableName (name : String)
  | functionName (name : String)
  | separator
deriving DecidableEq

namespace Bracket

/-- The character that opens a bracket. -/
def openingSymbol : Bracket → Char
  | round => '('
  | square => '['

/-- The character that closes a bracket. -/
def closingSymbol : Bracket → Char
  | round => ')'
  | square => ']'

end Bracket

namespace Token

/-- Whether a token is a number. -/
def isNumber : Token → Bool
  | number _ => true
  | _ => false

/-- Whether a token is an operator. -/
def isOperator : Token → Bool
  | operator _ => true
  | _ => false

/-- Whether a token is the name of a function. -/
def isFunctionName : Token → Bool
  | functionName _ => true
  | _ => false

theorem exists_functionName {token : Token} (function : token.isFunctionName = true) :
    ∃ name, token = functionName name := by
  cases token with
  | functionName name => exact ⟨name, rfl⟩
  | _ => cases function

/-- The name of a variable, if the token is one. -/
def variableName? : Token → Option String
  | variableName name => some name
  | _ => none

/-- The text of a token. -/
def write : Token → List Char
  | number value => value.write
  | opening shape => [shape.openingSymbol]
  | closing shape => [shape.closingSymbol]
  | operator op => [op.symbol]
  | variableName name => name.toList
  | functionName name => name.toList
  | separator => [',']

/-- The text of a token as a string. -/
def text (token : Token) : String := String.ofList token.write

end Token
end Reckoner
