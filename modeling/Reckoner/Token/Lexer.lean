import Reckoner.Fault
import Reckoner.Text.Blank

/-!
# Reading tokens

A text is read from left to right.  Digits with points, names and separators each run on as far as
possible, brackets and operators stand alone except that two stars are one power sign, and blank
characters only separate.  A name directly before an opening round bracket names a function.
Reading goes on behind a malformed number, so that one scan shows every fault.
-/

namespace Reckoner

/-- What a character can be part of. -/
inductive CharClass where
  | blank
  | numeral
  | opening (shape : Bracket)
  | closing (shape : Bracket)
  | separator
  | operator (op : Operator)
  | name
deriving DecidableEq

namespace CharClass

/-- The class of a character. -/
def ofChar (c : Char) : CharClass :=
  if c.isDigit || c == '.' then numeral
  else if Text.isBlank c then blank
  else if c == ',' || c == ';' then separator
  else if c == Bracket.round.openingSymbol then opening .round
  else if c == Bracket.round.closingSymbol then closing .round
  else if c == Bracket.square.openingSymbol then opening .square
  else if c == Bracket.square.closingSymbol then closing .square
  else
    match Operator.ofSymbol? c with
    | some op => operator op
    | none => name

/-- Whether characters of the class run together. -/
def runs : CharClass → Bool
  | numeral | separator | name => true
  | _ => false

end CharClass

/-- A piece of a text together with its place and what it was read as. -/
structure Lexeme where
  /-- Offset of the first byte. -/
  start : Nat
  /-- The characters of the piece. -/
  piece : List Char
  /-- The token, or nothing for a malformed number. -/
  token? : Option Token
deriving DecidableEq

namespace Lexeme

/-- How many bytes a text has in UTF-8. -/
def byteCount (text : List Char) : Nat := text.foldr (fun c bytes => c.utf8Size + bytes) 0

/-- The bytes that a lexeme covers. -/
def range (lexeme : Lexeme) : ByteRange :=
  ⟨lexeme.start, lexeme.start + byteCount lexeme.piece⟩

/-- The token of a lexeme, or the fault that it is. -/
def outcome (lexeme : Lexeme) : Except Fault Token :=
  match lexeme.token? with
  | some token => .ok token
  | none => .error (.malformedLiteral (String.ofList lexeme.piece) lexeme.range)

end Lexeme

namespace Lexer

/-- The characters that belong with `c` when `rest` follows it, and what is left. -/
def cut (c : Char) (rest : List Char) : List Char × List Char :=
  if (CharClass.ofChar c).runs then
    (c :: rest.takeWhile fun d => CharClass.ofChar d == CharClass.ofChar c,
      rest.dropWhile fun d => CharClass.ofChar d == CharClass.ofChar c)
  else
    match c, rest with
    | '*', '*' :: rest => (['*', '*'], rest)
    | _, _ => ([c], rest)

theorem length_cut (c : Char) (rest : List Char) : (cut c rest).2.length ≤ rest.length := by
  unfold cut
  split
  · exact (List.dropWhile_sublist _).length_le
  · split <;> simp

/-- Nothing is lost or added when a piece is cut off. -/
theorem cut_append (c : Char) (rest : List Char) :
    (cut c rest).1 ++ (cut c rest).2 = c :: rest := by
  unfold cut
  split
  · simp
  · split <;> simp

/-- The token of a piece of text that begins with `c` and is followed by `rest`; a piece of digits
and points may be none. -/
def tokenOf? (c : Char) (piece rest : List Char) : Option Token :=
  match CharClass.ofChar c with
  | .blank => none
  | .numeral => (Numeral.read? piece).map fun x => .number (.scalar x)
  | .opening shape => some (.opening shape)
  | .closing shape => some (.closing shape)
  | .separator => some .separator
  | .operator op => some (.operator (if piece = ['*', '*'] then .pow else op))
  | .name =>
      if rest.head? = some '(' then some (.functionName (String.ofList piece))
      else some (.variableName (String.ofList piece))

/-- The lexemes of a text whose first byte has the given offset. -/
def scanFrom (start : Nat) : List Char → List Lexeme
  | [] => []
  | c :: rest =>
      if CharClass.ofChar c = .blank then scanFrom (start + c.utf8Size) rest
      else
        let parts := cut c rest
        ⟨start, parts.1, tokenOf? c parts.1 parts.2⟩ ::
          scanFrom (start + Lexeme.byteCount parts.1) parts.2
termination_by text => text.length
decreasing_by
  · exact Nat.lt_succ_self _
  · exact Nat.lt_succ_of_le (length_cut c rest)

/-- The lexemes of a text. -/
def scan (text : List Char) : List Lexeme := scanFrom 0 text

/-- The tokens of a text, or the first fault in it. -/
def tokenize (text : List Char) : Except Fault (List Token) :=
  (scan text).mapM Lexeme.outcome

end Lexer
end Reckoner
