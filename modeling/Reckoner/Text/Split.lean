/-!
# Cutting text

A text is cut at the first mark, at every mark, or into the records that newlines end.
-/

namespace Reckoner
namespace Text

/-- The part of a text before the first `mark`, or all of it. -/
def before (mark : Char) (text : List Char) : List Char := text.takeWhile (· != mark)

/-- Cut a text at the first `mark`, which belongs to neither part. -/
def cutAt? (mark : Char) (text : List Char) : Option (List Char × List Char) :=
  match text.dropWhile (· != mark) with
  | [] => none
  | _ :: rest => some (before mark text, rest)

/-- The pieces of a text between its marks: one more than there are marks. -/
def pieces (mark : Char) : List Char → List (List Char)
  | [] => [[]]
  | c :: text =>
      if c = mark then [] :: pieces mark text
      else
        match pieces mark text with
        | [] => [[c]]
        | piece :: rest => (c :: piece) :: rest

/-- Cut a text behind every newline.  No record is empty, and together they are the text. -/
def records : List Char → List (List Char)
  | [] => []
  | c :: text =>
      if c = '\n' then [c] :: records text
      else
        match records text with
        | [] => [[c]]
        | record :: rest => (c :: record) :: rest

/-- A record without the newline that ends it and one carriage return before that. -/
def withoutLineEnd (record : List Char) : List Char :=
  match record.reverse with
  | '\n' :: '\r' :: line => line.reverse
  | '\n' :: line => line.reverse
  | _ => record

/-- A record without any newlines and carriage returns at its end. -/
def withoutLineEnds (record : List Char) : List Char :=
  (record.reverse.dropWhile fun c => c == '\n' || c == '\r').reverse

end Text
end Reckoner
