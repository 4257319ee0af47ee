import Reckoner.Token.Basic
import Reckoner.Fault

/-!
# Outlines

The outline of a token sequence under one shape of bracket: the tokens outside all groups, and for
each outermost group the slices between its separators.  A separator splits a group only where no
further bracket of either shape is open in it.
-/

namespace Reckoner
namespace Evaluation

/-- A token sequence divided at its outermost groups. -/
inductive Outline where
  /-- The end of the sequence. -/
  | done
  /-- A token outside all groups. -/
  | plain (token : Token) (tail : Outline)
  /-- A complete group with its slices. -/
  | group (slices : List (List Token)) (tail : Outline)
  /-- A bracket that closes without having been opened. -/
  | stray
  /-- A group that does not close, with the slices that were completed. -/
  | unfinished (slices : List (List Token))
deriving DecidableEq

/-- What has been read of a group that is still open. -/
structure OpenGroup where
  /-- How many more brackets of the group's own shape are open. -/
  depth : Nat
  /-- How many brackets of the other shape were opened and not closed; negative if more of them
  closed. -/
  balance : Int
  /-- The tokens since the last separator, latest first. -/
  slice : List Token
  /-- The completed slices, latest first. -/
  slices : List (List Token)

namespace OpenGroup

/-- A group that has just been opened. -/
def fresh : OpenGroup := ⟨0, 0, [], []⟩

/-- The group after a token that belongs to its current slice. -/
def push (shape : Bracket) (group : OpenGroup) (token : Token) : OpenGroup :=
  let group := { group with slice := token :: group.slice }
  match token with
  | .opening other =>
      if other = shape then { group with depth := group.depth + 1 }
      else { group with balance := group.balance + 1 }
  | .closing other =>
      if other = shape then { group with depth := group.depth - 1 }
      else { group with balance := group.balance - 1 }
  | _ => group

@[simp]
theorem slice_push (shape : Bracket) (group : OpenGroup) (token : Token) :
    (group.push shape token).slice = token :: group.slice := by
  unfold push
  split <;> (try split) <;> rfl

@[simp]
theorem slices_push (shape : Bracket) (group : OpenGroup) (token : Token) :
    (group.push shape token).slices = group.slices := by
  unfold push
  split <;> (try split) <;> rfl

/-- The group after a separator that ends its current slice. -/
def split (group : OpenGroup) : OpenGroup :=
  { group with slice := [], slices := group.slice.reverse :: group.slices }

/-- Whether a separator ends the current slice. -/
def splits (group : OpenGroup) : Bool := group.depth == 0 && group.balance == 0

/-- All slices of a group that closes now. -/
def close (group : OpenGroup) : List (List Token) := (group.slice.reverse :: group.slices).reverse

end OpenGroup

namespace Outline

/-- The outline of the rest of a sequence, inside the given group if one is open. -/
def remaining (shape : Bracket) : Option OpenGroup → List Token → Outline
  | none, [] => done
  | some inner, [] => unfinished inner.slices.reverse
  | none, token :: rest =>
      if token = .closing shape then stray
      else if token = .opening shape then remaining shape (some .fresh) rest
      else plain token (remaining shape none rest)
  | some inner, token :: rest =>
      if token = .closing shape ∧ inner.depth = 0 then
        group inner.close (remaining shape none rest)
      else if token = .separator ∧ inner.splits then remaining shape (some inner.split) rest
      else remaining shape (some (inner.push shape token)) rest

/-- The outline of a token sequence. -/
def ofTokens (shape : Bracket) (tokens : List Token) : Outline := remaining shape none tokens

/-- Write an outline as tokens again, each group through `join`, which is also told whether a
function name stands directly before the group.  Groups are joined in order, and the slices of an
unfinished group are evaluated before its missing bracket counts. -/
def fill (shape : Bracket) (evaluate : List Token → Except Fault Value)
    (join : Bool → List (List Token) → Except Fault (List Token)) :
    Bool → Outline → Except Fault (List Token)
  | _, done => .ok []
  | _, plain token tail => do
      let rest ← fill shape evaluate join token.isFunctionName tail
      return token :: rest
  | called, group slices tail => do
      let tokens ← join called slices
      let rest ← fill shape evaluate join false tail
      return tokens ++ rest
  | _, stray => .error (.unbalancedGrouping (.unexpectedClosing shape))
  | _, unfinished slices => do
      let _ ← slices.mapM evaluate
      .error (.unbalancedGrouping (.missingClosing shape))

end Outline

/-- Evaluate the slices of a square bracket to one value.  Each slice gives one entry, which is
absent unless the slice is a scalar. -/
def joinArray (evaluate : List Token → Except Fault Value) (slices : List (List Token)) :
    Except Fault (List Token) := do
  let values ← slices.mapM evaluate
  return [.number ⟨values.map fun value => value.scalar?.join⟩]

/-- Replace every outermost square bracket by one value. -/
def buildArrays (evaluate : List Token → Except Fault Value) (tokens : List Token) :
    Except Fault (List Token) :=
  (Outline.ofTokens .square tokens).fill .square evaluate (fun _ => joinArray evaluate) false

/-- The tokens that stand for an evaluated group: a bare number for a single value, otherwise an
argument list. -/
def groupTokens : List Value → List Token
  | [value] => [.number value]
  | values =>
      .opening .round :: (values.map Token.number).intersperse .separator ++ [.closing .round]

/-- Evaluate the slices of a round bracket.  An empty bracket is kept behind a function name, as a
call without arguments. -/
def joinGroup (evaluate : List Token → Except Fault Value) (called : Bool)
    (slices : List (List Token)) : Except Fault (List Token) :=
  if called && slices = [[]] then .ok (groupTokens [])
  else do
    let values ← slices.mapM evaluate
    return groupTokens values

/-- Evaluate every outermost round bracket. -/
def flattenGroups (evaluate : List Token → Except Fault Value) (tokens : List Token) :
    Except Fault (List Token) :=
  (Outline.ofTokens .round tokens).fill .round evaluate (joinGroup evaluate) false

end Evaluation
end Reckoner
