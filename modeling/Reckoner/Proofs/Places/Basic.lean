import Reckoner.Scope

/-!
# Evaluation by positions

Brackets are evaluated by the positions of their marks: slices are cut out of the sequence between
two positions, and single tokens are looked up at a position.  Here every such access ends in a
fault of one's choice if it is out of range.
-/

namespace Reckoner
namespace Evaluation

/-! ## Access by position -/

/-- The item at a position, or the fault if there is none. -/
def itemAt {α : Type} (outside : Fault) (items : List α) (place : Nat) : Except Fault α :=
  match items[place]? with
  | some item => .ok item
  | none => .error outside

/-- The items without the one at a position, or the fault if there is none. -/
def removeAt {α : Type} (outside : Fault) (items : List α) (place : Nat) : Except Fault (List α) :=
  if place < items.length then .ok (items.eraseIdx place) else .error outside

/-- The positions of the marks before and behind a slice: of its bracket or of separators. -/
structure Gap where
  /-- The position of the mark before the slice. -/
  before : Nat
  /-- The position of the mark behind the slice. -/
  behind : Nat

/-- The tokens between the marks of a gap, or the fault if that is no range of the sequence. -/
def Gap.slice (outside : Fault) (tokens : List Token) (gap : Gap) : Except Fault (List Token) :=
  if gap.before + 1 ≤ gap.behind ∧ gap.behind ≤ tokens.length then
    .ok (tokens.extract (gap.before + 1) gap.behind)
  else .error outside

/-- Whether a slice is empty and its mark stands behind the name of a function. -/
def Gap.isEmptyCall (outside : Fault) (tokens : List Token) (gap : Gap) (slice : List Token) :
    Except Fault Bool :=
  if slice.isEmpty && decide (0 < gap.before) then do
    let token ← itemAt outside tokens (gap.before - 1)
    return token.isFunctionName
  else .ok false

/-! ## Outlines by position -/

/-- A token sequence divided at its outermost groups, with positions in place of slices. -/
inductive Places where
  /-- The end of the sequence. -/
  | done
  /-- A token outside all groups. -/
  | plain (token : Token) (tail : Places)
  /-- A complete group with the gaps of its slices. -/
  | group (gaps : List Gap) (tail : Places)
  /-- A bracket that closes without having been opened. -/
  | stray
  /-- A group that does not close, with the gaps of the slices that were completed. -/
  | unfinished (gaps : List Gap)

/-- What has been read of a group that is still open. -/
structure OpenPlaces where
  /-- How many more brackets of the group's own shape are open. -/
  depth : Nat
  /-- How many brackets of the other shape were opened and not closed. -/
  balance : Int
  /-- The position of the last mark, the bracket that opens the group or a separator. -/
  mark : Nat
  /-- The completed gaps, latest first. -/
  gaps : List Gap

/-- The open group after a token that belongs to its current slice. -/
def OpenPlaces.push (shape : Bracket) (inner : OpenPlaces) : Token → OpenPlaces
  | .opening other =>
      if other = shape then { inner with depth := inner.depth + 1 }
      else { inner with balance := inner.balance + 1 }
  | .closing other =>
      if other = shape then { inner with depth := inner.depth - 1 }
      else { inner with balance := inner.balance - 1 }
  | _ => inner

/-- Whether a separator ends the current slice. -/
def OpenPlaces.splits (inner : OpenPlaces) : Bool := inner.depth == 0 && inner.balance == 0

/-- The gaps of an open group with the one that a mark at a position completes. -/
def OpenPlaces.gapsTo (inner : OpenPlaces) (place : Nat) : List Gap :=
  ⟨inner.mark, place⟩ :: inner.gaps

namespace Places

/-- The places of the rest of a sequence from a position on, inside the given group if one is
open. -/
def remaining (shape : Bracket) : Option OpenPlaces → Nat → List Token → Places
  | none, _, [] => done
  | some inner, _, [] => unfinished inner.gaps.reverse
  | none, place, token :: rest =>
      if token = .closing shape then stray
      else if token = .opening shape then remaining shape (some ⟨0, 0, place, []⟩) (place + 1) rest
      else plain token (remaining shape none (place + 1) rest)
  | some inner, place, token :: rest =>
      if token = .closing shape ∧ inner.depth = 0 then
        group (inner.gapsTo place).reverse (remaining shape none (place + 1) rest)
      else if token = .separator ∧ inner.splits then
        remaining shape (some { inner with mark := place, gaps := inner.gapsTo place })
          (place + 1) rest
      else remaining shape (some (inner.push shape token)) (place + 1) rest

/-- Write places as tokens again, each group through `join`.  The gaps of an unfinished group are
evaluated before its missing bracket counts. -/
def fill (shape : Bracket) (evaluate : Gap → Except Fault Value)
    (join : List Gap → Except Fault (List Token)) : Places → Except Fault (List Token)
  | done => .ok []
  | plain token tail => do
      let rest ← fill shape evaluate join tail
      return token :: rest
  | group gaps tail => do
      let tokens ← join gaps
      let rest ← fill shape evaluate join tail
      return tokens ++ rest
  | stray => .error (.unbalancedGrouping (.unexpectedClosing shape))
  | unfinished gaps => do
      let _ ← gaps.mapM evaluate
      .error (.unbalancedGrouping (.missingClosing shape))

end Places

section Access

variable (outside : Fault) (evaluate : List Token → Except Fault Value) (tokens : List Token)

/-- Evaluate the slice of a gap. -/
def evaluateGap (gap : Gap) : Except Fault Value := do
  evaluate (← gap.slice outside tokens)

/-- Evaluate the gaps of a square bracket to one value. -/
def joinArrayAt (gaps : List Gap) : Except Fault (List Token) := do
  let values ← gaps.mapM (evaluateGap outside evaluate tokens)
  return [.number ⟨values.map fun value => value.scalar?.join⟩]

/-- Replace every outermost square bracket by one value, with the slices cut out by position. -/
def buildArraysAt : Except Fault (List Token) :=
  (Places.remaining .square none 0 tokens).fill .square (evaluateGap outside evaluate tokens)
    (joinArrayAt outside evaluate tokens)

/-- The tokens for the gaps of a round bracket and its end.  Nothing stands for an empty slice
behind the name of a function. -/
def fillGaps : List Gap → Except Fault (List Token)
  | [] => .ok [.closing .round]
  | [gap] => do
      let slice ← gap.slice outside tokens
      if ← gap.isEmptyCall outside tokens slice then return [.closing .round]
      else
        let value ← evaluate slice
        return [.number value, .closing .round]
  | gap :: gaps => do
      let value ← evaluateGap outside evaluate tokens gap
      let rest ← fillGaps gaps
      return .number value :: .separator :: rest

/-- Evaluate the gaps of a round bracket and keep the bracket around their values. -/
def joinGroupAt (gaps : List Gap) : Except Fault (List Token) := do
  let inner ← fillGaps outside evaluate tokens gaps
  return .opening .round :: inner

/-- Whether a token closes a bracket around a single number at the end of what is written. -/
def closesSingle (written : List Token) (token : Token) : Except Fault Bool :=
  if token = .closing .round ∧ 2 ≤ written.length then do
    let opening ← itemAt outside written (written.length - 2)
    if opening = .opening .round then
      let value ← itemAt outside written (written.length - 1)
      return value.isNumber
    else return false
  else .ok false

/-- Put the value in place of every bracket around a single one.  The tokens written so far are
looked up by position. -/
def collapse : List Token → List Token → Except Fault (List Token)
  | written, [] => .ok written
  | written, token :: rest => do
      if ← closesSingle outside written token then
        collapse (← removeAt outside written (written.length - 2)) rest
      else collapse (written ++ [token]) rest

/-- Evaluate every outermost round bracket, with the slices cut out by position. -/
def flattenGroupsAt : Except Fault (List Token) := do
  let flat ← (Places.remaining .round none 0 tokens).fill .round
    (evaluateGap outside evaluate tokens) (joinGroupAt outside evaluate tokens)
  collapse outside [] flat

end Access

/-- Evaluate a sequence of at most `size` tokens, with all slices cut out by position. -/
def evaluateAt (outside : Fault) (env : Environment) : Nat → List Token → Except Fault Value
  | _, [] => .error (.malformedExpression .empty)
  | 0, _ :: _ => .error (.malformedExpression .empty)
  | size + 1, tokens => do
      let built ← buildArraysAt outside (evaluateAt outside env size) tokens
      let flat ← flattenGroupsAt outside (evaluateAt outside env size) built
      reduce env flat

end Evaluation

open Evaluation

/-! ## Operands and arguments -/

/-- Combine two values entry by entry, with the entry of a scalar looked up by position. -/
def Value.broadcastAt (outside : Fault) (f : Float → Float → Float) (lhs rhs : Value) :
    Except Fault Value :=
  if lhs.length = rhs.length then .ok ⟨List.zipWith (combine f) lhs.entries rhs.entries⟩
  else if lhs.length = 1 then do
    let entry ← itemAt outside lhs.entries 0
    return ⟨rhs.entries.map (combine f entry)⟩
  else if rhs.length = 1 then do
    let entry ← itemAt outside rhs.entries 0
    return ⟨lhs.entries.map (combine f · entry)⟩
  else .error (.shapeMismatch lhs.length rhs.length)

/-- Call a built-in function with its first argument looked up by position. -/
def Builtin.callAt (outside : Fault) (f : Builtin) (name : String) (args : List Value) :
    Except Fault Value :=
  if f = .log then
    if 1 ≤ args.length ∧ args.length ≤ 2 then
      match args with
      | [x, base] => do return defined (← Value.broadcastAt outside logBase x base)
      | args => do return defined ((← itemAt outside args 0).map f.onNumber)
    else .error (.invalidCall name (.arityRange 1 2 args.length))
  else if args.length = 1 then do
    return defined ((← itemAt outside args 0).map f.onNumber)
  else .error (.invalidCall name (.arity 1 args.length))

namespace Scope

/-- Call a function under a name, with all arguments and slices looked up by position. -/
def callWithinAt (outside : Fault) :
    Nat → Scope → FunctionEntry → String → List Value → Except Fault Value
  | callsLeft, scope, entry, name, args =>
      match entry.routine with
      | .builtin f => f.callAt outside name args
      | .formula f =>
          if f.parameters.length = args.length then
            match callsLeft with
            | 0 => .error (.invalidCall name .tooDeep)
            | callsLeft + 1 =>
                let inner := scope.bind (f.parameters.zip args)
                evaluateAt outside (inner.environmentWith (callWithinAt outside callsLeft inner))
                  f.body.length f.body
          else .error (.invalidCall name (.arity f.parameters.length args.length))

/-- Evaluate a token sequence, with all arguments and slices looked up by position. -/
def evaluateAt (outside : Fault) (scope : Scope) (tokens : List Token) : Except Fault Value :=
  Evaluation.evaluateAt outside
    (scope.environmentWith (callWithinAt outside scope.callsLeft scope)) tokens.length tokens

end Scope
end Reckoner
