import Reckoner.Scope

/-!
# Sampling

A function of one number is sampled at evenly spaced points by a single call with all of them.  A
sample has no result where the function has none or an infinite one, and a call that fails has no
results at all.
-/

namespace Reckoner
namespace Sampling

/-- A point and the result of a function there, if it has a finite one. -/
structure Sample where
  /-- The argument. -/
  x : Float
  /-- The result. -/
  y : Option Float

/-- The given number of evenly spaced points from `first` to `last`, both included. -/
def points (first last : Float) (count : Nat) : List Float :=
  match count with
  | 0 => []
  | 1 => [first]
  | _ =>
      (List.range count).map fun i =>
        let t := i.toFloat / (count - 1).toFloat
        t * last + (1 - t) * first

/-- The entry of a value that belongs to the point at an index: a scalar belongs to all points. -/
def entryAt (value : Value) (index : Nat) : Option Float :=
  match value.scalar? with
  | some entry => entry
  | none => value.entries[index]?.join

/-- Sample a function under a name. -/
def sample (scope : Scope) (entry : FunctionEntry) (name : String) (first last : Float)
    (count : Nat) : List Sample :=
  let xs := points first last count
  let value :=
    match scope.call entry name [.ofList xs] with
    | .ok value => value
    | .error _ => ⟨xs.map fun _ => none⟩
  xs.mapIdx fun i x => ⟨x, (entryAt value i).filter Float.isFinite⟩

end Sampling
end Reckoner
