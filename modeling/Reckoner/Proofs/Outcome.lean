import Mathlib.Data.List.Forall2
import Reckoner.Fault

/-!
# Outcomes of chains of steps

When a chain of steps that may fail succeeds, each of its steps does, and when it fails, one of its
steps does.
-/

namespace Reckoner
namespace Outcome

variable {α β ε : Type}

@[simp]
theorem pure_eq_ok (result : α) : (pure result : Except ε α) = .ok result := rfl

@[simp]
theorem ok_bind (first : α) (next : α → Except ε β) : Except.ok first >>= next = next first := rfl

@[simp]
theorem error_bind (fault : ε) (next : α → Except ε β) :
    Except.error fault >>= next = .error fault := rfl

theorem bind_eq_ok {outcome : Except ε α} {next : α → Except ε β} {result : β} :
    outcome >>= next = .ok result ↔ ∃ first, outcome = .ok first ∧ next first = .ok result := by
  cases outcome with
  | error fault => simp [bind, Except.bind]
  | ok first => simp [bind, Except.bind]

theorem bind_congr {outcome : Except ε α} {next next' : α → Except ε β}
    (same : ∀ result, outcome = .ok result → next result = next' result) :
    outcome >>= next = outcome >>= next' := by
  cases outcome with
  | error fault => rfl
  | ok result => exact same result rfl

theorem toOption_eq_some {outcome : Except ε α} {result : α} :
    outcome.toOption = some result ↔ outcome = .ok result := by
  cases outcome with
  | error fault => simp [Except.toOption]
  | ok first => simp [Except.toOption]

theorem mapM_eq_ok {step : α → Except ε β} {items : List α} {results : List β} :
    items.mapM step = .ok results ↔
      List.Forall₂ (fun item result => step item = .ok result) items results := by
  induction items generalizing results with
  | nil => simp [pure, Except.pure, eq_comm]
  | cons item items induction =>
      simp only [List.mapM_cons, bind_eq_ok, pure, Except.pure, Except.ok.injEq,
        List.forall₂_cons_left_iff, induction]
      constructor
      · rintro ⟨first, done, others, rest, rfl⟩
        exact ⟨first, others, done, rest, rfl⟩
      · rintro ⟨first, others, done, rest, rfl⟩
        exact ⟨first, done, others, rest, rfl⟩

/-- Whenever an outcome is a fault, the fault is one of those allowed. -/
def FailsOnly (allowed : ε → Prop) (outcome : Except ε α) : Prop :=
  ∀ fault, outcome = .error fault → allowed fault

namespace FailsOnly

variable {allowed : ε → Prop}

theorem ok (result : α) : FailsOnly allowed (.ok result : Except ε α) := nofun

theorem error {fault : ε} (allows : allowed fault) :
    FailsOnly allowed (.error fault : Except ε α) := by
  rintro _ ⟨⟩
  exact allows

theorem bind_of_ok {outcome : Except ε α} {next : α → Except ε β}
    (first : FailsOnly allowed outcome)
    (second : ∀ result, outcome = .ok result → FailsOnly allowed (next result)) :
    FailsOnly allowed (outcome >>= next) := by
  cases outcome with
  | ok result => exact second result rfl
  | error fault => exact .error (first fault rfl)

theorem bind {outcome : Except ε α} {next : α → Except ε β} (first : FailsOnly allowed outcome)
    (second : ∀ result, FailsOnly allowed (next result)) :
    FailsOnly allowed (outcome >>= next) :=
  first.bind_of_ok fun result _ => second result

theorem mapM {step : α → Except ε β} {items : List α}
    (steps : ∀ item ∈ items, FailsOnly allowed (step item)) :
    FailsOnly allowed (items.mapM step) := by
  induction items with
  | nil => exact .ok _
  | cons item items induction =>
      obtain ⟨first, others⟩ := List.forall_mem_cons.mp steps
      rw [List.mapM_cons]
      exact first.bind fun _ => (induction others).bind fun _ => .ok _

end FailsOnly

end Outcome
end Reckoner
