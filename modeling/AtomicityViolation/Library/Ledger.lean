import Mathlib.Data.Multiset.AddSub

/-!
# What was opened and not closed

A list of marks says what was opened and what was closed, and a mark that closes something is
matched with one that opened it before. `unmatched` is what was opened and not closed since, as
often as it was.
-/

namespace Ledger

variable {A : Type*} [DecidableEq A]

/-- The marks. -/
inductive Mark (A : Type*) where
  | opened (a : A)
  | closed (a : A)
  deriving DecidableEq

/-- What one mark changes. Closing what is not open changes nothing. -/
def Mark.apply (m : Multiset A) : Mark A → Multiset A
  | .opened a => a ::ₘ m
  | .closed a => m.erase a

/-- What was opened and is not matched by a later mark that closes it. -/
def unmatched (ms : List (Mark A)) : Multiset A := ms.foldl Mark.apply 0

/-- At the start nothing is open. -/
@[simp] theorem unmatched_nil : unmatched ([] : List (Mark A)) = 0 := rfl

/-- One more mark. -/
theorem unmatched_concat (ms : List (Mark A)) (m : Mark A) :
    unmatched (ms ++ [m]) = m.apply (unmatched ms) := by
  simp [unmatched, List.foldl_append]

/-- What is opened next is open, beside what was. -/
@[simp] theorem unmatched_opened (ms : List (Mark A)) (a : A) :
    unmatched (ms ++ [.opened a]) = a ::ₘ unmatched ms :=
  unmatched_concat ms _

/-- What is closed next is open once less. -/
@[simp] theorem unmatched_closed (ms : List (Mark A)) (a : A) :
    unmatched (ms ++ [.closed a]) = (unmatched ms).erase a :=
  unmatched_concat ms _

end Ledger
