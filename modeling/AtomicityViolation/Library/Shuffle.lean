import Mathlib.Data.List.Perm.Basic
import AtomicityViolation.Library.LockedStream

/-!
# Interleavings of the same calls

Two lists of calls, each call with the thread that makes it, in which each thread makes the same
calls in the same order, are interleavings of one family of sequences. They are permutations of each
other (`SameCalls.perm`), and stay interleavings of one family when the calls of a kind are picked
from both (`SameCalls.filter`).
-/

namespace LockedStream

variable {T C : Type*} [DecidableEq T]

/-- Each thread makes the same calls in the same order. -/
def SameCalls (ps qs : List (T × C)) : Prop := ∀ t, callsOf t ps = callsOf t qs

/-- A call of a thread is counted among the calls of the thread. -/
theorem count_callsOf [DecidableEq C] (ps : List (T × C)) (t : T) (c : C) :
    (callsOf t ps).count c = ps.count (t, c) := by
  induction ps with
  | nil => rfl
  | cons p ps ih =>
    obtain ⟨u, d⟩ := p
    by_cases hu : u = t
    · subst hu
      have hcons : callsOf u ((u, d) :: ps) = d :: callsOf u ps := by simp [callsOf]
      rw [hcons, List.count_cons, List.count_cons, ih]
      simp
    · have hcons : callsOf t ((u, d) :: ps) = callsOf t ps := by simp [callsOf, hu]
      rw [hcons, ih, List.count_cons_of_ne]
      exact fun h => hu (Prod.ext_iff.mp h).1

/-- Picking the calls of a kind picks them from the calls of each thread. -/
theorem callsOf_filter (keep : T × C → Bool) (ps : List (T × C)) (t : T) :
    callsOf t (ps.filter keep) = (callsOf t ps).filter fun c => keep (t, c) := by
  rw [callsOf, callsOf, List.filter_map, List.filter_filter, List.filter_filter]
  congr 1
  refine List.filter_congr fun p _ => ?_
  by_cases hp : p.1 = t
  · subst hp
    simp
  · simp [hp]

namespace SameCalls

variable {ps qs : List (T × C)}

/-- Two interleavings of the same calls are permutations of each other. -/
theorem perm (h : SameCalls ps qs) : ps.Perm qs := by
  classical
  refine List.perm_iff_count.mpr fun ⟨t, c⟩ => ?_
  rw [← count_callsOf, ← count_callsOf, h t]

/-- The calls of a kind are interleaved in both. -/
theorem filter (h : SameCalls ps qs) (keep : T × C → Bool) :
    SameCalls (ps.filter keep) (qs.filter keep) := fun t => by
  rw [callsOf_filter, callsOf_filter, h t]

end SameCalls

end LockedStream
