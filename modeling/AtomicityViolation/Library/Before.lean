import Mathlib.Data.List.Basic
import Mathlib.Data.List.Nodup
import Mathlib.Data.List.Perm.Basic

/-!
# One element before another

`Before l a b` says that `a` stands somewhere before `b` in the list `l`. The rules here are those
for a list that grows at its end. The order tells lists without repetition apart (`eq_of_before`).
-/

namespace ListOrder

variable {α β : Type*} {l m : List α} {a b c : α}

/-- `a` stands before `b`. -/
def Before (l : List α) (a b : α) : Prop := [a, b].Sublist l

instance [DecidableEq α] (l : List α) (a b : α) : Decidable (Before l a b) :=
  inferInstanceAs (Decidable (List.Sublist _ _))

/-- Nothing stands before anything in the empty list. -/
@[simp] theorem not_before_nil : ¬ Before ([] : List α) a b := by
  simp [Before]

/-- What stands before something is in the list. -/
theorem Before.left_mem (h : Before l a b) : a ∈ l :=
  h.subset List.mem_cons_self

/-- What stands behind something is in the list. -/
theorem Before.right_mem (h : Before l a b) : b ∈ l :=
  h.subset (List.mem_cons_of_mem _ List.mem_cons_self)

/-- An element of a list stands before an element of what follows. -/
theorem before_append (ha : a ∈ l) (hb : b ∈ m) : Before (l ++ m) a b :=
  (List.singleton_sublist.mpr ha).append (List.singleton_sublist.mpr hb)

/-- Before the element added at the end stands the whole list. -/
theorem before_concat_iff : Before (l ++ [c]) a b ↔ Before l a b ∨ a ∈ l ∧ b = c := by
  constructor
  · intro h
    obtain ⟨l₁, l₂, heq, h₁, h₂⟩ := List.sublist_append_iff.mp h
    rcases List.sublist_singleton.mp h₂ with rfl | rfl
    · rw [List.append_nil] at heq
      subst heq
      exact .inl h₁
    · -- The last of the two is the new element, so the first is in the list.
      have hsplit : [a] ++ [b] = l₁ ++ [c] := heq
      obtain ⟨rfl, hc⟩ := List.append_inj' hsplit rfl
      exact .inr ⟨List.singleton_sublist.mp h₁, List.singleton_inj.mp hc⟩
  · rintro (h | ⟨ha, rfl⟩)
    · exact List.Sublist.trans h (List.sublist_append_left l [c])
    · exact before_append ha (List.mem_singleton.mpr rfl)

/-- A list that grows keeps its order. -/
theorem Before.grow (h : Before l a b) (hm : l <+: m) : Before m a b :=
  List.Sublist.trans h hm.sublist

/-- What was there stands before what was added. -/
theorem before_of_grown (hm : l <+: m) (ha : a ∈ l) (hb : b ∈ m) (hnot : b ∉ l) :
    Before m a b := by
  obtain ⟨k, rfl⟩ := hm
  exact before_append ha ((List.mem_append.mp hb).resolve_left hnot)

/-- A function keeps the order. -/
theorem Before.map (f : α → β) (h : Before l a b) : Before (l.map f) (f a) (f b) :=
  List.Sublist.map f h

/-- Of two elements of a list, one stands before the other. -/
theorem before_or_before (ha : a ∈ l) (hb : b ∈ l) (hne : a ≠ b) : Before l a b ∨ Before l b a := by
  obtain ⟨l₁, l₂, rfl⟩ := List.append_of_mem ha
  rcases List.mem_append.mp hb with hb | hb
  · exact .inr (before_append hb List.mem_cons_self)
  · have hb₂ : b ∈ l₂ := (List.mem_cons.mp hb).resolve_left (Ne.symm hne)
    rw [List.append_cons]
    exact .inl (before_append (List.mem_append_right _ (List.mem_singleton.mpr rfl)) hb₂)

/-! ## The order tells lists apart -/

/-- Behind the first element stands the rest. -/
theorem before_cons_iff : Before (c :: l) a b ↔ Before l a b ∨ a = c ∧ b ∈ l := by
  rw [Before, List.sublist_cons_iff]
  simp [Before, and_assoc]

/-- Where nothing stands twice, one of two elements stands first. -/
theorem Before.asymm (hl : l.Nodup) (h : Before l a b) : ¬ Before l b a := by
  induction l with
  | nil => exact fun _ => not_before_nil h
  | cons c l ih =>
    obtain ⟨hc, hl⟩ := List.nodup_cons.mp hl
    intro h'
    rcases before_cons_iff.mp h with hab | ⟨rfl, hb⟩
    · rcases before_cons_iff.mp h' with hba | ⟨rfl, -⟩
      · exact ih hl hab hba
      · exact hc hab.right_mem
    · rcases before_cons_iff.mp h' with hba | ⟨rfl, -⟩
      · exact hc hba.right_mem
      · exact hc hb

/-- Lists without repetition that have the same elements are the same if the order of the one is
that of the other. -/
theorem eq_of_before (hl : l.Nodup) (hm : m.Nodup) (hmem : ∀ a, a ∈ l ↔ a ∈ m)
    (h : ∀ a b, Before l a b → Before m a b) : l = m := by
  have hperm : l.Perm m := (List.perm_ext_iff_of_nodup hl hm).mpr hmem
  have hl' : l.Pairwise (Before m) := List.pairwise_iff_forall_sublist.mpr (h _ _)
  have hm' : m.Pairwise (Before m) := List.pairwise_iff_forall_sublist.mpr id
  exact hperm.eq_of_pairwise (fun a b _ _ hab hba => absurd hba (hab.asymm hm)) hl' hm'

/-- A filter keeps the order of the elements that it keeps. -/
theorem before_filter_iff {p : α → Bool} :
    Before (l.filter p) a b ↔ Before l a b ∧ p a = true ∧ p b = true := by
  constructor
  · intro h
    exact ⟨h.trans List.filter_sublist, (List.mem_filter.mp h.left_mem).2,
      (List.mem_filter.mp h.right_mem).2⟩
  · rintro ⟨h, ha, hb⟩
    have hfilter := List.Sublist.filter p h
    simpa [Before, ha, hb] using hfilter

end ListOrder
