import Mathlib.Data.List.Infix

/-!
# Searching a text that is made of pieces

A word that has no character of the separators between the pieces of a text is found in the text
only inside one of its pieces (`infix_pieces_iff`). Where the elements in front of a piece are of
another kind than its first one, they are told from it (`prefix_span_iff`).
-/

namespace Pieces

variable {α β : Type*} {w : List α}

/-- A word is found on one side of an element that it does not have. -/
theorem infix_append_cons_iff {d : α} (hd : d ∉ w) (a b : List α) :
    w <:+: a ++ d :: b ↔ w <:+: a ∨ w <:+: b := by
  constructor
  · rw [List.infix_append_iff]
    rintro (ha | hb | ⟨l, r, rfl, hl, hr⟩)
    · exact .inl ha
    · rcases List.infix_cons_iff.mp hb with hpre | hb
      · cases w with
        | nil => exact .inl List.nil_infix
        | cons c w =>
          obtain rfl := (List.cons_prefix_cons.mp hpre).1
          exact absurd List.mem_cons_self hd
      · exact .inr hb
    · -- A word across the place would go on with the element.
      cases r with
      | nil => exact .inl (by simpa using hl.isInfix)
      | cons c r =>
        obtain ⟨rfl, -⟩ := List.cons_prefix_cons.mp hr
        exact absurd (List.mem_append_right _ List.mem_cons_self) hd
  · rintro (ha | hb)
    · exact List.infix_append_of_infix_left ha
    · exact List.infix_append_of_infix_right (List.infix_cons hb)

/-- A word is found on one side of a separator with which it has no element in common. -/
theorem infix_separated_iff {sep : List α} (hne : sep ≠ []) (hsep : ∀ d ∈ sep, d ∉ w)
    (a b : List α) : w <:+: a ++ (sep ++ b) ↔ w <:+: a ∨ w <:+: b := by
  induction sep generalizing a with
  | nil => exact absurd rfl hne
  | cons d sep ih =>
    obtain ⟨hd, hsep⟩ := List.forall_mem_cons.mp hsep
    rw [List.cons_append, infix_append_cons_iff hd]
    cases sep with
    | nil => simp
    | cons d' sep =>
      have hrest := ih (List.cons_ne_nil _ _) hsep []
      rw [List.nil_append] at hrest
      rw [hrest]
      constructor
      · rintro (ha | hnil | hb)
        · exact .inl ha
        · exact .inl (List.infix_nil.mp hnil ▸ List.nil_infix)
        · exact .inr hb
      · exact Or.imp id .inr

/-- A word is found in one of the pieces of a text, when it has no element in common with what
stands between them. -/
theorem infix_pieces_iff {sep piece : β → List α} {xs : List β} (hne : ∀ x ∈ xs, sep x ≠ [])
    (hsep : ∀ x ∈ xs, ∀ d ∈ sep x, d ∉ w) (lead : List α) :
    w <:+: lead ++ xs.flatMap (fun x => sep x ++ piece x) ↔
      w <:+: lead ∨ ∃ x ∈ xs, w <:+: piece x := by
  induction xs generalizing lead with
  | nil => simp
  | cons x xs ih =>
    obtain ⟨hx, hxs⟩ := List.forall_mem_cons.mp hne
    obtain ⟨hsepx, hsepxs⟩ := List.forall_mem_cons.mp hsep
    rw [List.flatMap_cons, List.append_assoc, infix_separated_iff hx hsepx, ih hxs hsepxs]
    simp

/-! ## Numbers in front of the pieces -/

/-- Elements of one kind, and then another one, start a text of this shape only with the same
elements. -/
theorem prefix_span_iff {p : α → Bool} {xs ys u v : List α} {c : α} (hxs : ∀ x ∈ xs, p x = true)
    (hys : ∀ y ∈ ys, p y = true) (hc : p c = false) (hv : ∀ d ∈ v.head?, p d = false) :
    xs ++ c :: u <+: ys ++ v ↔ xs = ys ∧ c :: u <+: v := by
  induction xs generalizing ys with
  | nil =>
    cases ys with
    | nil => simp
    | cons y ys =>
      -- The first element would be of the kind.
      simp only [List.nil_append, List.cons_append, List.cons_prefix_cons, reduceCtorEq, false_and,
        iff_false, not_and]
      rintro rfl
      rw [hys c List.mem_cons_self] at hc
      cases hc
  | cons x xs ih =>
    obtain ⟨hx, hxs⟩ := List.forall_mem_cons.mp hxs
    cases ys with
    | nil =>
      cases v with
      | nil => simp
      | cons d v =>
        have hd : p d = false := hv d rfl
        simp only [List.cons_append, List.nil_append, List.cons_prefix_cons, reduceCtorEq,
          false_and, iff_false, not_and]
        rintro rfl
        rw [hx] at hd
        cases hd
    | cons y ys =>
      rw [List.cons_append, List.cons_append, List.cons_prefix_cons,
        ih hxs (List.forall_mem_cons.mp hys).2]
      simp [and_assoc]

end Pieces
