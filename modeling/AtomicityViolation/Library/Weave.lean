import Mathlib.Data.List.Forall2

/-!
# Lists with insertions around their elements

`Woven R xs ys` says that `ys` is `xs` with a run put before and a run put behind each element, such
that `R x pre post` holds of an element and the two runs around it. It is the shape of a program
after a pass that only inserts instructions. Everything that can be read off such a list element by
element is read off the original: a reading that maps each group to what it reads in its element
(`Woven.flatMap_eq`), the erasure of the insertions (`Woven.filter_eq`) and a count
(`Woven.countP_eq`).
-/

namespace Weave

variable {α β : Type*}

/-- `ys` is `xs` with runs `pre` and `post` around each element `x`, where `R x pre post`. -/
inductive Woven (R : α → List α → List α → Prop) : List α → List α → Prop
  /-- Nothing is put into an empty list. -/
  | nil : Woven R [] []
  /-- An element with the runs around it, in front of a woven list. -/
  | cons {x : α} {pre post xs ys : List α} :
      R x pre post → Woven R xs ys → Woven R (x :: xs) (pre ++ x :: (post ++ ys))

variable {R R' : α → List α → List α → Prop} {xs ys xs' ys' : List α}

/-- A weaker condition on the groups. -/
theorem Woven.mono (hR : ∀ x ∈ xs, ∀ pre post, R x pre post → R' x pre post) (h : Woven R xs ys) :
    Woven R' xs ys := by
  induction h with
  | nil => exact .nil
  | cons hx _ ih =>
    exact .cons (hR _ List.mem_cons_self _ _ hx) (ih fun y hy => hR y (List.mem_cons_of_mem _ hy))

/-- Woven lists, one after the other. -/
theorem Woven.append (h : Woven R xs ys) (h' : Woven R xs' ys') :
    Woven R (xs ++ xs') (ys ++ ys') := by
  induction h with
  | nil => exact h'
  | cons hx _ ih => simpa using Woven.cons hx ih

/-- A woven list, from two lists one after the other, is two woven lists. -/
theorem Woven.append_inv {zs : List α} (h : Woven R (xs ++ xs') zs) :
    ∃ us vs, zs = us ++ vs ∧ Woven R xs us ∧ Woven R xs' vs := by
  induction xs generalizing zs with
  | nil => exact ⟨[], zs, rfl, .nil, h⟩
  | cons x xs ih =>
    cases h with
    | @cons _ pre post _ ys hx hrest =>
      obtain ⟨us, vs, rfl, hus, hvs⟩ := ih hrest
      exact ⟨pre ++ x :: (post ++ us), vs, by simp, .cons hx hus, hvs⟩

/-- The elements are still there. -/
theorem Woven.subset (h : Woven R xs ys) : xs ⊆ ys := by
  induction h with
  | nil => exact List.Subset.refl _
  | cons _ _ ih =>
    intro y hy
    rcases List.mem_cons.mp hy with rfl | hy
    · simp
    · simp [ih hy]

/-- A list to which nothing is added, when that is allowed around each of its elements. -/
theorem Woven.refl (h : ∀ x ∈ xs, R x [] []) : Woven R xs xs := by
  induction xs with
  | nil => exact .nil
  | cons x xs ih =>
    simpa using Woven.cons (h x List.mem_cons_self) (ih fun y hy => h y (List.mem_cons_of_mem _ hy))

/-- A property of the elements and of what is put around them holds in the woven list. -/
theorem Woven.forall_mem {p : α → Prop} (hp : ∀ x ∈ xs, p x)
    (hR : ∀ x ∈ xs, ∀ pre post, R x pre post → ∀ y ∈ pre ++ post, p y) (h : Woven R xs ys) :
    ∀ y ∈ ys, p y := by
  induction h with
  | nil => simp
  | @cons x pre post xs ys hx _ ih =>
    obtain ⟨hpx, hpxs⟩ := List.forall_mem_cons.mp hp
    have hins := List.forall_mem_append.mp (hR x List.mem_cons_self pre post hx)
    have hrest := ih hpxs fun y hy => hR y (List.mem_cons_of_mem _ hy)
    simp only [List.forall_mem_append, List.forall_mem_cons]
    exact ⟨hins.1, hpx, hins.2, hrest⟩

/-- Reading a woven list: when each group reads as `g` reads its element, the woven list reads as
`g` reads the original. -/
theorem Woven.flatMap_eq {f g : α → List β}
    (hfg : ∀ x ∈ xs, ∀ pre post, R x pre post → pre.flatMap f ++ f x ++ post.flatMap f = g x)
    (h : Woven R xs ys) : ys.flatMap f = xs.flatMap g := by
  induction h with
  | nil => rfl
  | @cons x pre post xs ys hx _ ih =>
    have hg := hfg x List.mem_cons_self pre post hx
    have hrest := ih fun y hy => hfg y (List.mem_cons_of_mem _ hy)
    calc (pre ++ x :: (post ++ ys)).flatMap f
        = (pre.flatMap f ++ f x ++ post.flatMap f) ++ ys.flatMap f := by
          simp only [List.flatMap_append, List.flatMap_cons, List.append_assoc]
      _ = g x ++ xs.flatMap g := by rw [hg, hrest]
      _ = (x :: xs).flatMap g := List.flatMap_cons.symm

/-- Erasing the insertions gives back the original: when `p` holds of its elements and of nothing
that is put around them, the elements of the woven list that satisfy `p` are the original. -/
theorem Woven.filter_eq {p : α → Bool} (hp : ∀ x ∈ xs, p x = true)
    (hR : ∀ x ∈ xs, ∀ pre post, R x pre post → ∀ y ∈ pre ++ post, p y = false)
    (h : Woven R xs ys) : ys.filter p = xs := by
  induction h with
  | nil => rfl
  | @cons x pre post xs ys hx _ ih =>
    have hins := hR x List.mem_cons_self pre post hx
    have hpre : pre.filter p = [] := by
      simpa using fun y hy => hins y (List.mem_append_left _ hy)
    have hpost : post.filter p = [] := by
      simpa using fun y hy => hins y (List.mem_append_right _ hy)
    have hrest := ih (fun y hy => hp y (List.mem_cons_of_mem _ hy))
      fun y hy => hR y (List.mem_cons_of_mem _ hy)
    rw [List.filter_append, List.filter_cons_of_pos (hp x List.mem_cons_self), List.filter_append,
      hpre, hpost, hrest]
    rfl

/-- Counting in a woven list: when each group has one element that satisfies `p` if its own element
satisfies `q`, and else none, the woven list has as many as the original has elements that satisfy
`q`. -/
theorem Woven.countP_eq {p q : α → Bool}
    (hpq : ∀ x ∈ xs, ∀ pre post, R x pre post →
      pre.countP p + (if p x then 1 else 0) + post.countP p = if q x then 1 else 0)
    (h : Woven R xs ys) : ys.countP p = xs.countP q := by
  induction h with
  | nil => rfl
  | @cons x pre post xs ys hx _ ih =>
    have hg := hpq x List.mem_cons_self pre post hx
    have hrest := ih fun y hy => hpq y (List.mem_cons_of_mem _ hy)
    calc (pre ++ x :: (post ++ ys)).countP p
        = (pre.countP p + (if p x then 1 else 0) + post.countP p) + ys.countP p := by
          rw [List.countP_append, List.countP_cons, List.countP_append]
          omega
      _ = (if q x then 1 else 0) + xs.countP q := by rw [hg, hrest]
      _ = (x :: xs).countP q := by rw [List.countP_cons, Nat.add_comm]

/-- What holds of the lists of a sequence holds, changed, of those that are made from them. -/
theorem forall_of_forall₂ {S : α → β → Prop} {p : α → Prop} {q : β → Prop} {as : List α}
    {bs : List β} (h : List.Forall₂ S as bs) (hS : ∀ a b, S a b → p a → q b) (hp : ∀ a ∈ as, p a) :
    ∀ b ∈ bs, q b := by
  induction h with
  | nil => simp
  | cons hab _ ih =>
    obtain ⟨hpa, hpas⟩ := List.forall_mem_cons.mp hp
    exact List.forall_mem_cons.mpr ⟨hS _ _ hab hpa, ih hpas⟩

/-! ## The insertions in front of each element -/

/-- The runs of new elements directly in front of each old one. `lead` is what was passed since the
last old one. -/
def runs (new : α → Bool) (lead : List α) : List α → List (List α)
  | [] => []
  | y :: ys => if new y then runs new (lead ++ [y]) ys else lead :: runs new [] ys

variable {new : α → Bool}

/-- New elements are added to the run that they stand in. -/
theorem runs_append (lead : List α) {pre : List α} (h : ∀ y ∈ pre, new y = true) (ys : List α) :
    runs new lead (pre ++ ys) = runs new (lead ++ pre) ys := by
  induction pre generalizing lead with
  | nil => simp
  | cons y pre ih =>
    obtain ⟨hy, hpre⟩ := List.forall_mem_cons.mp h
    rw [List.cons_append, runs, if_pos hy, ih _ hpre, List.append_assoc, List.singleton_append]

/-- An old element ends the run in front of it. -/
theorem runs_cons_of_old (lead : List α) {x : α} (h : new x = false) (ys : List α) :
    runs new lead (x :: ys) = lead :: runs new [] ys := by
  simp [runs, h]

/-- There are no runs between old elements. -/
theorem runs_of_old {us : List α} (h : ∀ u ∈ us, new u = false) :
    runs new [] us = us.map fun _ => [] := by
  induction us with
  | nil => rfl
  | cons u us ih =>
    obtain ⟨hu, hus⟩ := List.forall_mem_cons.mp h
    rw [runs_cons_of_old _ hu, ih hus, List.map_cons]

/-- The runs in a woven list. That in front of an element ends with what was put before the element,
and starts with what was put behind the one before it. `last` is what was put behind the last
one. -/
theorem Woven.runs_append (hold : ∀ x ∈ xs, new x = false)
    (hnew : ∀ x pre post, R x pre post → ∀ y ∈ pre ++ post, new y = true) (h : Woven R xs ys)
    (lead us : List α) :
    ∃ rs last, runs new lead (ys ++ us) = rs ++ runs new last us ∧
      List.Forall₂ (fun x run => ∃ l pre post, run = l ++ pre ∧ R x pre post ∧
        (l = lead ∨ ∃ x' pre', R x' pre' l)) xs rs ∧
      (xs = [] ∧ last = lead ∨ ∃ x pre, xs.getLast? = some x ∧ R x pre last) := by
  induction h generalizing lead with
  | nil => exact ⟨[], lead, rfl, .nil, .inl ⟨rfl, rfl⟩⟩
  | @cons x pre post xs ys hx hrest ih =>
    obtain ⟨hxold, hxsold⟩ := List.forall_mem_cons.mp hold
    have hpre : ∀ y ∈ pre, new y = true := fun y hy =>
      hnew x pre post hx y (List.mem_append_left _ hy)
    have hpost : ∀ y ∈ post, new y = true := fun y hy =>
      hnew x pre post hx y (List.mem_append_right _ hy)
    obtain ⟨rs, last, hruns, hall, hlast⟩ := ih hxsold post
    refine ⟨(lead ++ pre) :: rs, last, ?_, .cons ⟨lead, pre, post, rfl, hx, .inl rfl⟩ ?_, .inr ?_⟩
    · rw [List.append_assoc, Weave.runs_append _ hpre, List.cons_append, runs_cons_of_old _ hxold,
        List.append_assoc, Weave.runs_append _ hpost, List.nil_append, hruns, List.cons_append]
    · -- What stands behind `x` leads the run of the next element.
      refine hall.imp fun x' run hrun => ?_
      obtain ⟨l, pre', post', hl, hx', hlead⟩ := hrun
      refine ⟨l, pre', post', hl, hx', .inr ?_⟩
      rcases hlead with rfl | hlead
      · exact ⟨x, pre, hx⟩
      · exact hlead
    · rcases hlast with ⟨rfl, rfl⟩ | ⟨x', pre', hget, hx'⟩
      · exact ⟨x, pre, rfl, hx⟩
      · exact ⟨x', pre', by rw [List.getLast?_cons, hget]; rfl, hx'⟩

end Weave
