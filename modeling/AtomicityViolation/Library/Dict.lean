import Mathlib.Data.List.Basic
import Mathlib.Data.List.Induction

/-!
# Grouping in a dictionary that keeps the order of insertion

A dictionary whose values are lists is filled by appending each element of a list under its key
(`group`). Its keys are then the keys of the elements, in the order in which each occurs first, and
its value under a key is the elements with that key, in their order (`group_eq`).
-/

namespace Dict

variable {K V : Type*} [DecidableEq K]

/-- Appends `v` to the list under `k`, which is put behind the others if it is new. -/
def add (k : K) (v : V) : List (K × List V) → List (K × List V)
  | [] => [(k, [v])]
  | (k', vs) :: d => if k' = k then (k', vs ++ [v]) :: d else (k', vs) :: add k v d

/-- The elements of a list under their keys. -/
def group (key : V → K) (xs : List V) : List (K × List V) :=
  xs.foldl (fun d x => add (key x) x d) []

/-- The elements of a list, in the order in which each occurs first. -/
def firsts (xs : List K) : List K := xs.eraseDups

/-! ## First occurrences -/

/-- The first occurrences in a list that grows at its end. -/
theorem eraseDups_concat (xs : List K) (x : K) :
    (xs ++ [x]).eraseDups = if x ∈ xs then xs.eraseDups else xs.eraseDups ++ [x] := by
  rw [List.eraseDups_append]
  split_ifs with h <;> simp [List.removeAll, h, List.eraseDups_cons]

/-- First occurrences are kept by an injective map. -/
theorem eraseDups_map {L : Type*} [DecidableEq L] {f : K → L} (hf : Function.Injective f)
    (xs : List K) : (xs.map f).eraseDups = xs.eraseDups.map f := by
  induction xs using List.reverseRecOn with
  | nil => rfl
  | append_singleton xs x ih =>
    -- The new key has occurred exactly when its image has.
    rw [List.map_append, List.map_singleton, eraseDups_concat, eraseDups_concat, ih]
    simp only [List.mem_map_of_injective hf]
    split_ifs <;> simp

/-- The first occurrences stand in the order in which they occur. -/
theorem pairwise_eraseDups (xs : List K) :
    xs.eraseDups.Pairwise fun a b => xs.idxOf a < xs.idxOf b := by
  induction xs using List.reverseRecOn with
  | nil => exact .nil
  | append_singleton xs x ih =>
    -- A key that has occurred is found at the same place in the longer list.
    have hkeep : ∀ a ∈ xs.eraseDups, (xs ++ [x]).idxOf a = xs.idxOf a := fun a ha =>
      List.idxOf_append_of_mem (List.mem_eraseDups.mp ha)
    have ih' : xs.eraseDups.Pairwise fun a b => (xs ++ [x]).idxOf a < (xs ++ [x]).idxOf b :=
      ih.imp_of_mem fun ha hb hlt => by rwa [hkeep _ ha, hkeep _ hb]
    rw [eraseDups_concat]
    split_ifs with hx
    · exact ih'
    · -- A new key is found at the end.
      refine List.pairwise_append.mpr ⟨ih', List.pairwise_singleton _ _, fun a ha b hb => ?_⟩
      obtain rfl := List.mem_singleton.mp hb
      have hlt := List.idxOf_lt_length_of_mem (List.mem_eraseDups.mp ha)
      rw [hkeep a ha, List.idxOf_append_of_notMem hx]
      omega

/-- No key occurs twice. -/
theorem nodup_eraseDups (xs : List K) : xs.eraseDups.Nodup :=
  (pairwise_eraseDups xs).imp fun h heq => by
    rw [heq] at h
    exact Nat.lt_irrefl _ h

/-- The elements are those of the list. -/
theorem mem_firsts {x : K} {xs : List K} : x ∈ firsts xs ↔ x ∈ xs := List.mem_eraseDups

/-- What occurs first in the front of a list stays in front. -/
theorem firsts_prefix (xs ys : List K) : firsts xs <+: firsts (xs ++ ys) := by
  rw [firsts, firsts, List.eraseDups_append]
  exact List.prefix_append _ _

/-! ## Grouping -/

/-- Appending under a key that is not there. -/
theorem add_of_notMem {k : K} {v : V} {d : List (K × List V)} (h : ∀ e ∈ d, e.1 ≠ k) :
    add k v d = d ++ [(k, [v])] := by
  induction d with
  | nil => rfl
  | cons e d ih =>
    obtain ⟨he, hd⟩ := List.forall_mem_cons.mp h
    rw [add, if_neg he, ih hd, List.cons_append]

/-- Appending under a key that is there. -/
theorem add_of_mem {k : K} {v : V} {ks : List K} {f g : K → List V} (hks : ks.Nodup) (h : k ∈ ks)
    (hk : g k = f k ++ [v]) (hg : ∀ k' ∈ ks, k' ≠ k → g k' = f k') :
    add k v (ks.map fun k' => (k', f k')) = ks.map fun k' => (k', g k') := by
  induction ks with
  | nil => cases h
  | cons k' ks ih =>
    obtain ⟨hnot, hnodup⟩ := List.nodup_cons.mp hks
    rw [List.map_cons, List.map_cons, add]
    by_cases he : k' = k
    · -- The key is here, and by `hks` not in the rest, which stays.
      subst he
      rw [if_pos rfl, hk]
      congr 1
      refine List.map_congr_left fun k'' hk'' => ?_
      rw [hg k'' (List.mem_cons_of_mem _ hk'') fun he => hnot (he ▸ hk'')]
    · have hmem : k ∈ ks := (List.mem_cons.mp h).resolve_left fun h' => he h'.symm
      rw [if_neg he, hg k' List.mem_cons_self he,
        ih hnodup hmem fun k'' hk'' => hg k'' (List.mem_cons_of_mem _ hk'')]

/-- Appending under a key that is there once. -/
theorem add_append_cons {k : K} {v : V} {vs : List V} {d d' : List (K × List V)}
    (h : ∀ e ∈ d, e.1 ≠ k) : add k v (d ++ (k, vs) :: d') = d ++ (k, vs ++ [v]) :: d' := by
  induction d with
  | nil => rw [List.nil_append, add, if_pos rfl, List.nil_append]
  | cons e d ih =>
    obtain ⟨he, hd⟩ := List.forall_mem_cons.mp h
    rw [List.cons_append, add, if_neg he, ih hd, List.cons_append]

/-- What grouping makes of a list. -/
theorem group_eq (key : V → K) (xs : List V) :
    group key xs =
      (xs.map key).eraseDups.map fun k => (k, xs.filter fun x => decide (key x = k)) := by
  induction xs using List.reverseRecOn with
  | nil => rfl
  | append_singleton xs x ih =>
    have hstep : group key (xs ++ [x]) = add (key x) x (group key xs) := by
      simp [group, List.foldl_append]
    rw [hstep, ih, List.map_append, List.map_singleton, eraseDups_concat]
    split_ifs with hx
    · -- The key has occurred: `x` is appended to its group, and no other group changes.
      refine add_of_mem (nodup_eraseDups _) (List.mem_eraseDups.mpr hx) ?_ fun k' _ hne => ?_
      · simp [List.filter_append]
      · simp [List.filter_append, hne.symm]
    · -- The key is new, and its group is `x` alone.
      have hnew : ∀ e ∈ (xs.map key).eraseDups.map fun k => (k, xs.filter fun y =>
          decide (key y = k)), e.1 ≠ key x := by
        intro e he
        obtain ⟨k', hk', rfl⟩ := List.mem_map.mp he
        exact fun hk => hx (hk ▸ List.mem_eraseDups.mp hk')
      rw [add_of_notMem hnew, List.map_append, List.map_singleton]
      congr 1
      · refine List.map_congr_left fun k' hk' => ?_
        have hne : key x ≠ k' := fun he => hx (he ▸ List.mem_eraseDups.mp hk')
        simp [List.filter_append, hne]
      · have hnone : xs.filter (fun y => decide (key y = key x)) = [] := by
          rw [List.filter_eq_nil_iff]
          intro y hy
          simpa using fun he => hx (List.mem_map.mpr ⟨y, hy, he⟩)
        rw [List.filter_append, hnone]
        simp

end Dict
