import AtomicityViolation.Library.Weave

/-!
# Walking a list while inserting into it

A loop that iterates over a linked list and inserts before and behind the element its cursor stands
on. What is put before the cursor is never visited, what is put behind it is the next thing the
cursor comes to, and a visit may leave the loop. `walk` is that loop, on the elements behind the
cursor and those from it on; it takes fuel, since a visit that always puts something behind the
cursor never ends. `walkAll` is the loop around it, over the lists of a sequence.

The loop is compared with `sweep`, which recurses over the original list only. They agree when what
a visit puts behind the cursor is quiet, that is, visited without effect (`Settles`,
`ends_iff_sweepAll`). What a sweep makes of a list is then read off the visits: it weaves
insertions around the elements that it reaches and leaves the others alone (`sweepAll_woven`), and
it succeeds exactly when the visit of every element it reaches does (`sweepAll_ok_iff`).
-/

namespace Cursor

open Weave (Woven)

variable {α σ ε : Type*}

/-- What the visit of an element does: the runs it puts before and behind the element, the state it
leaves, and whether it leaves the loop. -/
structure Visit (α σ : Type*) where
  /-- Inserted before the element, in order. -/
  before : List α
  /-- Inserted behind the element, in order. -/
  after : List α
  /-- The state after the visit. -/
  state : σ
  /-- The visit ends the loop over this list. -/
  leave : Bool

/-- A visit without effect. -/
def Visit.skip (s : σ) : Visit α σ := ⟨[], [], s, false⟩

variable (visit : σ → α → Option α → Except ε (Visit α σ))

/-- The loop over one list: `done` stands before the cursor and the last argument from it on. A
visit is given the state, the element, and the element behind it. `none` is a loop that is out of
fuel. -/
def walk : ℕ → σ → List α → List α → Except ε (Option (σ × List α))
  | 0, _, _, _ => .ok none
  | _ + 1, s, done, [] => .ok (some (s, done))
  | n + 1, s, done, x :: rest =>
    match visit s x rest.head? with
    | .error e => .error e
    | .ok v =>
      if v.leave then .ok (some (v.state, done ++ v.before ++ x :: (v.after ++ rest)))
      else walk n v.state (done ++ v.before ++ [x]) (v.after ++ rest)

/-- The loop over the lists of a sequence, each with the fuel `n`. -/
def walkAll (n : ℕ) : σ → List (List α) → Except ε (Option (σ × List (List α)))
  | s, [] => .ok (some (s, []))
  | s, b :: bs =>
    match walk visit n s [] b with
    | .error e => .error e
    | .ok none => .ok none
    | .ok (some (s', b')) =>
      match walkAll n s' bs with
      | .error e => .error e
      | .ok none => .ok none
      | .ok (some (s'', bs')) => .ok (some (s'', b' :: bs'))

/-- The loops end with the result `r`: they do with enough fuel. -/
def Ends (s : σ) (bs : List (List α)) (r : σ × List (List α)) : Prop :=
  ∃ n, ∀ m, n ≤ m → walkAll visit m s bs = .ok (some r)

/-- The single pass over one list, which visits its own elements only. -/
def sweep : σ → List α → Except ε (σ × List α)
  | s, [] => .ok (s, [])
  | s, x :: xs =>
    match visit s x xs.head? with
    | .error e => .error e
    | .ok v =>
      if v.leave then .ok (v.state, v.before ++ x :: (v.after ++ xs))
      else
        match sweep v.state xs with
        | .error e => .error e
        | .ok (s', ys) => .ok (s', v.before ++ x :: (v.after ++ ys))

/-- The single pass over the lists of a sequence. -/
def sweepAll : σ → List (List α) → Except ε (σ × List (List α))
  | s, [] => .ok (s, [])
  | s, b :: bs =>
    match sweep visit s b with
    | .error e => .error e
    | .ok (s', b') =>
      match sweepAll s' bs with
      | .error e => .error e
      | .ok (s'', bs') => .ok (s'', b' :: bs')

/-! ## The loop is the single pass -/

/-- What a visit puts behind the cursor is quiet, and a quiet element is visited without effect. -/
structure Settles (quiet : α → Prop) : Prop where
  /-- A quiet element is visited without effect. -/
  skip : ∀ s x nxt, quiet x → visit s x nxt = .ok (.skip s)
  /-- What is put behind the cursor is quiet. -/
  after : ∀ s x nxt v, visit s x nxt = .ok v → ∀ y ∈ v.after, quiet y

variable {visit} {quiet : α → Prop}

/-- The loop passes over quiet elements. -/
theorem Settles.walk_append (h : Settles visit quiet) {qs : List α} (hq : ∀ y ∈ qs, quiet y)
    (n : ℕ) (s : σ) (done rest : List α) :
    walk visit (n + qs.length) s done (qs ++ rest) = walk visit n s (done ++ qs) rest := by
  induction qs generalizing done with
  | nil => simp
  | cons q qs ih =>
    rw [List.length_cons, ← Nat.add_assoc, List.cons_append, walk,
      h.skip _ _ _ (hq q List.mem_cons_self)]
    simp only [Visit.skip, Bool.false_eq_true, if_false, List.append_nil, List.nil_append]
    rw [ih fun y hy => hq y (List.mem_cons_of_mem _ hy)]
    simp

/-- With enough fuel, the loop over one list ends as the single pass does. -/
theorem Settles.walk_eq_sweep (h : Settles visit quiet) (s : σ) (xs : List α) :
    ∃ n, ∀ m, n ≤ m → ∀ done, walk visit m s done xs =
      (sweep visit s xs).map fun r => some (r.1, done ++ r.2) := by
  induction xs generalizing s with
  | nil =>
    refine ⟨1, fun m hm done => ?_⟩
    obtain ⟨m, rfl⟩ : ∃ k, m = k + 1 := ⟨m - 1, by omega⟩
    simp [walk, sweep, Except.map]
  | cons x xs ih =>
    cases hv : visit s x xs.head? with
    | error e =>
      refine ⟨1, fun m hm done => ?_⟩
      obtain ⟨m, rfl⟩ : ∃ k, m = k + 1 := ⟨m - 1, by omega⟩
      simp [walk, sweep, hv, Except.map]
    | ok v =>
      obtain ⟨n, hn⟩ := ih v.state
      -- One step for `x`, one for each element put behind it, and the fuel of the rest.
      refine ⟨n + v.after.length + 1, fun m hm done => ?_⟩
      obtain ⟨m, rfl⟩ : ∃ k, m = k + v.after.length + 1 := ⟨m - v.after.length - 1, by omega⟩
      rw [walk, sweep, hv]
      by_cases hl : v.leave
      · simp [hl, Except.map]
      · simp only [hl, Bool.false_eq_true, if_false]
        rw [h.walk_append (h.after _ _ _ _ hv), hn m (by omega)]
        cases sweep visit v.state xs with
        | error e => rfl
        | ok r => simp [Except.map]

/-- With enough fuel, the two loops end as the single passes do. -/
theorem Settles.walkAll_eq_sweepAll (h : Settles visit quiet) (s : σ) (bs : List (List α)) :
    ∃ n, ∀ m, n ≤ m → walkAll visit m s bs = (sweepAll visit s bs).map some := by
  induction bs generalizing s with
  | nil => exact ⟨0, fun m _ => rfl⟩
  | cons b bs ih =>
    obtain ⟨n₁, h₁⟩ := h.walk_eq_sweep s b
    cases hs : sweep visit s b with
    | error e =>
      refine ⟨n₁, fun m hm => ?_⟩
      simp [walkAll, sweepAll, h₁ m hm, hs, Except.map]
    | ok r =>
      obtain ⟨n₂, h₂⟩ := ih r.1
      -- Both the first list and the rest end with the larger fuel.
      refine ⟨max n₁ n₂, fun m hm => ?_⟩
      rw [walkAll, sweepAll, h₁ m (by omega), hs]
      simp only [Except.map, List.nil_append]
      rw [h₂ m (by omega)]
      cases sweepAll visit r.1 bs <;> rfl

/-- The loops end with a result exactly when the single passes have it. -/
theorem Settles.ends_iff_sweepAll (h : Settles visit quiet) {s : σ} {bs : List (List α)}
    {r : σ × List (List α)} : Ends visit s bs r ↔ sweepAll visit s bs = .ok r := by
  obtain ⟨n, hn⟩ := h.walkAll_eq_sweepAll s bs
  constructor
  · rintro ⟨k, hk⟩
    -- With the larger fuel the run shows both its result and that of the single pass.
    have := hk (max n k) (by omega)
    rw [hn _ (by omega)] at this
    cases hs : sweepAll visit s bs with
    | error e => simp [hs, Except.map] at this
    | ok r' =>
      simp only [hs, Except.map, Except.ok.injEq, Option.some.injEq] at this
      rw [this]
  · intro hr
    exact ⟨n, fun m hm => by rw [hn m hm, hr]; rfl⟩

/-! ## What a single pass makes of a list -/

/-- The elements a loop reaches that leaves at the first one that satisfies `stop`. -/
def reached (stop : α → Bool) : List α → List α
  | [] => []
  | x :: xs => if stop x then [x] else x :: reached stop xs

/-- The elements behind the first one that satisfies `stop`. -/
def unreached (stop : α → Bool) : List α → List α
  | [] => []
  | x :: xs => if stop x then xs else unreached stop xs

/-- The elements reached and those behind them are the list. -/
theorem reached_append_unreached (stop : α → Bool) (xs : List α) :
    reached stop xs ++ unreached stop xs = xs := by
  induction xs with
  | nil => rfl
  | cons x xs ih =>
    rw [reached, unreached]
    split_ifs
    · rfl
    · rw [List.cons_append, ih]

/-- A loop that never leaves reaches everything. -/
theorem reached_eq_self {stop : α → Bool} {xs : List α} (h : ∀ x ∈ xs, stop x = false) :
    reached stop xs = xs := by
  induction xs with
  | nil => rfl
  | cons x xs ih =>
    rw [reached, h x List.mem_cons_self, ih fun y hy => h y (List.mem_cons_of_mem _ hy)]
    rfl

/-- Nothing is behind the last element when no element satisfies `stop`. -/
theorem unreached_eq_nil {stop : α → Bool} {xs : List α} (h : ∀ x ∈ xs, stop x = false) :
    unreached stop xs = [] := by
  have := reached_append_unreached stop xs
  rw [reached_eq_self h] at this
  exact List.append_right_eq_self.mp this

/-- An element that is reached is an element of the list. -/
theorem mem_of_mem_reached {stop : α → Bool} {xs : List α} {x : α} (h : x ∈ reached stop xs) :
    x ∈ xs := by
  rw [← reached_append_unreached stop xs]
  exact List.mem_append_left _ h

/-- An element is reached where it stands exactly when the loop does not leave before it. -/
theorem getElem?_reached_iff {stop : α → Bool} {xs : List α} {k : ℕ} {x : α} (h : xs[k]? = some x) :
    (reached stop xs)[k]? = some x ↔ ∀ y ∈ xs.take k, stop y = false := by
  induction xs generalizing k with
  | nil => simp at h
  | cons y ys ih =>
    rw [reached]
    cases k with
    | zero =>
      have hy : y = x := by simpa using h
      subst hy
      split_ifs <;> simp
    | succ k =>
      have hk : ys[k]? = some x := by simpa using h
      by_cases hy : stop y = true
      · simp [hy]
      · simp [hy, ih hk]

/-- The loop leaves at the last element that it reaches, unless it reaches all. -/
theorem stop_of_getLast?_reached {stop : α → Bool} {xs : List α} {x : α}
    (h : (reached stop xs).getLast? = some x) : stop x = true ∨ unreached stop xs = [] := by
  induction xs with
  | nil => exact .inr rfl
  | cons y ys ih =>
    rw [reached] at h
    rw [unreached]
    by_cases hy : stop y = true
    · simp only [hy, if_true, List.getLast?_singleton, Option.some.injEq] at h
      exact .inl (h ▸ hy)
    · simp only [hy, Bool.false_eq_true, if_false] at h ⊢
      cases hys : reached stop ys with
      | nil =>
        -- A loop reaches the first element of any list.
        cases ys with
        | nil => exact .inr rfl
        | cons z zs =>
          rw [reached] at hys
          split_ifs at hys
      | cons z zs =>
        rw [hys] at h
        exact ih (by rw [hys]; simpa using h)

section Spec

variable {Inv : σ → Prop} {stop : α → Bool} {R : α → List α → List α → Prop} {sound : α → Prop}

/-- What the visits of a loop do: they keep the invariant of the state, leave at the elements that
satisfy `stop`, and put around an element `x` two runs `pre` and `post` with `R x pre post`. -/
def Visits (visit : σ → α → Option α → Except ε (Visit α σ)) (Inv : σ → Prop) (stop : α → Bool)
    (R : α → List α → List α → Prop) : Prop :=
  ∀ s x nxt v, Inv s → visit s x nxt = .ok v →
    Inv v.state ∧ v.leave = stop x ∧ R x v.before v.after

/-- The result of a pass over one list: insertions around what it reaches, and the rest as it
was. -/
def SweptTo (stop : α → Bool) (R : α → List α → List α → Prop) (xs ys : List α) : Prop :=
  ∃ zs, ys = zs ++ unreached stop xs ∧ Woven R (reached stop xs) zs

/-- Nothing is swept in an empty list. -/
theorem SweptTo.nil_inv {stop : α → Bool} {R : α → List α → List α → Prop} {ys : List α}
    (h : SweptTo stop R [] ys) : ys = [] := by
  obtain ⟨zs, rfl, hwoven⟩ := h
  cases hwoven
  rfl

/-- The first element is always reached. What is behind it is swept, too, unless the loop leaves
there. -/
theorem SweptTo.cons_inv {stop : α → Bool} {R : α → List α → List α → Prop} {x : α}
    {xs ys : List α} (h : SweptTo stop R (x :: xs) ys) :
    ∃ pre post zs, ys = pre ++ x :: (post ++ zs) ∧ R x pre post ∧
      (stop x = true ∧ zs = xs ∨ stop x = false ∧ SweptTo stop R xs zs) := by
  obtain ⟨ws, rfl, hwoven⟩ := h
  rw [reached] at hwoven
  rw [unreached]
  cases hstop : stop x with
  | true =>
    rw [hstop, if_pos rfl] at hwoven
    cases hwoven with
    | @cons _ pre post _ us hx hrest =>
      cases hrest
      exact ⟨pre, post, xs, by simp, hx, .inl ⟨rfl, rfl⟩⟩
  | false =>
    rw [hstop, if_neg Bool.false_ne_true] at hwoven
    cases hwoven with
    | @cons _ pre post _ us hx hrest =>
      exact ⟨pre, post, us ++ unreached stop xs, by simp, hx, .inr ⟨rfl, us, rfl, hrest⟩⟩

/-- A pass over one list weaves insertions around what it reaches. -/
theorem sweep_woven (hv : Visits visit Inv stop R) {s s' : σ} {xs ys : List α} (hs : Inv s)
    (h : sweep visit s xs = .ok (s', ys)) : Inv s' ∧ SweptTo stop R xs ys := by
  induction xs generalizing s s' ys with
  | nil =>
    cases h
    exact ⟨hs, [], rfl, .nil⟩
  | cons x xs ih =>
    rw [sweep] at h
    cases hx : visit s x xs.head? with
    | error e => simp [hx] at h
    | ok v =>
      obtain ⟨hinv, hleave, hR⟩ := hv _ _ _ _ hs hx
      simp only [hx] at h
      by_cases hl : v.leave
      · -- The loop leaves here: what it wove ends with `x`, and the rest is as it was.
        simp only [hl, if_true, Except.ok.injEq, Prod.mk.injEq] at h
        obtain ⟨rfl, rfl⟩ := h
        have hst : stop x = true := by rw [← hleave, hl]
        refine ⟨hinv, v.before ++ x :: (v.after ++ []), ?_, ?_⟩
        · simp [unreached, hst]
        · rw [reached, if_pos hst]
          exact .cons hR .nil
      · simp only [hl, Bool.false_eq_true, if_false] at h
        have hst : stop x = false := by rw [← hleave]; simpa using hl
        -- It goes on, and the hypothesis weaves the rest.
        cases hrest : sweep visit v.state xs with
        | error e => simp [hrest] at h
        | ok r =>
          obtain ⟨s₁, ys₁⟩ := r
          simp only [hrest, Except.ok.injEq, Prod.mk.injEq] at h
          obtain ⟨rfl, rfl⟩ := h
          obtain ⟨hinv', zs, rfl, hw⟩ := ih hinv hrest
          refine ⟨hinv', v.before ++ x :: (v.after ++ zs), ?_, ?_⟩
          · simp [unreached, hst]
          · rw [reached, hst]
            exact .cons hR hw

/-- A pass over a sequence of lists weaves insertions around what it reaches in each. -/
theorem sweepAll_woven (hv : Visits visit Inv stop R) {s s' : σ} {bs bs' : List (List α)}
    (hs : Inv s) (h : sweepAll visit s bs = .ok (s', bs')) :
    Inv s' ∧ List.Forall₂ (SweptTo stop R) bs bs' := by
  induction bs generalizing s s' bs' with
  | nil =>
    cases h
    exact ⟨hs, .nil⟩
  | cons b bs ih =>
    rw [sweepAll] at h
    cases hb : sweep visit s b with
    | error e => simp [hb] at h
    | ok r =>
      obtain ⟨s₁, b₁⟩ := r
      simp only [hb] at h
      obtain ⟨hinv, hswept⟩ := sweep_woven hv hs hb
      cases hrest : sweepAll visit s₁ bs with
      | error e => simp [hrest] at h
      | ok r =>
        obtain ⟨s₂, bs₂⟩ := r
        simp only [hrest, Except.ok.injEq, Prod.mk.injEq] at h
        obtain ⟨rfl, rfl⟩ := h
        obtain ⟨hinv', hall⟩ := ih hinv hrest
        exact ⟨hinv', .cons hswept hall⟩

section Numbering

variable {visit : ℕ → α → Option α → Except ε (Visit α ℕ)} {key : α → ℕ}

/-- A visit numbers what it inserts upwards from `n`. -/
def Visit.Numbered (key : α → ℕ) (n : ℕ) (v : Visit α ℕ) : Prop :=
  (v.before ++ v.after).map key = List.range' n (v.state - n) ∧ n ≤ v.state

/-- Numbers from `n` to `k` and then to `m`. -/
theorem range'_sub_append {n k m : ℕ} (h : n ≤ k) (h' : k ≤ m) :
    List.range' n (k - n) ++ List.range' k (m - k) = List.range' n (m - n) := by
  obtain ⟨i, rfl⟩ := Nat.exists_eq_add_of_le h
  obtain ⟨j, rfl⟩ := Nat.exists_eq_add_of_le h'
  rw [Nat.add_sub_cancel_left, Nat.add_sub_cancel_left, Nat.add_assoc, Nat.add_sub_cancel_left,
    List.range'_append_1]

/-- A pass over one list numbers what it inserts upwards. -/
theorem sweep_numbered (hv : ∀ n x nxt v, visit n x nxt = .ok v → v.Numbered key n)
    {m n n' : ℕ} {xs ys : List α} (hmn : m ≤ n) (hxs : ∀ x ∈ xs, key x < m)
    (h : sweep visit n xs = .ok (n', ys)) :
    (ys.filter fun y => decide (m ≤ key y)).map key = List.range' n (n' - n) ∧ n ≤ n' := by
  induction xs generalizing n n' ys with
  | nil =>
    cases h
    simp
  | cons x xs ih =>
    obtain ⟨hx, hxs⟩ := List.forall_mem_cons.mp hxs
    rw [sweep] at h
    cases hvisit : visit n x xs.head? with
    | error e => simp [hvisit] at h
    | ok v =>
      obtain ⟨hnumbers, hle⟩ := hv _ _ _ _ hvisit
      -- The insertions are new, and the element is not.
      have hnew : ∀ y ∈ v.before ++ v.after, decide (m ≤ key y) = true := by
        intro y hy
        have hmem : key y ∈ List.range' n (v.state - n) := hnumbers ▸ List.mem_map_of_mem hy
        have hge := (List.mem_range'_1.mp hmem).1
        simpa using Nat.le_trans hmn hge
      have hfilter : ∀ zs : List α,
          ((v.before ++ x :: (v.after ++ zs)).filter fun y => decide (m ≤ key y)).map key =
            List.range' n (v.state - n) ++ (zs.filter fun y => decide (m ≤ key y)).map key := by
        intro zs
        have hbefore := List.filter_eq_self.mpr fun y hy => hnew y (List.mem_append_left _ hy)
        have hafter := List.filter_eq_self.mpr fun y hy => hnew y (List.mem_append_right _ hy)
        rw [List.filter_append, List.filter_cons_of_neg (by simpa using hx), List.filter_append,
          hbefore, hafter, ← hnumbers]
        simp
      simp only [hvisit] at h
      by_cases hleave : v.leave
      · simp only [hleave, if_true, Except.ok.injEq, Prod.mk.injEq] at h
        obtain ⟨rfl, rfl⟩ := h
        have hnone : xs.filter (fun y => decide (m ≤ key y)) = [] :=
          List.filter_eq_nil_iff.mpr fun y hy => by simpa using hxs y hy
        rw [hfilter, hnone, List.map_nil, List.append_nil]
        exact ⟨rfl, hle⟩
      · simp only [hleave, Bool.false_eq_true, if_false] at h
        cases hrest : sweep visit v.state xs with
        | error e => simp [hrest] at h
        | ok r =>
          obtain ⟨n₁, zs⟩ := r
          simp only [hrest, Except.ok.injEq, Prod.mk.injEq] at h
          obtain ⟨rfl, rfl⟩ := h
          obtain ⟨hzs, hle'⟩ := ih (Nat.le_trans hmn hle) hxs hrest
          rw [hfilter, hzs]
          exact ⟨range'_sub_append hle hle', Nat.le_trans hle hle'⟩

/-- A pass over a sequence of lists numbers what it inserts upwards. -/
theorem sweepAll_numbered (hv : ∀ n x nxt v, visit n x nxt = .ok v → v.Numbered key n)
    {m n n' : ℕ} {bs bs' : List (List α)} (hmn : m ≤ n) (hbs : ∀ b ∈ bs, ∀ x ∈ b, key x < m)
    (h : sweepAll visit n bs = .ok (n', bs')) :
    (bs'.flatten.filter fun y => decide (m ≤ key y)).map key = List.range' n (n' - n) ∧
      n ≤ n' := by
  induction bs generalizing n n' bs' with
  | nil =>
    cases h
    simp
  | cons b bs ih =>
    obtain ⟨hb, hbs⟩ := List.forall_mem_cons.mp hbs
    rw [sweepAll] at h
    cases hsweep : sweep visit n b with
    | error e => simp [hsweep] at h
    | ok r =>
      obtain ⟨n₁, b'⟩ := r
      simp only [hsweep] at h
      obtain ⟨hb', hle⟩ := sweep_numbered hv hmn hb hsweep
      cases hrest : sweepAll visit n₁ bs with
      | error e => simp [hrest] at h
      | ok r =>
        obtain ⟨n₂, bs₂⟩ := r
        simp only [hrest, Except.ok.injEq, Prod.mk.injEq] at h
        obtain ⟨rfl, rfl⟩ := h
        obtain ⟨hbs', hle'⟩ := ih (Nat.le_trans hmn hle) hbs hrest
        rw [List.flatten_cons, List.filter_append, List.map_append, hb', hbs']
        exact ⟨range'_sub_append hle hle', Nat.le_trans hle hle'⟩

end Numbering

/-- A pass over one list succeeds exactly when the visit of every element it reaches does. -/
theorem sweep_ok_iff (hv : Visits visit Inv stop R)
    (hok : ∀ s x nxt, (∃ v, visit s x nxt = .ok v) ↔ sound x) {s : σ} (hs : Inv s) (xs : List α) :
    (∃ r, sweep visit s xs = .ok r) ↔ ∀ x ∈ reached stop xs, sound x := by
  induction xs generalizing s with
  | nil => simp [sweep, reached]
  | cons x xs ih =>
    rw [sweep, reached]
    cases hx : visit s x xs.head? with
    | error e =>
      -- The visit of the first element fails, and a loop always reaches that one.
      have hbad : ¬ sound x := fun hsound => by
        obtain ⟨v, hv'⟩ := (hok s x xs.head?).mpr hsound
        rw [hx] at hv'
        cases hv'
      have hmem : x ∈ if stop x then [x] else x :: reached stop xs := by split_ifs <;> simp
      simp only [reduceCtorEq, exists_false, false_iff, not_forall]
      exact ⟨x, hmem, hbad⟩
    | ok v =>
      obtain ⟨hinv, hleave, -⟩ := hv _ _ _ _ hs hx
      have hgood : sound x := (hok s x xs.head?).mp ⟨v, hx⟩
      simp only [hleave]
      by_cases hst : stop x
      · simp [hst, hgood]
      · simp only [hst, Bool.false_eq_true, if_false, List.forall_mem_cons, hgood, true_and,
          ← ih hinv]
        cases sweep visit v.state xs <;> simp

/-- A pass over a sequence of lists succeeds exactly when the visit of every element it reaches
does. -/
theorem sweepAll_ok_iff (hv : Visits visit Inv stop R)
    (hok : ∀ s x nxt, (∃ v, visit s x nxt = .ok v) ↔ sound x) {s : σ} (hs : Inv s)
    (bs : List (List α)) :
    (∃ r, sweepAll visit s bs = .ok r) ↔ ∀ b ∈ bs, ∀ x ∈ reached stop b, sound x := by
  induction bs generalizing s with
  | nil => simp [sweepAll]
  | cons b bs ih =>
    rw [sweepAll, List.forall_mem_cons, ← sweep_ok_iff hv hok hs b]
    cases hb : sweep visit s b with
    | error e => simp
    | ok r =>
      obtain ⟨s₁, b₁⟩ := r
      -- The state behind the first list keeps the invariant, so the hypothesis applies to it.
      rw [← ih (sweep_woven hv hs hb).1]
      simp only [Except.ok.injEq, exists_eq', true_and]
      cases sweepAll visit s₁ bs <;> simp

end Spec

end Cursor
