import Mathlib.Data.List.Basic
import Mathlib.Logic.Function.Basic

/-!
# Linked lists in a heap

A heap of linked nodes is read as the function `next` from addresses to the pointers that the nodes
there carry: `none` for an address without a node, and `some none` for a null pointer. `Chain` says
that the nodes from a pointer on end with null, and `Reaches` that an address is among them.
`Lists next root` says that from each of the pointers `root p` hangs such a list, and that no two of
them share a node. The rules are what can be done to the lists: a change elsewhere in the heap
(`Lists.congr`), a node pushed to the front of a list (`Lists.push`), a list handed to an empty
root (`Lists.move`), and the first node taken off (`Lists.pop`).
-/

namespace LinkedList

variable {A P : Type*}

/-- The nodes from a pointer on, up to null. -/
inductive Chain (next : A → Option (Option A)) : Option A → List A → Prop
  /-- No node is behind null. -/
  | nil : Chain next none []
  /-- A node and what is behind its pointer. -/
  | cons {a : A} {p : Option A} {as : List A} :
      next a = some p → Chain next p as → Chain next (some a) (a :: as)

/-- An address is met when one follows a pointer. -/
inductive Reaches (next : A → Option (Option A)) : Option A → A → Prop
  /-- It is the first one. -/
  | here (a : A) : Reaches next (some a) a
  /-- It is met behind the first one. -/
  | there {a b : A} {p : Option A} : next a = some p → Reaches next p b → Reaches next (some a) b

variable {next next' : A → Option (Option A)} {p : Option A} {a b : A} {as bs : List A}

/-! ## One list -/

/-- Nothing is met from null. -/
theorem not_reaches_none : ¬ Reaches next none b := by
  rintro ⟨⟩

/-- What is met from a node. -/
theorem reaches_some_iff (h : next a = some p) :
    Reaches next (some a) b ↔ b = a ∨ Reaches next p b := by
  constructor
  · intro hb
    cases hb with
    | here => exact .inl rfl
    | there hnext hrest =>
      rw [h] at hnext
      obtain rfl := Option.some.inj hnext
      exact .inr hrest
  · rintro (rfl | hb)
    · exact .here b
    · exact .there h hb

/-- The nodes of a chain are what is met. -/
theorem Chain.reaches_iff (h : Chain next p as) : Reaches next p b ↔ b ∈ as := by
  induction h with
  | nil => simp [not_reaches_none]
  | cons hnext _ ih => rw [reaches_some_iff hnext, ih, List.mem_cons]

/-- A pointer starts one chain. -/
theorem Chain.unique (h : Chain next p as) (h' : Chain next p bs) : as = bs := by
  induction h generalizing bs with
  | nil =>
    cases h'
    rfl
  | cons hnext _ ih =>
    cases h' with
    | cons hnext' hrest' =>
      rw [hnext] at hnext'
      obtain rfl := Option.some.inj hnext'
      rw [ih hrest']

/-- The chain from a node of a chain is no longer than the chain. -/
theorem Chain.of_mem (h : Chain next p as) (ha : a ∈ as) :
    ∃ bs, Chain next (some a) bs ∧ bs.length ≤ as.length := by
  induction h with
  | nil => cases ha
  | @cons b q bs hnext hrest ih =>
    rcases List.mem_cons.mp ha with rfl | ha
    · exact ⟨_, .cons hnext hrest, Nat.le_refl _⟩
    · obtain ⟨cs, hcs, hlen⟩ := ih ha
      exact ⟨cs, hcs, Nat.le_succ_of_le hlen⟩

/-- A chain does not come back to its first node. -/
theorem Chain.not_reaches (h : Chain next (some a) as) (hnext : next a = some p) :
    ¬ Reaches next p a := by
  intro ha
  cases h with
  | @cons _ q bs hnext' hrest =>
    obtain rfl : q = p := Option.some.inj (hnext'.symm.trans hnext)
    obtain ⟨cs, hcs, hlen⟩ := hrest.of_mem (hrest.reaches_iff.mp ha)
    rw [hcs.unique (.cons hnext' hrest), List.length_cons] at hlen
    omega

/-- A chain has no node twice. -/
theorem Chain.nodup (h : Chain next p as) : as.Nodup := by
  induction h with
  | nil => exact List.nodup_nil
  | @cons a q as hnext hrest ih =>
    refine List.nodup_cons.mpr ⟨fun ha => ?_, ih⟩
    exact (Chain.cons hnext hrest).not_reaches hnext (hrest.reaches_iff.mpr ha)

/-- There are nodes at all addresses of a chain. -/
theorem Chain.exists_next (h : Chain next p as) (ha : Reaches next p a) :
    ∃ q, next a = some q := by
  induction h with
  | nil => exact absurd ha not_reaches_none
  | cons hnext _ ih =>
    rcases (reaches_some_iff hnext).mp ha with rfl | ha
    · exact ⟨_, hnext⟩
    · exact ih ha

/-- A chain stays when the heap changes elsewhere. -/
theorem Chain.congr (h : Chain next p as) (hnext : ∀ a, Reaches next p a → next' a = next a) :
    Chain next' p as := by
  induction h with
  | nil => exact .nil
  | @cons a q as ha hrest ih =>
    refine .cons ((hnext a (.here a)).trans ha) (ih fun b hb => ?_)
    exact hnext b (.there ha hb)

/-! ## Disjoint lists -/

/-- From each root hangs a list, and they share no node. -/
structure Lists (next : A → Option (Option A)) (root : P → Option A) : Prop where
  /-- The nodes from a root on end with null. -/
  chain : ∀ p, ∃ as, Chain next (root p) as
  /-- A node hangs from one root. -/
  apart : ∀ p q a, Reaches next (root p) a → Reaches next (root q) a → p = q

variable {root root' : P → Option A} {r s : P}

/-- There are no nodes on lists that are all empty. -/
theorem lists_none (h : ∀ r, root r = none) : Lists next root where
  chain := fun r => ⟨[], by rw [h r]; exact .nil⟩
  apart := fun r s a ha => by
    rw [h r] at ha
    exact absurd ha not_reaches_none

/-- There are nodes at all addresses of the lists. -/
theorem Lists.exists_next (h : Lists next root) (ha : Reaches next (root r) a) :
    ∃ q, next a = some q := by
  obtain ⟨as, has⟩ := h.chain r
  exact has.exists_next ha

/-- The lists stay when the heap changes elsewhere. -/
theorem Lists.congr (h : Lists next root) (hroot : ∀ r, root' r = root r)
    (hnext : ∀ r a, Reaches next (root r) a → next' a = next a) :
    Lists next' root' ∧ ∀ r a, Reaches next' (root' r) a ↔ Reaches next (root r) a := by
  obtain rfl : root' = root := funext hroot
  have hchain : ∀ r, ∃ as, Chain next (root' r) as ∧ Chain next' (root' r) as := fun r => by
    obtain ⟨as, has⟩ := h.chain r
    exact ⟨as, has, has.congr (hnext r)⟩
  have hiff : ∀ r a, Reaches next' (root' r) a ↔ Reaches next (root' r) a := fun r a => by
    obtain ⟨as, has, has'⟩ := hchain r
    rw [has.reaches_iff, has'.reaches_iff]
  refine ⟨⟨fun r => (hchain r).imp fun _ => And.right, fun r s a hr hs => ?_⟩, hiff⟩
  exact h.apart r s a ((hiff r a).mp hr) ((hiff s a).mp hs)

/-- A node that is on no list and points to the first one of a list is put in front of it. -/
theorem Lists.push (h : Lists next root) (hnew : ∀ r, ¬ Reaches next (root r) a)
    (hnext : next a = some (root r)) (hr : root' r = some a)
    (hother : ∀ s, s ≠ r → root' s = root s) :
    Lists next root' ∧
      ∀ b, (∃ s, Reaches next (root' s) b) ↔ b = a ∨ ∃ s, Reaches next (root s) b := by
  -- A node that is met now was met from the same root or is the new one.
  have hiff : ∀ s b, Reaches next (root' s) b ↔ s = r ∧ b = a ∨ Reaches next (root s) b := by
    intro s b
    by_cases hs : s = r
    · subst hs
      simp [hr, reaches_some_iff hnext]
    · simp [hother s hs, hs]
  refine ⟨⟨fun s => ?_, fun s t b hs ht => ?_⟩, fun b => ?_⟩
  · by_cases hs : s = r
    · subst hs
      obtain ⟨as, has⟩ := h.chain s
      exact ⟨a :: as, by rw [hr]; exact .cons hnext has⟩
    · rw [hother s hs]
      exact h.chain s
  · rcases (hiff s b).mp hs with ⟨rfl, rfl⟩ | hs
    · rcases (hiff t b).mp ht with ⟨rfl, -⟩ | ht
      · rfl
      · exact absurd ht (hnew t)
    · rcases (hiff t b).mp ht with ⟨-, rfl⟩ | ht
      · exact absurd hs (hnew s)
      · exact h.apart s t b hs ht
  · simp only [hiff, exists_or, exists_eq_left]

/-- A list is handed to a root that has none. -/
theorem Lists.move (h : Lists next root) (hs : root s = none) (hr' : root' r = none)
    (hs' : root' s = root r) (hother : ∀ t, t ≠ r → t ≠ s → root' t = root t) :
    Lists next root' ∧ ∀ b, (∃ t, Reaches next (root' t) b) ↔ ∃ t, Reaches next (root t) b := by
  -- What is met now was met from the same root, or from `r` and now from `s`.
  have hold : ∀ t b, Reaches next (root' t) b →
      t = s ∧ Reaches next (root r) b ∨ t ≠ r ∧ t ≠ s ∧ Reaches next (root t) b := by
    intro t b hb
    by_cases ht : t = s
    · subst ht
      rw [hs'] at hb
      exact .inl ⟨rfl, hb⟩
    · by_cases ht' : t = r
      · subst ht'
        rw [hr'] at hb
        exact absurd hb not_reaches_none
      · rw [hother t ht' ht] at hb
        exact .inr ⟨ht', ht, hb⟩
  refine ⟨⟨fun t => ?_, fun t u b ht hu => ?_⟩, fun b => ⟨?_, ?_⟩⟩
  · by_cases ht : t = s
    · subst ht
      rw [hs']
      exact h.chain r
    · by_cases ht' : t = r
      · subst ht'
        exact ⟨[], by rw [hr']; exact .nil⟩
      · rw [hother t ht' ht]
        exact h.chain t
  · rcases hold t b ht with ⟨rfl, ht⟩ | ⟨htr, -, ht⟩
    · rcases hold u b hu with ⟨rfl, -⟩ | ⟨hur, -, hu⟩
      · rfl
      · exact absurd (h.apart r u b ht hu).symm hur
    · rcases hold u b hu with ⟨rfl, hu⟩ | ⟨-, -, hu⟩
      · exact absurd (h.apart t r b ht hu) htr
      · exact h.apart t u b ht hu
  · rintro ⟨t, ht⟩
    rcases hold t b ht with ⟨-, ht⟩ | ⟨-, -, ht⟩
    · exact ⟨r, ht⟩
    · exact ⟨t, ht⟩
  · rintro ⟨t, ht⟩
    have hts : t ≠ s := by
      rintro rfl
      rw [hs] at ht
      exact not_reaches_none ht
    by_cases htr : t = r
    · subst htr
      exact ⟨s, by rwa [hs']⟩
    · exact ⟨t, by rwa [hother t htr hts]⟩

/-- The first node is taken off a list. -/
theorem Lists.pop (h : Lists next root) (hr : root r = some a) (hnext : next a = some p)
    (hr' : root' r = p) (hother : ∀ s, s ≠ r → root' s = root s) :
    Lists next root' ∧ (∀ s, ¬ Reaches next (root' s) a) ∧
      ∀ b, (∃ s, Reaches next (root s) b) ↔ b = a ∨ ∃ s, Reaches next (root' s) b := by
  obtain ⟨as, has⟩ := h.chain r
  rw [hr] at has
  have hiff : ∀ s b, Reaches next (root s) b ↔ s = r ∧ b = a ∨ Reaches next (root' s) b := by
    intro s b
    by_cases hs : s = r
    · subst hs
      simp [hr, hr', reaches_some_iff hnext]
    · simp [hother s hs, hs]
  have hold : ∀ s b, Reaches next (root' s) b → Reaches next (root s) b := fun s b hb =>
    (hiff s b).mpr (.inr hb)
  refine ⟨⟨fun s => ?_, fun s t b hs ht => h.apart s t b (hold s b hs) (hold t b ht)⟩,
    fun s hs => ?_, fun b => by simp only [hiff, exists_or, exists_eq_left]⟩
  · by_cases hs : s = r
    · subst hs
      rw [hr']
      cases has with
      | @cons _ q bs hnext' hrest =>
        obtain rfl : q = p := Option.some.inj (hnext'.symm.trans hnext)
        exact ⟨bs, hrest⟩
    · rw [hother s hs]
      exact h.chain s
  · -- The list does not come back to its first node, and that is on no other list.
    obtain rfl : s = r := h.apart s r a (hold s a hs) ((hiff r a).mpr (.inl ⟨rfl, rfl⟩))
    rw [hr'] at hs
    exact has.not_reaches hnext hs

end LinkedList
