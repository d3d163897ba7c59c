import AtomicityViolation.Library.Run
import AtomicityViolation.Subjects.ConcBag

/-!
# Nodes of the bag are not lost

`head` can change between the load and the store of `collect`, and then nodes are lost or freed by
two threads (`collect_loses`). They are not in a run in which `head` still is what a `collect` has
loaded whenever it stores null (`conc_bag_keeps`). The invariant is that the lists behind `head` and
behind the pointers of the walking `collect`s have no node in common (`Sound.lists`), that they have
the linked nodes that were not freed, and that the node of a running `insert` is on none of them.
-/

namespace AtomicityViolation

namespace ConcBag

open Transition (Run ofFunction run_function_iff run_guarded_iff)
open LinkedList (Lists Reaches)

variable {T A : Type*}

/-! ## The invariant -/

/-- The node of a call of `insert` that is not in the bag yet. -/
def Pc.raw : Pc A → Option (Raw A)
  | .load n | .store n _ | .swap n _ => some n
  | _ => none

/-- The pointers from which lists hang: `head`, and the chains of the threads. -/
def State.root (s : State T A) : Option T → Option A
  | none => s.head
  | some t => (s.pc t).chain

/-- A node hangs from one of them. -/
def State.Listed (s : State T A) (a : A) : Prop := ∃ p, Reaches s.next (s.root p) a

/-- The numbers of the nodes. -/
structure Numbered (s : State T A) : Prop where
  /-- Two nodes have two numbers. -/
  distinct : ∀ a b c d, s.heap a = some c → s.heap b = some d → c.id = d.id → a = b
  /-- They are those of the allocations so far. -/
  below : ∀ a c, s.heap a = some c → c.id < s.allocations
  /-- So are those of the freed nodes, and no node has such a number. -/
  freed : ∀ k ∈ s.freed, k < s.allocations ∧ ∀ a c, s.heap a = some c → c.id ≠ k
  /-- No node was freed twice. -/
  once : s.freed.Nodup

/-- The nodes of the calls of `insert`. -/
structure Pending (s : State T A) : Prop where
  /-- They are there, and on no list. -/
  raw : ∀ t n, (s.pc t).raw = some n → (∃ c, s.heap n.ptr = some c ∧ c.id = n.id) ∧
    ¬ s.Listed n.ptr
  /-- Each belongs to one thread. -/
  distinct : ∀ t u n m, (s.pc t).raw = some n → (s.pc u).raw = some m → n.ptr = m.ptr → t = u
  /-- Before the swap they point to the head that is expected. -/
  stored : ∀ t n head, s.pc t = .swap n head → s.next n.ptr = some head

/-- What holds in every state of an undisturbed run. -/
structure Sound (s : State T A) : Prop where
  /-- The bag and the chains are lists without common nodes. -/
  lists : Lists s.next s.root
  /-- The nodes are numbered. -/
  numbered : Numbered s
  /-- The new nodes are out of the way. -/
  pending : Pending s
  /-- A `collect` that frees a node has read its pointer. -/
  dropping : ∀ t n head, s.pc t = .drop n head → s.next n = some head
  /-- The linked nodes are on the lists, or freed. -/
  placed : ∀ i ∈ s.linked, (∃ a c, s.Listed a ∧ s.heap a = some c ∧ c.id = i.id) ∨ i.id ∈ s.freed
  /-- There are only linked nodes on the lists. -/
  linked : ∀ a c, s.Listed a → s.heap a = some c → ∃ i ∈ s.linked, i.id = c.id
  /-- No step used a freed node. -/
  faults : s.faults = []

variable {s s' : State T A} {t : T} {pc : Pc A}

/-- The lists stay when the roots do and the heap changes elsewhere. -/
theorem listed_congr (h : Lists s.next s.root) (hroot : ∀ p, s'.root p = s.root p)
    (hheap : ∀ a, s.Listed a → s'.heap a = s.heap a) :
    Lists s'.next s'.root ∧ ∀ a, s'.Listed a ↔ s.Listed a := by
  obtain ⟨hlists, hiff⟩ : Lists s'.next s'.root ∧
      ∀ p a, Reaches s'.next (s'.root p) a ↔ Reaches s.next (s.root p) a :=
    h.congr hroot fun p a ha => by rw [State.next, State.next, hheap a ⟨p, ha⟩]
  exact ⟨hlists, fun a => exists_congr fun p => hiff p a⟩

/-- A node that is freed or written to is on a list if a thread is about to free it. -/
theorem listed_of_drop {n : A} {head : Option A} (h : s.pc t = .drop n head) : s.Listed n :=
  ⟨some t, by rw [State.root, h]; exact .here n⟩

/-- There is a node at an address on a list. -/
theorem exists_node (h : Lists s.next s.root) {a : A} (ha : s.Listed a) :
    ∃ c, s.heap a = some c := by
  obtain ⟨p, hp⟩ := ha
  obtain ⟨q, hq⟩ := h.exists_next hp
  obtain ⟨c, hc, -⟩ := Option.map_eq_some_iff.mp hq
  exact ⟨c, hc⟩

/-- What the invariant says of a node that is met. -/
theorem Sound.meets (h : Sound s) {p : Option T} {k : ℕ} (hk : s.Meets (s.root p) k) :
    (∃ i ∈ s.linked, i.id = k) ∧ k ∉ s.freed ∧ ∀ q, s.Meets (s.root q) k → q = p := by
  obtain ⟨a, c, ha, hc, rfl⟩ := hk
  refine ⟨h.linked a c ⟨p, ha⟩ hc, fun hfreed => ?_, ?_⟩
  · exact (h.numbered.freed _ hfreed).2 a c hc rfl
  · rintro q ⟨b, d, hb, hd, hid⟩
    obtain rfl := h.numbered.distinct b a d c hd hc hid
    exact h.lists.apart q p b hb ha

/-- What the invariant says of the nodes. -/
theorem Sound.kept (h : Sound s) : Kept s where
  placed := by
    intro i hi
    rcases h.placed i hi with ⟨a, c, ⟨p, hp⟩, hc⟩ | hfreed
    · have hmeets : s.Meets (s.root p) i.id := ⟨a, c, hp, hc⟩
      cases p with
      | none => exact .inl hmeets
      | some t =>
        refine .inr (.inl ⟨t, hmeets, fun u hu => ?_⟩)
        exact Option.some.inj ((h.meets hmeets).2.2 (some u) hu)
    · exact .inr (.inr hfreed)
  apart := by
    intro k hk
    obtain ⟨-, hfreed, hone⟩ := h.meets (p := none) hk
    exact ⟨hfreed, fun t ht => nomatch hone (some t) ht⟩
  owned := by
    intro t k hk
    obtain ⟨hlinked, hfreed, -⟩ := h.meets (p := some t) hk
    exact ⟨hlinked, hfreed⟩
  once := h.numbered.once
  faults := h.faults

/-- In the beginning there is no node. -/
theorem sound_start : Sound (start : State T A) := by
  have hroot : ∀ p, (start : State T A).root p = none := by
    rintro (_ | t) <;> rfl
  have hlisted : ∀ a, ¬ (start : State T A).Listed a := by
    rintro a ⟨p, hp⟩
    rw [hroot] at hp
    exact LinkedList.not_reaches_none hp
  refine ⟨LinkedList.lists_none hroot, ⟨?_, ?_, ?_, List.nodup_nil⟩, ⟨?_, ?_, ?_⟩, ?_, ?_, ?_, rfl⟩
  · intro a b c d hc
    cases hc
  · intro a c hc
    cases hc
  · intro k hk
    cases hk
  · intro t n hn
    cases hn
  · intro t u n m hn
    cases hn
  · intro t n head hn
    cases hn
  · intro t n head hn
    cases hn
  · intro i hi
    cases hi
  · exact fun a c ha => absurd ha (hlisted a)

/-- The numbers stay when no node comes or is freed. -/
theorem Numbered.keep (h : Numbered s)
    (hheap : ∀ a c, s'.heap a = some c → ∃ d, s.heap a = some d ∧ d.id = c.id)
    (hall : s'.allocations = s.allocations) (hfreed : s'.freed = s.freed) : Numbered s' where
  distinct := by
    intro a b c d hc hd hid
    obtain ⟨c', hc', hidc⟩ := hheap a c hc
    obtain ⟨d', hd', hidd⟩ := hheap b d hd
    exact h.distinct a b c' d' hc' hd' (by omega)
  below := by
    intro a c hc
    obtain ⟨c', hc', hidc⟩ := hheap a c hc
    rw [hall, ← hidc]
    exact h.below a c' hc'
  freed := by
    intro k hk
    rw [hfreed] at hk
    rw [hall]
    refine ⟨(h.freed k hk).1, fun a c hc => ?_⟩
    obtain ⟨c', hc', hidc⟩ := hheap a c hc
    rw [← hidc]
    exact (h.freed k hk).2 a c' hc'
  once := by
    rw [hfreed]
    exact h.once

/-- A node comes with the next number. -/
theorem Numbered.alloc (h : Numbered s) {n : A}
    (hheap : ∀ a c, s'.heap a = some c → a = n ∧ c.id = s.allocations ∨ s.heap a = some c)
    (hall : s'.allocations = s.allocations + 1) (hfreed : s'.freed = s.freed) : Numbered s' where
  distinct := by
    intro a b c d hc hd hid
    rcases hheap a c hc with ⟨rfl, hc'⟩ | hc'
    · rcases hheap b d hd with ⟨rfl, -⟩ | hd'
      · rfl
      · exact absurd (h.below b d hd') (by omega)
    · rcases hheap b d hd with ⟨rfl, hd'⟩ | hd'
      · exact absurd (h.below a c hc') (by omega)
      · exact h.distinct a b c d hc' hd' hid
  below := by
    intro a c hc
    rw [hall]
    rcases hheap a c hc with ⟨-, hc'⟩ | hc'
    · exact hc' ▸ Nat.lt_succ_self _
    · exact Nat.lt_succ_of_lt (h.below a c hc')
  freed := by
    intro k hk
    rw [hfreed] at hk
    obtain ⟨hlt, hno⟩ := h.freed k hk
    refine ⟨hall ▸ Nat.lt_succ_of_lt hlt, fun a c hc => ?_⟩
    rcases hheap a c hc with ⟨-, hc'⟩ | hc'
    · omega
    · exact hno a c hc'
  once := by
    rw [hfreed]
    exact h.once

/-- A node is freed, and no other one has its number. -/
theorem Numbered.free (h : Numbered s) {n : A} {c : Node A} (hc : s.heap n = some c)
    (hheap : ∀ a d, s'.heap a = some d → a ≠ n ∧ s.heap a = some d)
    (hall : s'.allocations = s.allocations) (hfreed : s'.freed = s.freed ++ [c.id]) :
    Numbered s' where
  distinct := fun a b d e hd he => h.distinct a b d e (hheap a d hd).2 (hheap b e he).2
  below := fun a d hd => hall ▸ h.below a d (hheap a d hd).2
  freed := by
    intro k hk
    rw [hfreed] at hk
    rw [hall]
    rcases List.mem_append.mp hk with hk | hk
    · exact ⟨(h.freed k hk).1, fun a d hd => (h.freed k hk).2 a d (hheap a d hd).2⟩
    · obtain rfl := List.mem_singleton.mp hk
      refine ⟨h.below n c hc, fun a d hd hid => ?_⟩
      exact (hheap a d hd).1 (h.distinct a n d c (hheap a d hd).2 hc hid)
  once := by
    rw [hfreed]
    refine List.nodup_append.mpr ⟨h.once, by simp, fun k hk l hl => ?_⟩
    rw [List.mem_singleton.mp hl]
    exact fun heq => (h.freed k hk).2 n c hc heq.symm

/-- The linked nodes are where they were when the lists stay and nothing is freed. -/
theorem Sound.placed_congr (h : Sound s) (hlisted : ∀ a, s'.Listed a ↔ s.Listed a)
    (hheap : ∀ a, s.Listed a → s'.heap a = s.heap a) (hlinked : s'.linked = s.linked)
    (hfreed : s'.freed = s.freed) :
    (∀ i ∈ s'.linked,
      (∃ a c, s'.Listed a ∧ s'.heap a = some c ∧ c.id = i.id) ∨ i.id ∈ s'.freed) ∧
    ∀ a c, s'.Listed a → s'.heap a = some c → ∃ i ∈ s'.linked, i.id = c.id := by
  rw [hlinked, hfreed]
  refine ⟨fun i hi => ?_, fun a c ha hc => ?_⟩
  · rcases h.placed i hi with ⟨a, c, ha, hc, hid⟩ | hfreed
    · exact .inl ⟨a, c, (hlisted a).mpr ha, (hheap a ha).trans hc, hid⟩
    · exact .inr hfreed
  · have ha' := (hlisted a).mp ha
    exact h.linked a c ha' ((hheap a ha').symm.trans hc)

variable [DecidableEq T]

/-- The nodes of the other threads, and that of a thread that moves. -/
theorem Pending.update (h : Pending s) (hpc : s'.pc = Function.update s.pc t pc)
    (hother : ∀ u n, u ≠ t → (s.pc u).raw = some n →
      s'.heap n.ptr = s.heap n.ptr ∧ ¬ s'.Listed n.ptr)
    (hraw : ∀ n, pc.raw = some n → ((∃ c, s'.heap n.ptr = some c ∧ c.id = n.id) ∧
      ¬ s'.Listed n.ptr) ∧ ∀ u m, u ≠ t → (s.pc u).raw = some m → n.ptr ≠ m.ptr)
    (hswap : ∀ n head, pc = .swap n head → s'.next n.ptr = some head) : Pending s' where
  raw := by
    intro u n hn
    rw [hpc] at hn
    by_cases hu : u = t
    · subst hu
      rw [Function.update_self] at hn
      exact (hraw n hn).1
    · rw [Function.update_of_ne hu] at hn
      obtain ⟨hheap, hlisted⟩ := hother u n hu hn
      rw [hheap]
      exact ⟨(h.raw u n hn).1, hlisted⟩
  distinct := by
    intro u v n m hn hm hptr
    rw [hpc] at hn hm
    by_cases hu : u = t
    · by_cases hv : v = t
      · rw [hu, hv]
      · rw [hu, Function.update_self] at hn
        rw [Function.update_of_ne hv] at hm
        exact absurd hptr ((hraw n hn).2 v m hv hm)
    · rw [Function.update_of_ne hu] at hn
      by_cases hv : v = t
      · rw [hv, Function.update_self] at hm
        exact absurd hptr.symm ((hraw m hm).2 u n hu hn)
      · rw [Function.update_of_ne hv] at hm
        exact h.distinct u v n m hn hm hptr
  stored := by
    intro u n head hn
    rw [hpc] at hn
    by_cases hu : u = t
    · rw [hu, Function.update_self] at hn
      exact hswap n head hn
    · rw [Function.update_of_ne hu] at hn
      have hheap := (hother u n hu (by rw [hn]; rfl)).1
      rw [State.next, hheap]
      exact h.stored u n head hn

/-- The threads that are about to free a node, when a thread moves. -/
theorem dropping_update (h : ∀ u n head, s.pc u = .drop n head → s.next n = some head)
    (hpc : s'.pc = Function.update s.pc t pc)
    (hother : ∀ u n head, u ≠ t → s.pc u = .drop n head → s'.heap n = s.heap n)
    (hdrop : ∀ n head, pc = .drop n head → s'.next n = some head) :
    ∀ u n head, s'.pc u = .drop n head → s'.next n = some head := by
  intro u n head hn
  rw [hpc] at hn
  by_cases hu : u = t
  · rw [hu, Function.update_self] at hn
    exact hdrop n head hn
  · rw [Function.update_of_ne hu] at hn
    rw [State.next, hother u n head hu hn]
    exact h u n head hn

/-- The roots stay when a thread moves and its chain stays. -/
theorem root_update (hhead : s'.head = s.head) (hpc : s'.pc = Function.update s.pc t pc)
    (hchain : pc.chain = (s.pc t).chain) (p : Option T) : s'.root p = s.root p := by
  cases p with
  | none => exact hhead
  | some u =>
    rw [State.root, State.root, hpc]
    by_cases hu : u = t
    · rw [hu, Function.update_self, hchain]
    · rw [Function.update_of_ne hu]

/-! ## Every step keeps it -/

/-- A thread goes on and keeps its chain and its node. -/
theorem Sound.goto (h : Sound s) (hchain : pc.chain = (s.pc t).chain)
    (hraw : ∀ n, pc.raw = some n → (s.pc t).raw = some n)
    (hswap : ∀ n head, pc = .swap n head → s.next n.ptr = some head)
    (hdrop : ∀ n head, pc = .drop n head → s.next n = some head) : Sound (s.goto t pc) := by
  have hroot : ∀ p, (s.goto t pc).root p = s.root p := root_update rfl rfl hchain
  obtain ⟨hlists, hlisted⟩ := listed_congr h.lists hroot fun _ _ => rfl
  obtain ⟨hplaced, hlinked⟩ := h.placed_congr hlisted (fun _ _ => rfl) rfl rfl
  refine ⟨hlists, h.numbered.keep (fun _ c hc => ⟨c, hc, rfl⟩) rfl rfl, ?_,
    dropping_update h.dropping rfl (fun _ _ _ _ _ => rfl) hdrop, hplaced, hlinked, h.faults⟩
  refine h.pending.update rfl (fun u n _ hn => ⟨rfl, ?_⟩) (fun n hn => ⟨⟨?_, ?_⟩, ?_⟩) hswap
  · rw [hlisted]
    exact (h.pending.raw u n hn).2
  · exact (h.pending.raw t n (hraw n hn)).1
  · rw [hlisted]
    exact (h.pending.raw t n (hraw n hn)).2
  · exact fun u m hu hm hptr => hu (h.pending.distinct t u n m (hraw n hn) hm hptr).symm

/-- The step of a `collect` that detaches the list. -/
theorem Sound.detach (h : Sound s) (hpc : s.pc t = .detach s.head) :
    Sound { s.goto t (.walk s.head) with head := none } := by
  have hother : ∀ p, p ≠ none → p ≠ some t →
      State.root { s.goto t (.walk s.head) with head := none } p = s.root p := by
    rintro (_ | u) hp hu
    · exact absurd rfl hp
    · have hne : u ≠ t := fun heq => hu (by rw [heq])
      simp [State.root, State.goto, hne]
  obtain ⟨hlists, hmove⟩ := h.lists.move (by rw [State.root, hpc]; rfl) rfl
    (by simp [State.root, State.goto, Pc.chain]) hother
  have hlisted : ∀ a, State.Listed { s.goto t (.walk s.head) with head := none } a ↔ s.Listed a :=
    hmove
  obtain ⟨hplaced, hlinked⟩ := h.placed_congr hlisted (fun _ _ => rfl) rfl rfl
  refine ⟨hlists, h.numbered.keep (fun _ c hc => ⟨c, hc, rfl⟩) rfl rfl, ?_,
    dropping_update h.dropping rfl (fun _ _ _ _ _ => rfl) (by simp), hplaced, hlinked, h.faults⟩
  refine h.pending.update rfl (fun u n _ hn => ⟨rfl, ?_⟩) (by simp [Pc.raw]) (by simp)
  exact fun hn' => (h.pending.raw u n hn).2 ((hlisted n.ptr).mp hn')

/-- The swap of an `insert` that succeeds. -/
theorem Sound.push (h : Sound s) {n : Raw A} (hpc : s.pc t = .swap n s.head) :
    Sound { s.goto t .idle with
      head := some n.ptr, linked := s.linked ++ [⟨t, n.id, n.data⟩] } := by
  have hraw : (s.pc t).raw = some n := by rw [hpc]; rfl
  obtain ⟨⟨c, hc, hid⟩, hnew⟩ := h.pending.raw t n hraw
  have hother : ∀ p, p ≠ none → State.root { s.goto t .idle with
      head := some n.ptr, linked := s.linked ++ [⟨t, n.id, n.data⟩] } p = s.root p := by
    rintro (_ | u) hp
    · exact absurd rfl hp
    · by_cases hu : u = t
      · subst hu
        simp [State.root, State.goto, hpc, Pc.chain]
      · simp [State.root, State.goto, hu]
  obtain ⟨hlists, hpush⟩ := h.lists.push (r := none) (fun p hp => hnew ⟨p, hp⟩)
    (h.pending.stored t n s.head hpc) rfl hother
  have hlisted : ∀ a, State.Listed { s.goto t .idle with
      head := some n.ptr, linked := s.linked ++ [⟨t, n.id, n.data⟩] } a ↔
        a = n.ptr ∨ s.Listed a := hpush
  refine ⟨hlists, h.numbered.keep (fun _ c hc => ⟨c, hc, rfl⟩) rfl rfl, ?_,
    dropping_update h.dropping rfl (fun _ _ _ _ _ => rfl) (by simp), fun i hi => ?_,
    fun a d ha hd => ?_, h.faults⟩
  · refine h.pending.update rfl (fun u m hu hm => ⟨rfl, ?_⟩) (by simp [Pc.raw]) (by simp)
    rw [hlisted]
    rintro (hptr | hm')
    · exact hu (h.pending.distinct u t m n hm hraw hptr)
    · exact (h.pending.raw u m hm).2 hm'
  · rcases List.mem_append.mp hi with hi | hi
    · rcases h.placed i hi with ⟨a, d, ha, hd⟩ | hfreed
      · exact .inl ⟨a, d, (hlisted a).mpr (.inr ha), hd⟩
      · exact .inr hfreed
    · obtain rfl := List.mem_singleton.mp hi
      exact .inl ⟨n.ptr, c, (hlisted _).mpr (.inl rfl), hc, hid⟩
  · rcases (hlisted a).mp ha with rfl | ha
    · obtain rfl : c = d := Option.some.inj (hc.symm.trans hd)
      exact ⟨_, List.mem_append_right _ (List.mem_singleton.mpr rfl), hid.symm⟩
    · obtain ⟨i, hi, hid'⟩ := h.linked a d ha hd
      exact ⟨i, List.mem_append_left _ hi, hid'⟩

variable [DecidableEq A]

/-- The call of `insert`, which allocates its node. -/
theorem Sound.insert (h : Sound s) (hpc : s.pc t = .idle) {n : A} (hn : s.heap n = none)
    (data : String) : Sound { s.goto t (.load ⟨n, s.allocations, data⟩) with
      heap := Function.update s.heap n (some ⟨s.allocations, data, none⟩)
      allocations := s.allocations + 1 } := by
  -- Where the node is put there was none, so no list and no other call has it.
  have hnew : ∀ a c, s.heap a = some c → a ≠ n := by
    rintro a c hc rfl
    rw [hn] at hc
    cases hc
  have hunlisted : ¬ s.Listed n := fun ha => by
    obtain ⟨c, hc⟩ := exists_node h.lists ha
    exact hnew n c hc rfl
  have hkeep : ∀ a, s.Listed a →
      Function.update s.heap n (some ⟨s.allocations, data, none⟩) a = s.heap a := fun a ha =>
    Function.update_of_ne (by rintro rfl; exact hunlisted ha) _ _
  obtain ⟨hlists, hlisted⟩ := @listed_congr T A s { s.goto t (.load ⟨n, s.allocations, data⟩) with
      heap := Function.update s.heap n (some ⟨s.allocations, data, none⟩)
      allocations := s.allocations + 1 } h.lists (root_update rfl rfl (by rw [hpc]; rfl)) hkeep
  -- What is at an address is the new node or was there.
  have hheap : ∀ a c, Function.update s.heap n (some ⟨s.allocations, data, none⟩) a = some c →
      a = n ∧ c.id = s.allocations ∨ s.heap a = some c := by
    intro a c hc
    by_cases ha : a = n
    · subst ha
      rw [Function.update_self] at hc
      exact .inl ⟨rfl, by rw [← Option.some.inj hc]⟩
    · rw [Function.update_of_ne ha] at hc
      exact .inr hc
  obtain ⟨hplaced, hlinked⟩ := h.placed_congr hlisted hkeep rfl rfl
  refine ⟨hlists, h.numbered.alloc hheap rfl rfl, ?_,
    dropping_update h.dropping rfl (fun u m _ _ hm => hkeep m (listed_of_drop hm)) (by simp),
    hplaced, hlinked, h.faults⟩
  refine h.pending.update rfl (fun u m _ hm => ?_) (fun m hm => ⟨⟨?_, ?_⟩, ?_⟩) (by simp)
  · obtain ⟨⟨c, hc, -⟩, hm'⟩ := h.pending.raw u m hm
    exact ⟨Function.update_of_ne (hnew _ c hc) _ _, (hlisted _).not.mpr hm'⟩
  · obtain rfl := Option.some.inj hm
    exact ⟨_, Function.update_self .., rfl⟩
  · obtain rfl := Option.some.inj hm
    exact (hlisted _).not.mpr hunlisted
  · obtain rfl := Option.some.inj hm
    intro u m' _ hm' heq
    obtain ⟨⟨c, hc, -⟩, -⟩ := h.pending.raw u m' hm'
    exact hnew _ c hc heq.symm

/-- The store of an `insert` into its node. -/
theorem Sound.store (h : Sound s) {n : Raw A} {head : Option A} (hpc : s.pc t = .store n head)
    {c : Node A} (hc : s.heap n.ptr = some c) : Sound { s.goto t (.swap n head) with
      heap := Function.update s.heap n.ptr (some { c with next := head }) } := by
  have hraw : (s.pc t).raw = some n := by rw [hpc]; rfl
  obtain ⟨⟨c', hc', hid⟩, hunlisted⟩ := h.pending.raw t n hraw
  obtain rfl : c' = c := Option.some.inj (hc'.symm.trans hc)
  have hkeep : ∀ a, s.Listed a →
      Function.update s.heap n.ptr (some { c' with next := head }) a = s.heap a := fun a ha =>
    Function.update_of_ne (by rintro rfl; exact hunlisted ha) _ _
  obtain ⟨hlists, hlisted⟩ := @listed_congr T A s { s.goto t (.swap n head) with
      heap := Function.update s.heap n.ptr (some { c' with next := head }) } h.lists
    (root_update rfl rfl (by rw [hpc]; rfl)) hkeep
  -- The nodes keep their numbers.
  have hheap : ∀ a d, Function.update s.heap n.ptr (some { c' with next := head }) a = some d →
      ∃ e, s.heap a = some e ∧ e.id = d.id := by
    intro a d hd
    by_cases ha : a = n.ptr
    · subst ha
      rw [Function.update_self] at hd
      exact ⟨c', hc, by rw [← Option.some.inj hd]⟩
    · rw [Function.update_of_ne ha] at hd
      exact ⟨d, hd, rfl⟩
  obtain ⟨hplaced, hlinked⟩ := h.placed_congr hlisted hkeep rfl rfl
  refine ⟨hlists, h.numbered.keep hheap rfl rfl, ?_,
    dropping_update h.dropping rfl (fun u m _ _ hm => hkeep m (listed_of_drop hm)) (by simp),
    hplaced, hlinked, h.faults⟩
  refine h.pending.update rfl (fun u m hu hm => ⟨Function.update_of_ne ?_ _ _, ?_⟩)
    (fun m hm => ⟨⟨?_, ?_⟩, ?_⟩) (fun m head' hm => ?_)
  · exact fun hptr => hu (h.pending.distinct u t m n hm hraw hptr)
  · exact (hlisted _).not.mpr (h.pending.raw u m hm).2
  · obtain rfl := Option.some.inj hm
    exact ⟨_, Function.update_self .., hid⟩
  · obtain rfl := Option.some.inj hm
    exact (hlisted _).not.mpr hunlisted
  · obtain rfl := Option.some.inj hm
    exact fun u m' hu hm' hptr => hu (h.pending.distinct t u n m' hraw hm' hptr).symm
  · obtain ⟨rfl, rfl⟩ : n = m ∧ head = head' := by simpa using hm
    simp [State.next]

/-- The chain of a `collect` goes on behind the node that it frees, which is on no list then. -/
theorem Sound.listed_drop (h : Sound s) {n : A} {head : Option A} (hpc : s.pc t = .drop n head)
    (freed : List ℕ) {s' : State T A} (hs' : s' = { s.goto t (.walk head) with
      heap := Function.update s.heap n none, freed }) :
    Lists s'.next s'.root ∧ (∀ a, s'.Listed a → a ≠ n) ∧
      ∀ a, s.Listed a ↔ a = n ∨ s'.Listed a := by
  have hother : ∀ p, p ≠ some t → (s.goto t (.walk head)).root p = s.root p := by
    rintro (_ | u) hp
    · rfl
    · have hne : u ≠ t := fun heq => hp (by rw [heq])
      simp [State.root, State.goto, hne]
  obtain ⟨hpop, hgone, hmet⟩ := h.lists.pop (r := some t)
    (by rw [State.root, hpc]; rfl) (h.dropping t n head hpc)
    (by simp [State.root, State.goto, Pc.chain]) hother
  have hgone' : ∀ a, (s.goto t (.walk head)).Listed a → a ≠ n := by
    rintro a ⟨p, hp⟩ rfl
    exact hgone p hp
  obtain ⟨hlists, hlisted⟩ : Lists s'.next s'.root ∧
      ∀ a, s'.Listed a ↔ (s.goto t (.walk head)).Listed a := by
    subst hs'
    exact listed_congr hpop (fun _ => rfl) fun a ha => Function.update_of_ne (hgone' a ha) _ _
  refine ⟨hlists, fun a ha => hgone' a ((hlisted a).mp ha), fun a => ?_⟩
  rw [hlisted]
  exact hmet a

/-- The step of a `collect` that frees a node. -/
theorem Sound.drop (h : Sound s) {n : A} {head : Option A} (hpc : s.pc t = .drop n head)
    {c : Node A} (hc : s.heap n = some c) : Sound { s.goto t (.walk head) with
      heap := Function.update s.heap n none, freed := s.freed ++ [c.id] } := by
  obtain ⟨hlists, hgone, hlisted⟩ := h.listed_drop hpc (s.freed ++ [c.id]) rfl
  have hold : ∀ a d, Function.update s.heap n none a = some d → a ≠ n ∧ s.heap a = some d := by
    intro a d hd
    by_cases ha : a = n
    · subst ha
      rw [Function.update_self] at hd
      cases hd
    · rw [Function.update_of_ne ha] at hd
      exact ⟨ha, hd⟩
  refine ⟨hlists, h.numbered.free hc hold rfl rfl, ?_,
    dropping_update h.dropping rfl (fun u m r hu hm => ?_) (by simp), fun i hi => ?_,
    fun a d ha hd => ?_, h.faults⟩
  · refine h.pending.update rfl (fun u m _ hm => ?_) (by simp [Pc.raw]) (by simp)
    obtain ⟨-, hm'⟩ := h.pending.raw u m hm
    rw [hlisted, not_or] at hm'
    exact ⟨Function.update_of_ne hm'.1 _ _, hm'.2⟩
  · -- Another thread that frees the node would have it on its chain, too.
    have hne : m ≠ n := by
      rintro rfl
      have hu' : Reaches s.next (s.root (some u)) m := by rw [State.root, hm]; exact .here m
      have ht' : Reaches s.next (s.root (some t)) m := by rw [State.root, hpc]; exact .here m
      exact hu (Option.some.inj (h.lists.apart _ _ m hu' ht'))
    exact Function.update_of_ne hne _ _
  · rcases h.placed i hi with ⟨a, d, ha, hd, hid⟩ | hfreed
    · rcases (hlisted a).mp ha with rfl | ha
      · obtain rfl : d = c := Option.some.inj (hd.symm.trans hc)
        exact .inr (List.mem_append_right _ (List.mem_singleton.mpr hid.symm))
      · have hne : a ≠ n := hgone a ha
        exact .inl ⟨a, d, ha, (Function.update_of_ne hne _ _).trans hd, hid⟩
    · exact .inr (List.mem_append_left _ hfreed)
  · exact h.linked a d ((hlisted a).mpr (.inr ha)) (hold a d hd).2

/-! ## The runs -/

/-- The next step of a call keeps the invariant. -/
theorem Sound.run (h : Sound s) (hund : ∀ head ∈ (s.pc t).loaded, s.head = head)
    (hstep : s.run t = some s') : Sound s' := by
  unfold State.run at hstep
  cases hpc : s.pc t with
  | idle => simp [hpc] at hstep
  | crashed => simp [hpc] at hstep
  | load n =>
    simp only [hpc, Option.some.injEq] at hstep
    subst hstep
    exact h.goto (by rw [hpc]; rfl) (by rw [hpc]; exact fun _ => id) (by simp) (by simp)
  | store n head =>
    -- The node is there, since it belongs to the call.
    obtain ⟨⟨c, hc, -⟩, -⟩ := h.pending.raw t n (by rw [hpc]; rfl)
    simp only [hpc, hc, Option.some.injEq] at hstep
    subst hstep
    exact h.store hpc hc
  | swap n head =>
    simp only [hpc] at hstep
    split_ifs at hstep with hhead
    · obtain rfl := Option.some.inj hstep
      subst hhead
      exact h.push hpc
    · obtain rfl := Option.some.inj hstep
      exact h.goto (by rw [hpc]; rfl) (by rw [hpc]; exact fun _ => id) (by simp) (by simp)
  | collect =>
    simp only [hpc, Option.some.injEq] at hstep
    subst hstep
    exact h.goto (by rw [hpc]; rfl) (by simp [Pc.raw]) (by simp) (by simp)
  | detach head =>
    simp only [hpc, Option.some.injEq] at hstep
    subst hstep
    obtain rfl := hund head (by rw [hpc]; rfl)
    exact h.detach hpc
  | walk head =>
    cases head with
    | none =>
      simp only [hpc, Option.some.injEq] at hstep
      subst hstep
      exact h.goto (by rw [hpc]; rfl) (by simp [Pc.raw]) (by simp) (by simp)
    | some n =>
      obtain ⟨c, hc⟩ := exists_node h.lists ⟨some t, by rw [State.root, hpc]; exact .here n⟩
      simp only [hpc, hc, Option.some.injEq] at hstep
      subst hstep
      exact h.goto (by rw [hpc]; rfl) (by simp [Pc.raw]) (by simp) (by simp)
  | next n =>
    obtain ⟨c, hc⟩ := exists_node h.lists ⟨some t, by rw [State.root, hpc]; exact .here n⟩
    simp only [hpc, hc, Option.some.injEq] at hstep
    subst hstep
    refine h.goto (by rw [hpc]; rfl) (by simp [Pc.raw]) (by simp) fun m head hm => ?_
    obtain ⟨rfl, rfl⟩ : n = m ∧ c.next = head := by simpa using hm
    rw [State.next, hc]
    rfl
  | drop n head =>
    obtain ⟨c, hc⟩ := exists_node h.lists (listed_of_drop hpc)
    simp only [hpc, hc, Option.some.injEq] at hstep
    subst hstep
    exact h.drop hpc hc

/-- A step keeps the invariant. -/
theorem Sound.step {a : Action T A} (h : Sound s) (hund : Undisturbed s a)
    (hstep : step s a = some s') : Sound s' := by
  cases a with
  | insert t data n =>
    simp only [ConcBag.step] at hstep
    split at hstep
    · next hpc hn =>
      obtain rfl := Option.some.inj hstep
      exact h.insert hpc hn data
    · cases hstep
  | collect t =>
    simp only [ConcBag.step] at hstep
    split at hstep
    · next hpc =>
      obtain rfl := Option.some.inj hstep
      exact h.goto (by rw [hpc]; rfl) (by simp [Pc.raw]) (by simp) (by simp)
    · cases hstep
  | run t => exact h.run hund hstep

/-- Any number of threads that call `insert` and `collect` lose no node, free none twice and use
none that was freed, in whatever order they take their steps, as long as `head` still is what a
`collect` has loaded whenever it stores null there. -/
theorem conc_bag_keeps {as : List (Action T A)}
    (h : Run (fun s a s' => ConcBag.step s a = some s' ∧ Undisturbed s a) start as s) : Kept s :=
  (h.invariant (fun _ _ _ hs hstep => hs.step hstep.2 hstep.1) sound_start).kept

/-- One thread inserts a node and another one collects it. -/
def collectRun : List (Action (Fin 2) ℕ) :=
  [.insert 0 "0" 0, .run 0, .run 0, .run 0, .collect 1, .run 1, .run 1, .run 1, .run 1, .run 1]

/-- The bag keeps its node in `collectRun`, until it is freed. -/
theorem conc_bag_keeps_collectRun : ∃ s : State (Fin 2) ℕ,
    Run (fun s a s' => ConcBag.step s a = some s' ∧ Undisturbed s a) start collectRun s ∧
      s.freed = [0] ∧ Kept s := by
  obtain ⟨s, hs, hfreed⟩ : ∃ s : State (Fin 2) ℕ,
      Run (fun s a s' => ConcBag.step s a = some s' ∧ Undisturbed s a) start collectRun s ∧
        s.freed = [0] := ⟨_, run_guarded_iff.mpr rfl, rfl⟩
  exact ⟨s, hs, hfreed, conc_bag_keeps hs⟩

/-- What `main` does: a node is in the bag, `collect` loads the head and sleeps, and another node is
inserted before it stores null. -/
def lossRun : List (Action (Fin 2) ℕ) :=
  [.insert 0 "0" 0, .run 0, .run 0, .run 0, .collect 1, .run 1,
   .insert 0 "5" 1, .run 0, .run 0, .run 0, .run 1]

/-- The node that was inserted meanwhile is lost: it is linked, but behind neither `head`, which is
null, nor the pointer of the `collect`, and it was not freed. -/
theorem collect_loses : ∃ s : State (Fin 2) ℕ,
    Run (ofFunction ConcBag.step) start lossRun s ∧ ¬ Kept s := by
  obtain ⟨s, hs, hlinked, hfreed, hhead, hchain, hheap⟩ : ∃ s : State (Fin 2) ℕ,
      Run (ofFunction ConcBag.step) start lossRun s ∧
        s.linked = [⟨0, 0, "0"⟩, ⟨0, 1, "5"⟩] ∧ s.freed = [] ∧ s.head = none ∧
        (∀ t, (s.pc t).chain = none ∨ (s.pc t).chain = some 0) ∧ s.heap 0 = some ⟨0, "0", none⟩ :=
    ⟨_, run_function_iff.mpr rfl, rfl, rfl, rfl, Fin.forall_fin_two.mpr ⟨.inl rfl, .inr rfl⟩, rfl⟩
  refine ⟨s, hs, fun h => ?_⟩
  -- From address 0 only the node there is met, whose number is 0.
  have hnot : ∀ p : Option ℕ, p = none ∨ p = some 0 → ¬ s.Meets p 1 := by
    rintro p hp ⟨a, c, ha, hc, hid⟩
    rcases hp with rfl | rfl
    · exact LinkedList.not_reaches_none ha
    · have hnext : s.next 0 = some none := by rw [State.next, hheap]; rfl
      rcases (LinkedList.reaches_some_iff hnext).mp ha with rfl | ha
      · rw [hheap] at hc
        obtain rfl := Option.some.inj hc
        cases hid
      · exact LinkedList.not_reaches_none ha
  rcases h.placed ⟨0, 1, "5"⟩ (by simp [hlinked]) with hbag | ⟨t, ht, -⟩ | hin
  · exact hnot _ (.inl hhead) hbag
  · exact hnot _ (hchain t) ht
  · rw [hfreed] at hin
    cases hin

end ConcBag

end AtomicityViolation
