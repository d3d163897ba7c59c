import Mathlib.Data.List.Nodup
import AtomicityViolation.Library.Before
import AtomicityViolation.Subjects.Collect

/-!
# Inserts into the bag take effect one after the other

While no thread collects, `head` leads to the nodes whose swap succeeded, the last one first,
however many calls of `insert` are in progress (`inserts_linearise`). A call takes effect with the
swap that succeeds, which also is its last step. So the nodes of a thread are its calls in program
order, but for the call that it is in, and a call that returns before another one is made is behind
it in the list (`insert_before`). The invariant (`Stacked`) adds the order of the list to that of
`collect`: a node that was not swapped in yet is on no list, so a store into it does not change what
is met from `head`, and the swap that succeeds puts it in front.
-/

namespace AtomicityViolation

namespace ConcBag

open Transition (Run ofFunction run_function_iff)
open LinkedList (Chain)
open ListOrder (Before before_of_grown)

variable {T A : Type*}

/-! ## The calls of a run -/

/-- The thread and the data of a call of `insert`. -/
def Action.call : Action T A → Option (T × String)
  | .insert t data _ => some (t, data)
  | .collect _ | .run _ => none

/-- The calls of `insert` in a run, in their order, with the numbers of their nodes. -/
def calls (as : List (Action T A)) : List (Insertion T) :=
  (as.filterMap Action.call).mapIdx fun k call => ⟨call.1, k, call.2⟩

/-- The calls of one thread. -/
def ofThread [DecidableEq T] (t : T) (is : List (Insertion T)) : List (Insertion T) :=
  is.filter fun i => decide (i.thread = t)

/-- The call of `insert` that a thread is in. -/
def State.pending (s : State T A) (t : T) : Option (Insertion T) :=
  (s.pc t).raw.map fun n => ⟨t, n.id, n.data⟩

/-- The number and the data of the node at an address. -/
def State.content (s : State T A) (a : A) : Option (ℕ × String) :=
  (s.heap a).map fun c => (c.id, c.data)

/-- The calls of `insert` have taken effect one after the other. -/
structure Linearised [DecidableEq T] (as : List (Action T A)) (s : State T A) : Prop where
  /-- From `head` on one comes to null, over the nodes whose swap succeeded: each of them once, the
  last one first, and with the data of its call. -/
  chain : ∃ nodes, Chain s.next s.head nodes ∧ nodes.Nodup ∧
    nodes.map s.content = s.linked.reverse.map fun i => some (i.id, i.data)
  /-- No node was swapped in twice. -/
  once : (s.linked.map Insertion.id).Nodup
  /-- The nodes of a thread are those of its calls, in program order, but for the call that it is
  in. -/
  order : ∀ t, ofThread t (calls as) = ofThread t s.linked ++ (s.pending t).toList
  /-- When no call is in progress, these are the nodes of all calls. -/
  complete : (∀ t, s.pending t = none) → s.linked.Perm (calls as)
  /-- `print_concbag` ends, and prints these nodes. -/
  printed : ∀ caller fuel, s.linked.length ≤ fuel → s.print_concbag caller fuel =
    some (.ok (("printing - " ++ caller) ::
      s.linked.reverse.map fun i => caller ++ " - " ++ i.data))

/-- A call at the end of a run. -/
theorem calls_concat (as : List (Action T A)) (a : Action T A) :
    calls (as ++ [a]) = calls as ++
      (a.call.map fun call => ⟨call.1, (calls as).length, call.2⟩).toList := by
  cases hcall : a.call with
  | none => simp [calls, hcall]
  | some call => simp [calls, hcall]

/-- A step in a call adds none. -/
theorem calls_run (as : List (Action T A)) (t : T) : calls (as ++ [.run t]) = calls as := by
  rw [calls_concat]
  exact List.append_nil _

/-- A call is among those of its thread. -/
theorem mem_ofThread_iff [DecidableEq T] {i : Insertion T} {is : List (Insertion T)} :
    i ∈ ofThread i.thread is ↔ i ∈ is := by
  simp [ofThread]

/-- Lists of calls with the same calls of each thread are the same but for their order. -/
theorem perm_of_ofThread [DecidableEq T] {is js : List (Insertion T)}
    (h : ∀ t, ofThread t is = ofThread t js) : is.Perm js := by
  refine List.perm_iff_count.mpr fun i => ?_
  have hcount := congrArg (List.count i) (h i.thread)
  rwa [ofThread, ofThread, List.count_filter (by simp), List.count_filter (by simp)] at hcount

/-! ## Printing -/

variable {s s' : State T A}

/-- The loop of `print_concbag` prints the nodes of a list. -/
theorem printFrom_chain {p : Option A} {nodes : List A} (h : Chain s.next p nodes)
    {is : List (Insertion T)}
    (hcontent : nodes.map s.content = is.map fun i => some (i.id, i.data)) (caller : String)
    (printed : List String) {fuel : ℕ} (hfuel : is.length ≤ fuel) :
    s.printFrom caller fuel p printed =
      some (.ok (printed ++ is.map fun i => caller ++ " - " ++ i.data)) := by
  induction h generalizing is printed fuel with
  | nil =>
    obtain rfl : is = [] := by simpa using hcontent.symm
    simp [State.printFrom]
  | @cons a q nodes hnext _ ih =>
    cases is with
    | nil => simp at hcontent
    | cons i is =>
      cases fuel with
      | zero => simp at hfuel
      | succ fuel =>
        obtain ⟨n, hn, rfl⟩ := Option.map_eq_some_iff.mp hnext
        simp only [List.map_cons, List.cons.injEq, State.content, hn, Option.map_some,
          Option.some.injEq, Prod.mk.injEq] at hcontent
        obtain ⟨⟨-, hdata⟩, hrest⟩ := hcontent
        have hfuel' : is.length ≤ fuel := by simpa using hfuel
        simp only [State.printFrom, hn, hdata]
        rw [ih hrest _ hfuel']
        simp

/-! ## The invariant -/

variable [DecidableEq T] {as : List (Action T A)} {t : T} {pc : Pc A}

/-- What holds in every state of a run without `collect`. -/
structure Stacked (as : List (Action T A)) (s : State T A) : Prop where
  /-- The lists have no node in common, and the new nodes are on none. -/
  sound : Sound s
  /-- A thread is in `insert` or in no call. -/
  idle : ∀ t, (s.pc t).raw = none → s.pc t = .idle
  /-- There was an allocation for each call. -/
  allocations : s.allocations = (calls as).length
  /-- The new nodes have the data of their calls. -/
  data : ∀ t n, (s.pc t).raw = some n → s.content n.ptr = some (n.id, n.data)
  /-- From `head` on stand the nodes that were swapped in, the last one first. -/
  chain : ∃ nodes, Chain s.next s.head nodes ∧
    nodes.map s.content = s.linked.reverse.map fun i => some (i.id, i.data)
  /-- A thread swaps in its nodes in program order. -/
  order : ∀ t, ofThread t (calls as) = ofThread t s.linked ++ (s.pending t).toList

/-- In the beginning the bag is empty. -/
theorem stacked_start : Stacked [] (start : State T A) where
  sound := sound_start
  idle := fun _ _ => rfl
  allocations := rfl
  data := fun _ _ hn => nomatch hn
  chain := ⟨[], .nil, rfl⟩
  order := fun _ => rfl

/-- What the invariant says of the nodes. -/
theorem Stacked.linearised (h : Stacked as s) : Linearised as s := by
  obtain ⟨nodes, hchain, hcontent⟩ := h.chain
  refine ⟨⟨nodes, hchain, hchain.nodup, hcontent⟩, ?_, h.order, fun hidle => ?_,
    fun caller fuel hfuel => ?_⟩
  · -- Two nodes have two numbers.
    have hids : (nodes.map fun a => (s.content a).map Prod.fst).Nodup := by
      refine List.Nodup.map_on (fun a ha b hb hab => ?_) hchain.nodup
      obtain ⟨p, hp⟩ := hchain.exists_next (hchain.reaches_iff.mpr ha)
      obtain ⟨q, hq⟩ := hchain.exists_next (hchain.reaches_iff.mpr hb)
      obtain ⟨c, hc, -⟩ := Option.map_eq_some_iff.mp hp
      obtain ⟨d, hd, -⟩ := Option.map_eq_some_iff.mp hq
      simp only [State.content, hc, hd, Option.map_some, Option.some.injEq] at hab
      exact h.sound.numbered.distinct a b c d hc hd hab
    have hlinked : (nodes.map fun a => (s.content a).map Prod.fst) =
        (s.linked.map Insertion.id).reverse.map some := by
      have hmap := congrArg (List.map (Option.map Prod.fst)) hcontent
      simpa [Function.comp_def] using hmap
    rw [hlinked] at hids
    exact List.nodup_reverse.mp hids.of_map
  · refine perm_of_ofThread fun t => ?_
    rw [h.order t, hidle t]
    exact (List.append_nil _).symm
  · have hlength : s.linked.reverse.length ≤ fuel := by rwa [List.length_reverse]
    exact printFrom_chain hchain hcontent caller _ hlength

/-- The nodes from `head` on stay when the heap changes elsewhere. -/
theorem Stacked.chain_congr (h : Stacked as s) (hhead : s'.head = s.head)
    (hlinked : s'.linked = s.linked) (hheap : ∀ a, s.Listed a → s'.heap a = s.heap a) :
    ∃ nodes, Chain s'.next s'.head nodes ∧
      nodes.map s'.content = s'.linked.reverse.map fun i => some (i.id, i.data) := by
  obtain ⟨nodes, hchain, hcontent⟩ := h.chain
  refine ⟨nodes, ?_, ?_⟩
  · rw [hhead]
    refine hchain.congr fun a ha => ?_
    rw [State.next, State.next, hheap a ⟨none, ha⟩]
  · rw [hlinked, ← hcontent]
    refine List.map_congr_left fun a ha => ?_
    rw [State.content, State.content, hheap a ⟨none, hchain.reaches_iff.mpr ha⟩]

/-- A thread moves, and the other ones keep their calls and the data of their nodes. -/
theorem Stacked.update {a : Action T A} (h : Stacked as s) (hs' : Sound s')
    (hpc' : s'.pc = Function.update s.pc t pc) (hidle : pc.raw = none → pc = .idle)
    (hall : s'.allocations = (calls (as ++ [a])).length)
    (hdata : ∀ n, pc.raw = some n → s'.content n.ptr = some (n.id, n.data))
    (hkeep : ∀ u n, u ≠ t → (s.pc u).raw = some n → s'.content n.ptr = s.content n.ptr)
    (hchain : ∃ nodes, Chain s'.next s'.head nodes ∧
      nodes.map s'.content = s'.linked.reverse.map fun i => some (i.id, i.data))
    (horder : ofThread t (calls (as ++ [a])) =
      ofThread t s'.linked ++ (pc.raw.map fun n => ⟨t, n.id, n.data⟩).toList)
    (hother : ∀ u, u ≠ t → ofThread u (calls (as ++ [a])) = ofThread u (calls as) ∧
      ofThread u s'.linked = ofThread u s.linked) : Stacked (as ++ [a]) s' where
  sound := hs'
  idle := by
    intro u hu
    rw [hpc'] at hu ⊢
    by_cases hut : u = t
    · subst hut
      rw [Function.update_self] at hu ⊢
      exact hidle hu
    · rw [Function.update_of_ne hut] at hu ⊢
      exact h.idle u hu
  allocations := hall
  data := by
    intro u n hn
    rw [hpc'] at hn
    by_cases hut : u = t
    · subst hut
      rw [Function.update_self] at hn
      exact hdata n hn
    · rw [Function.update_of_ne hut] at hn
      rw [hkeep u n hut hn]
      exact h.data u n hn
  chain := hchain
  order := by
    intro u
    rw [State.pending, hpc']
    by_cases hut : u = t
    · subst hut
      rw [Function.update_self]
      exact horder
    · obtain ⟨hcalls, hlinked⟩ := hother u hut
      rw [Function.update_of_ne hut, hcalls, hlinked]
      exact h.order u

/-- The call of `insert`. -/
theorem Stacked.insert (h : Stacked as s) (hs' : Sound s') {data : String} {n : A}
    (hpc : s.pc t = .idle) (hn : s.heap n = none)
    (hpc' : s'.pc = Function.update s.pc t (.load ⟨n, s.allocations, data⟩))
    (hhead : s'.head = s.head) (hlinked : s'.linked = s.linked)
    (hall : s'.allocations = s.allocations + 1)
    (hnew : s'.content n = some (s.allocations, data))
    (hheap : ∀ a, a ≠ n → s'.heap a = s.heap a) : Stacked (as ++ [.insert t data n]) s' := by
  have hcalls : calls (as ++ [.insert t data n]) = calls as ++ [⟨t, s.allocations, data⟩] := by
    rw [calls_concat, h.allocations]
    rfl
  refine h.update hs' hpc' nofun ?_ (fun m hm => ?_) (fun u m _ hm => ?_)
    (h.chain_congr hhead hlinked fun a ha => hheap a ?_) ?_ fun u hu => ⟨?_, by rw [hlinked]⟩
  · rw [hall, h.allocations, hcalls, List.length_append, List.length_singleton]
  · obtain rfl := Option.some.inj hm
    exact hnew
  · -- There was no node where the new one is.
    obtain ⟨⟨c, hc, -⟩, -⟩ := h.sound.pending.raw u m hm
    have hne : m.ptr ≠ n := by
      intro hptr
      rw [hptr, hn] at hc
      cases hc
    rw [State.content, State.content, hheap _ hne]
  · rintro rfl
    obtain ⟨c, hc⟩ := exists_node h.sound.lists ha
    rw [hn] at hc
    cases hc
  · have horder := h.order t
    rw [State.pending, hpc] at horder
    rw [hcalls, hlinked, ofThread, List.filter_append, ← ofThread, horder]
    simp [Pc.raw]
  · have htu : t ≠ u := fun heq => hu heq.symm
    simp [hcalls, ofThread, htu]

/-- A thread goes on in its call, and at most stores into its node. -/
theorem Stacked.keep (h : Stacked as s) (hs' : Sound s') {n : Raw A} (hn : (s.pc t).raw = some n)
    (hpc' : s'.pc = Function.update s.pc t pc) (hn' : pc.raw = some n) (hhead : s'.head = s.head)
    (hlinked : s'.linked = s.linked) (hall : s'.allocations = s.allocations)
    (hcontent : ∀ a, s'.content a = s.content a) (hheap : ∀ a, a ≠ n.ptr → s'.heap a = s.heap a) :
    Stacked (as ++ [.run t]) s' := by
  refine h.update hs' hpc' (by simp [hn']) ?_ (fun m hm => ?_) (fun _ m _ _ => hcontent m.ptr)
    (h.chain_congr hhead hlinked fun a ha => hheap a ?_) ?_
    fun u _ => ⟨by rw [calls_run], by rw [hlinked]⟩
  · rw [hall, calls_run, h.allocations]
  · rw [hcontent]
    exact h.data t m (hn.trans (hn'.symm.trans hm))
  · rintro rfl
    exact (h.sound.pending.raw t n hn).2 ha
  · rw [calls_run, hlinked, hn', ← hn]
    exact h.order t

/-- A thread goes on in its call, before a load or a store. -/
theorem Stacked.goto (h : Stacked as s) {n : Raw A} (hn : (s.pc t).raw = some n)
    (hn' : pc.raw = some n) (hchain : pc.chain = (s.pc t).chain)
    (hswap : ∀ m head, pc ≠ .swap m head) : Stacked (as ++ [.run t]) (s.goto t pc) := by
  have hdrop : ∀ m head, pc ≠ .drop m head := by
    rintro m head rfl
    cases hn'
  have hsound : Sound (s.goto t pc) := by
    refine h.sound.goto hchain (fun m hm => ?_) (fun m head hm => absurd hm (hswap m head))
      fun m head hm => absurd hm (hdrop m head)
    rw [hn, ← hn', hm]
  exact h.keep hsound hn rfl hn' rfl rfl rfl (fun _ => rfl) fun _ _ => rfl

/-- The swap that succeeds. -/
theorem Stacked.push (h : Stacked as s) {n : Raw A} (hpc : s.pc t = .swap n s.head) :
    Stacked (as ++ [.run t]) { s.goto t .idle with
      head := some n.ptr, linked := s.linked ++ [⟨t, n.id, n.data⟩] } := by
  have hn : (s.pc t).raw = some n := by rw [hpc]; rfl
  refine h.update (h.sound.push hpc) rfl (fun _ => rfl) ?_ (by simp [Pc.raw]) (fun _ _ _ _ => rfl)
    ?_ ?_ fun u hu => ⟨by rw [calls_run], ?_⟩
  · rw [calls_run]
    exact h.allocations
  · -- The new node points to what was the head.
    obtain ⟨nodes, hchain, hcontent⟩ := h.chain
    refine ⟨n.ptr :: nodes, .cons (h.sound.pending.stored t n s.head hpc) hchain, ?_⟩
    rw [List.map_cons, List.reverse_append, List.reverse_singleton, List.singleton_append,
      List.map_cons]
    exact congrArg₂ List.cons (h.data t n hn) hcontent
  · have horder := h.order t
    rw [State.pending, hn] at horder
    rw [calls_run, horder]
    simp [ofThread, Pc.raw]
  · have htu : t ≠ u := fun heq => hu heq.symm
    simp [ofThread, htu]

/-! ## The runs -/

variable [DecidableEq A]

/-- The next step of a call keeps the invariant. -/
theorem Stacked.run (h : Stacked as s) (hstep : s.run t = some s') :
    Stacked (as ++ [.run t]) s' := by
  cases hraw : (s.pc t).raw with
  | none => simp [State.run, h.idle t hraw] at hstep
  | some n =>
    obtain ⟨⟨c, hc, -⟩, -⟩ := h.sound.pending.raw t n hraw
    unfold State.run at hstep
    cases hpc : s.pc t with
    | idle | collect | detach | walk | next | drop | crashed => simp [hpc, Pc.raw] at hraw
    | load m =>
      obtain rfl : m = n := by simpa [hpc, Pc.raw] using hraw
      simp only [hpc, Option.some.injEq] at hstep
      subst hstep
      exact h.goto hraw rfl (by rw [hpc]; rfl) (by simp)
    | store m head =>
      obtain rfl : m = n := by simpa [hpc, Pc.raw] using hraw
      simp only [hpc, hc, Option.some.injEq] at hstep
      subst hstep
      refine h.keep (h.sound.store hpc hc) hraw rfl rfl rfl rfl rfl (fun a => ?_) fun a ha =>
        Function.update_of_ne ha _ _
      by_cases ha : a = m.ptr
      · subst ha
        simp [State.content, hc]
      · simp [State.content, ha]
    | swap m head =>
      obtain rfl : m = n := by simpa [hpc, Pc.raw] using hraw
      simp only [hpc] at hstep
      split_ifs at hstep with hhead
      · obtain rfl := Option.some.inj hstep
        subst hhead
        exact h.push hpc
      · obtain rfl := Option.some.inj hstep
        exact h.goto hraw rfl (by rw [hpc]; rfl) (by simp)

/-- A step other than a call of `collect` keeps the invariant. -/
theorem Stacked.step {a : Action T A} (h : Stacked as s) (ha : ∀ u, a ≠ .collect u)
    (hstep : step s a = some s') : Stacked (as ++ [a]) s' := by
  cases a with
  | insert t data n =>
    simp only [ConcBag.step] at hstep
    split at hstep
    · next hpc hn =>
      obtain rfl := Option.some.inj hstep
      exact h.insert (h.sound.insert hpc hn data) hpc hn rfl rfl rfl rfl (by simp [State.content])
        fun a ha => Function.update_of_ne ha _ _
    · cases hstep
  | collect t => exact absurd rfl (ha t)
  | run t => exact h.run hstep

/-- The invariant holds in every run without `collect`. -/
theorem stacked_run (h : Run (ofFunction ConcBag.step) start as s)
    (hinserts : ∀ t, Action.collect t ∉ as) : Stacked as s := by
  have hstacked : (∀ t, Action.collect t ∉ [] ++ as) → Stacked ([] ++ as) s := by
    refine h.invariant_trace (I := fun as s => (∀ t, Action.collect t ∉ as) → Stacked as s)
      (fun bs s a s' hs hstep hno => ?_) fun _ => stacked_start
    simp only [List.mem_append, List.mem_singleton, not_or] at hno
    exact (hs fun t => (hno t).1).step (fun t => (hno t).2 ∘ Eq.symm) hstep
  exact hstacked hinserts

/-- Any number of threads call `insert` on a bag that is empty at first, in whatever order they take
their steps, and no thread collects: the calls have taken effect one after the other. -/
theorem inserts_linearise (h : Run (ofFunction ConcBag.step) start as s)
    (hinserts : ∀ t, Action.collect t ∉ as) : Linearised as s :=
  (stacked_run h hinserts).linearised

/-- Two threads load the same head, and the swap of the second one fails once. -/
def contendedRun : List (Action ℕ ℕ) :=
  [.insert 0 "0" 0, .insert 1 "1" 1, .run 0, .run 1, .run 0, .run 0, .run 1, .run 1, .run 1, .run 1,
    .run 1]

/-- The calls of `contendedRun` take effect one after the other. -/
theorem inserts_linearise_contendedRun : ∃ s : State ℕ ℕ,
    Run (ofFunction ConcBag.step) start contendedRun s ∧
      s.linked = [⟨0, 0, "0"⟩, ⟨1, 1, "1"⟩] ∧ Linearised contendedRun s := by
  obtain ⟨s, hs, hlinked⟩ : ∃ s : State ℕ ℕ,
      Run (ofFunction ConcBag.step) start contendedRun s ∧
        s.linked = [⟨0, 0, "0"⟩, ⟨1, 1, "1"⟩] := ⟨_, run_function_iff.mpr rfl, rfl⟩
  exact ⟨s, hs, hlinked, inserts_linearise hs (by simp [contendedRun])⟩

/-! ## Calls that do not overlap -/

/-- A step adds to the nodes that were swapped in. -/
theorem linked_grows {a : Action T A} (hstep : step s a = some s') : s.linked <+: s'.linked := by
  cases a with
  | insert t data n =>
    simp only [ConcBag.step] at hstep
    split at hstep
    · cases hstep
      exact List.prefix_rfl
    · cases hstep
  | collect t =>
    simp only [ConcBag.step] at hstep
    split at hstep
    · cases hstep
      exact List.prefix_rfl
    · cases hstep
  | run t =>
    simp only [ConcBag.step, State.run] at hstep
    split at hstep
    all_goals try split at hstep
    all_goals cases hstep
    all_goals first | exact List.prefix_rfl | exact List.prefix_append _ _

/-- A call of `insert` that has returned in a state takes effect before the calls that are made
later on. -/
theorem insert_before (h : Run (ofFunction ConcBag.step) start as s)
    {bs : List (Action T A)} (h' : Run (ofFunction ConcBag.step) s bs s')
    (hinserts : ∀ t, Action.collect t ∉ as) {i j : Insertion T} (hi : i ∈ calls as)
    (hreturned : s.pending i.thread ≠ some i) (hj : j ∈ s'.linked) (hlater : j ∉ calls as) :
    Before s'.linked i j := by
  have horder := (stacked_run h hinserts).order
  have hgrown : s.linked <+: s'.linked :=
    h'.invariant (I := fun u => s.linked <+: u.linked)
      (fun _ _ _ hu hstep => hu.trans (linked_grows hstep)) List.prefix_rfl
  have hin : i ∈ s.linked := by
    have hmem := mem_ofThread_iff.mpr hi
    rw [horder, List.mem_append, Option.mem_toList] at hmem
    exact mem_ofThread_iff.mp (hmem.resolve_right hreturned)
  have hnot : j ∉ s.linked := by
    intro hj'
    refine hlater (mem_ofThread_iff.mp ?_)
    rw [horder]
    exact List.mem_append_left _ (mem_ofThread_iff.mpr hj')
  exact before_of_grown hgrown hin hj hnot

end ConcBag

end AtomicityViolation
