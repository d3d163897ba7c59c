import AtomicityViolation.Pass.Threads

/-!
# Instrumentation preserves programs with threads

Whatever the interleaving, the threads of an instrumented module do what the threads of the module
do: without the steps of inserted instructions a run of them is a run of the original threads, with
the same calls and the same memory after each step. In the other direction the original threads are
followed where the guards at the unlock sites of the admitted functions are in valid memory
(`Linked.guarded`). The inserted code of a thread is then executed between two steps of the others,
so here nothing is asked of what the other threads do (`Source.threads_preserve`).
-/

namespace AtomicityViolation

open Weave (Woven)
open Transition (Run Simulates Procedures Steady Tagged pair pair_nil threadView taggedView)

variable {V M : Type*} {m : Machine V M} {n : ℕ} {src : Source} {file : Option String}
  {blocks blocks' : List Block}

/-- Without the insertions, a swept block is the original one, and its instructions are old ones and
inserted ones. -/
theorem SweptBlock.erased {path : String} {B B' : Block} (h : SweptBlock src path n B B') :
    B'.filter (Inst.old n) = B ∧ ∀ J ∈ B', J.Clean n :=
  ⟨filter_old_swept h.1 h.2, woven_clean (SweptTo.woven h.2) fun I hI => (h.1 I hI).below⟩

/-- A swept block is woven. -/
theorem SweptBlock.woven {path : String} {B B' : Block} (h : SweptBlock src path n B B') :
    (∀ I ∈ B, I.Below n) ∧ Woven (Around src path n) B B' :=
  ⟨fun I hI => (h.1 I hI).below, SweptTo.woven h.2⟩

/-- The next instruction is old. -/
def State.AtOld (n : ℕ) : State V M → Prop
  | .running _ (I :: _) _ => I.id < n
  | _ => False

/-- The step of an old instruction is visible. -/
theorem State.AtOld.visible {t t' : State V M} {e : Event V M} (h : t.AtOld n)
    (hstep : m.Step blocks t e t') : Option.guard (Event.visible n) e = some e := by
  cases hstep <;> simpa [Option.guard, Event.visible, State.AtOld] using h

/-- The steps of code that was there before are visible. -/
theorem State.Old.guard_step {s s' : State V M} {e : Event V M} (h : s.Old n)
    (hblocks : ∀ B ∈ blocks, ∀ I ∈ B, I.id < n) (hstep : m.Step blocks s e s') :
    Option.guard (Event.visible n) e = some e ∧ s'.Old n := by
  have hat : s.AtOld n := by cases hstep <;> exact h _ List.mem_cons_self
  exact ⟨hat.visible hstep, (h.step hblocks hstep).2⟩

/-! ## Runs of the instrumented program are runs of the original -/

/-- An activation and one of the original function are at the same place. -/
inductive Erases (n : ℕ) : Option String → State V M → State V M → Prop
  | admitted {path : String} {s t : State V M} : Matches n s t → t.Clean n →
      Erases n (some path) t s
  | other {s : State V M} : s.Old n → Erases n none s s

/-- Activations at the same place match. -/
theorem Erases.matches {s t : State V M} (h : Erases n file t s) : Matches n s t := by
  cases h with
  | admitted hmatch => exact hmatch
  | other hold => exact hold.matches

/-- They stay at the same place in any memory. -/
theorem Erases.withMem {s t : State V M} (h : Erases n file t s) (mem : M) :
    Erases n file (t.withMem mem) (s.withMem mem) := by
  cases h with
  | other hold => exact .other (hold.withMem mem)
  | admitted hmatch hclean =>
    cases hmatch with
    | running hagree hcode => exact .admitted (.running (hagree.withMem mem) hcode) hclean
    | done v => exact .admitted (.done v mem) trivial

/-- The steps of an activation are steps of the original function, or silent. -/
theorem simulates_original (h : Treated src n file blocks blocks') :
    Simulates (m.Step blocks') (m.Step blocks) (Option.guard (Event.visible n)) some
      (Erases n file) := by
  intro t s e t' herases hstep
  cases h with
  | admitted hblocks =>
    cases herases with
    | admitted hmatch hclean =>
      obtain ⟨es, s', hes, hview, hmatch', hclean'⟩ :=
        simulates_erased (hblocks.imp fun _ _ => SweptBlock.erased) t s e t' ⟨hmatch, hclean⟩ hstep
      exact ⟨es, s', hes, hview, .admitted hmatch' hclean'⟩
  | other hblocks =>
    cases herases with
    | other hold =>
      obtain ⟨hview, hold'⟩ := hold.guard_step hblocks hstep
      exact ⟨[e], t', .single hstep, by rw [hview]; rfl, .other hold'⟩

/-- At an old instruction they are one step. -/
theorem Erases.step_old {s t t' : State V M} {e : Event V M} (h : Erases n file t s)
    (htreated : Treated src n file blocks blocks') (hold : t.AtOld n)
    (hstep : m.Step blocks' t e t') :
    ∃ s', m.Step blocks s e s' ∧ Option.guard (Event.visible n) e = some e ∧
      Erases n file t' s' := by
  have hvisible := hold.visible hstep
  obtain ⟨es, s', hes, hview, herases⟩ := simulates_original htreated t s e t' h hstep
  rw [List.filterMap_some, hvisible, Option.toList_some] at hview
  subst hview
  cases hes with
  | cons hfirst hrest =>
    cases hrest with
    | nil => exact ⟨s', hfirst, hvisible, herases⟩

variable {L : Linked V M} {f : Call V M}

/-- At a call of a function of the module the original is at the same call. -/
theorem Erases.call {s t : State V M} (h : Erases n file t s) (hcall : L.AtCall t f) :
    L.AtCall s f ∧ t.AtOld n := by
  obtain ⟨cur, I, code, τ, rfl⟩ : ∃ cur I code τ, t = .running cur (I :: code) τ := by
    rcases t with ⟨cur, _ | ⟨I, code⟩, τ⟩ | _
    · exact absurd hcall not_false
    · exact ⟨cur, I, code, τ, rfl⟩
    · exact absurd hcall not_false
  cases h with
  | other hold => exact ⟨hcall, hold I List.mem_cons_self⟩
  | admitted hmatch hclean =>
    obtain ⟨σ, hagree, ⟨hI, rfl⟩ | ⟨-, hins, -⟩⟩ := hmatch.head (hclean I List.mem_cons_self)
    · exact ⟨hcall.congr hI hagree.symm, hI.1⟩
    · exact absurd hcall (Linked.not_atCall_of_inserted hins)

/-- Activations start at the same place. -/
theorem Treated.erases_enter (h : Treated src n file blocks blocks') {k : ℕ} {B' : Block}
    (hB' : blocks'[k]? = some B') (regs : ℕ → V) (mem : M) :
    ∃ B, blocks[k]? = some B ∧
      Erases n file (.enter B' 0 k regs mem) (.enter B 0 k regs mem) := by
  cases h with
  | admitted hblocks =>
    obtain ⟨B, hB, hswept⟩ := exists_getElem_left hblocks hB'
    obtain ⟨hfilter, hclean⟩ := hswept.erased
    exact ⟨B, hB, .admitted (.running ⟨fun _ _ => rfl, fun _ _ => rfl, rfl, rfl⟩ hfilter) hclean⟩
  | other hblocks => exact ⟨B', hB', .other (hblocks B' (List.mem_of_getElem? hB'))⟩

variable {ns : ℕ → ℕ} {files : ℕ → Option String} {bodies bodies' : ℕ → List Block}

/-- The program is executed as the original says. -/
theorem Linked.procedures_preserved
    (h : ∀ i, Treated src (ns i) (files i) (bodies i) (bodies' i)) :
    (L.procedures bodies').Simulated (L.procedures bodies)
      (taggedView fun i => Option.guard (Event.visible (ns i))) (taggedView fun _ => some)
      (fun t s => s.1 = t.1 ∧ Erases (ns t.1) (files t.1) t.2 s.2)
      fun t s => s.1 = t.1 ∧ Erases (ns t.1) (files t.1) t.2 s.2 ∧ t.2.AtOld (ns t.1) where
  step := Simulates.tagged fun i => simulates_original (h i)
  call := by
    rintro ⟨i, t⟩ ⟨j, s⟩ f ⟨hj, herases⟩ hcall
    obtain rfl : i = j := hj.symm
    obtain ⟨hcall', hold⟩ := herases.call hcall
    exact ⟨[], (i, s), .nil _, rfl, hcall', rfl, herases, hold⟩
  start := by
    rintro f ⟨i, t⟩ ⟨rfl, B', hB', rfl⟩
    obtain ⟨B, hB, herases⟩ := (h f.callee).erases_enter hB' (L.entry f.callee f.args) f.mem
    exact ⟨(f.callee, _), ⟨rfl, B, hB, rfl⟩, rfl, herases⟩
  finish := by
    rintro ⟨i, t⟩ ⟨j, s⟩ r ⟨hj, herases⟩ ⟨v, mem, rfl, rfl⟩
    refine ⟨v, mem, ?_, rfl⟩
    cases herases.matches with
    | done => rfl
  resume := by
    rintro ⟨i, t⟩ ⟨j, s⟩ r ⟨k, e⟩ ⟨l, t'⟩ ⟨hj, herases, hold⟩ ⟨hk, hl, hstep⟩
    obtain rfl : i = j := hj.symm
    obtain rfl : i = k := hk.symm
    obtain rfl : i = l := hl.symm
    obtain ⟨s', hs', hview, herases'⟩ := herases.step_old (h i) hold hstep
    refine ⟨(i, e), (i, s'), ⟨rfl, rfl, hs'⟩, ?_, rfl, herases'⟩
    simp only [taggedView]
    rw [hview]

/-! ## Runs of the original program are runs of the instrumented one -/

/-- At an unlock site of a function that the pass admits, the guard that the walk reads is in valid
memory. -/
def State.Guarded (m : Machine V M) (src : Source) (file : Option String) (s : State V M) : Prop :=
  file.isSome = true → m.GuardsValid src s

/-- The functions of a module, where guards are in valid memory. -/
def Linked.guarded (L : Linked V M) (src : Source) (files : ℕ → Option String)
    (bodies : ℕ → List Block) :
    Procedures (ℕ × State V M) (ℕ × Event V M) (Call V M) (CallResult V M) where
  __ := L.procedures bodies
  step := Tagged fun i s e s' => L.external.Step (bodies i) s e s' ∧
    s.Guarded L.machine src (files i)
  calls s f := L.AtCall s.2 f ∧ s.2.Guarded L.machine src (files s.1)

/-- An activation of the original function and one of the instrumented function are at the same
instruction, but for what stood behind the one before it. -/
inductive Weaves (m : Machine V M) (src : Source) (n : ℕ) (blocks' : List Block) :
    Option String → State V M → State V M → Prop
  | admitted {path : String} {s t : State V M} : Aligned m src path n blocks' s t →
      Weaves m src n blocks' (some path) s t
  | other {s : State V M} : s.Old n → Weaves m src n blocks' none s s

/-- The two are at the same instruction, and all that stands before it was executed. -/
inductive Stands (m : Machine V M) (src : Source) (n : ℕ) (blocks' : List Block) :
    Option String → State V M → State V M → Prop
  | admitted {path : String} {cur : ℕ} {I : Inst} {code post ys : Block} {σ τ : Frame V M} :
      σ.Agree n τ → (∀ J ∈ I :: code, J.Below n) → (∀ J ∈ post, n ≤ J.id) →
      (∀ τ, ∃ τ', m.Skips blocks' n post τ τ') → Woven (Around src path n) code ys →
      Stands m src n blocks' (some path) (.running cur (I :: code) σ)
        (.running cur (I :: (post ++ ys)) τ)
  | other {s : State V M} : s.Old n → Stands m src n blocks' none s s

/-- Activations at the same instruction match. -/
theorem Weaves.matches {s t : State V M} (h : Weaves m src n blocks' file s t) :
    Matches n s t := by
  cases h with
  | admitted haligned => exact haligned.matches
  | other hold => exact hold.matches

/-- So they do where all before it was executed. -/
theorem Stands.matches {s t : State V M} (h : Stands m src n blocks' file s t) :
    Matches n s t := by
  cases h with
  | other hold => exact hold.matches
  | @admitted _ _ I code post ys _ _ hagree hbelow hpost _ hwoven =>
    obtain ⟨hI, hcode⟩ := List.forall_mem_cons.mp hbelow
    refine .running hagree ?_
    have hold : Inst.old n I = true := by simpa [Inst.old] using hI.1
    have hnil : post.filter (Inst.old n) = [] := by simpa [Inst.old] using hpost
    rw [List.filter_cons_of_pos hold, List.filter_append, hnil, woven_filter_old hwoven hcode,
      List.nil_append]

/-- They stay at the same instruction in any memory. -/
theorem Weaves.withMem {s t : State V M} (h : Weaves m src n blocks' file s t) (mem : M) :
    Weaves m src n blocks' file (s.withMem mem) (t.withMem mem) := by
  cases h with
  | other hold => exact .other (hold.withMem mem)
  | admitted haligned =>
    cases haligned with
    | running hagree hbelow hbehind hskips hwoven =>
      exact .admitted (.running (hagree.withMem mem) hbelow hbehind hskips hwoven)
    | done v => exact .admitted (.done v mem)

/-- The steps of the original function, where its guards are valid, are steps of the activation. -/
theorem simulates_instrumented (h : Treated src n file blocks blocks') :
    Simulates (fun s e s' => m.Step blocks s e s' ∧ s.Guarded m src file) (m.Step blocks') some
      (Option.guard (Event.visible n)) (Weaves m src n blocks' file) := by
  rintro s t e s' hweaves ⟨hstep, hguarded⟩
  cases h with
  | admitted hblocks =>
    cases hweaves with
    | admitted haligned =>
      obtain ⟨es, t', hes, hview, haligned'⟩ :=
        simulates_woven (hblocks.imp fun _ _ => SweptBlock.woven) s t e s' haligned
          ⟨hstep, hguarded rfl⟩
      exact ⟨es, t', hes, hview, .admitted haligned'⟩
  | other hblocks =>
    cases hweaves with
    | other hold =>
      obtain ⟨hview, hold'⟩ := hold.guard_step hblocks hstep
      exact ⟨[e], s', .single hstep, by simp [hview], .other hold'⟩

/-- What stands before the instruction is executed. -/
theorem Aligned.reach {path : String} {cur : ℕ} {I : Inst} {code : Block} {σ : Frame V M}
    {t : State V M} (h : Aligned m src path n blocks' (.running cur (I :: code) σ) t)
    (hvalid : m.GuardsValid src (.running cur (I :: code) σ)) :
    ∃ es t', Run (m.Step blocks') t es t' ∧ (∀ e ∈ es, n ≤ e.id) ∧
      Stands m src n blocks' (some path) (.running cur (I :: code) σ) t' := by
  cases h with
  | @running _ _ behind _ _ τ hagree hbelow hbehind hskips hwoven =>
    cases hwoven with
    | @cons _ pre post _ ys haround hwoven =>
      have hI := hbelow I List.mem_cons_self
      -- What stood behind the instruction before and what stands before this one is passed over.
      obtain ⟨τ₁, h₁⟩ := hskips τ
      obtain ⟨τ₂, h₂⟩ : ∃ τ₂, m.Skips blocks' n pre τ₁ τ₂ :=
        Machine.skips_pre haround hI (hagree.trans h₁.agree) hvalid
      have hskip := h₁.append h₂
      obtain ⟨es, hes, hnew⟩ := hskip.run cur (I :: (post ++ ys))
      rw [List.append_assoc] at hes
      exact ⟨es, _, hes, hnew, .admitted (hagree.trans hskip.agree) hbelow
        (fun J hJ => (haround.new J (List.mem_append_right _ hJ)).1) (Machine.skips_post haround)
        hwoven⟩

/-- Before a call of a function of the module the activation comes to the same call. -/
theorem Weaves.call {s t : State V M} (h : Weaves L.external src n blocks' file s t)
    (hcall : L.AtCall s f) (hguarded : s.Guarded L.machine src file) :
    ∃ es t', Run (L.external.Step blocks') t es t' ∧
      es.filterMap (Option.guard (Event.visible n)) = [] ∧ L.AtCall t' f ∧
      Stands L.external src n blocks' file s t' := by
  cases h with
  | other hold => exact ⟨[], s, .nil s, rfl, hcall, .other hold⟩
  | admitted haligned =>
    obtain ⟨cur, I, code, σ, rfl⟩ : ∃ cur I code σ, s = .running cur (I :: code) σ := by
      rcases s with ⟨cur, _ | ⟨I, code⟩, σ⟩ | _
      · exact absurd hcall not_false
      · exact ⟨cur, I, code, σ, rfl⟩
      · exact absurd hcall not_false
    obtain ⟨es, t', hes, hnew, hstands⟩ := haligned.reach (hguarded rfl)
    refine ⟨es, t', hes, filterMap_guard_new hnew, ?_, hstands⟩
    cases hstands with
    | admitted hagree hbelow => exact hcall.congr (hbelow I List.mem_cons_self) hagree

/-- The caller goes on with the result of a call. -/
theorem Stands.resume {s s' t : State V M} {r : CallResult V M} {e : Event V M}
    (h : Stands L.external src n blocks' file s t) (htreated : Treated src n file blocks blocks')
    (hstep : (L.answering r).Step blocks s e s') :
    ∃ t', (L.answering r).Step blocks' t e t' ∧ Option.guard (Event.visible n) e = some e ∧
      Weaves L.external src n blocks' file s' t' := by
  cases htreated with
  | @admitted path _ _ hblocks =>
    cases h with
    | @admitted _ cur I code post ys σ τ hagree hbelow hpost hskips hwoven =>
      obtain ⟨hI, hcode⟩ := List.forall_mem_cons.mp hbelow
      have hwovens := hblocks.imp fun _ _ => SweptBlock.woven
      obtain ⟨t', ht', hlands⟩ : ∃ t', (L.answering r).Step blocks'
          (.running cur (I :: (post ++ ys)) τ) e t' ∧
            Lands n (fun B B' => (∀ I ∈ B, I.Below n) ∧ Woven (Around src path n) B B') cur I.id
              code (post ++ ys) σ τ e s' t' :=
        hstep.transfer hI hagree fun k B hB => exists_getElem_right hwovens hB
      have hat : (State.running cur (I :: (post ++ ys)) τ).AtOld n := hI.1
      refine ⟨t', ht', hat.visible ht', .admitted ?_⟩
      cases hlands with
      | stay v mem => exact .running (hagree.set _ _ _) hcode hpost hskips hwoven
      | enter v mem hB => exact .enter (hagree.regs.set _ _) hB.1 hB.2
      | done v mem => exact .done v mem
  | other hblocks =>
    cases h with
    | other hold =>
      obtain ⟨hview, hold'⟩ := hold.guard_step hblocks hstep
      exact ⟨_, hstep, hview, .other hold'⟩

/-- Activations start at the same instruction. -/
theorem Treated.weaves_enter (h : Treated src n file blocks blocks') {k : ℕ} {B : Block}
    (hB : blocks[k]? = some B) (regs : ℕ → V) (mem : M) :
    ∃ B', blocks'[k]? = some B' ∧
      Weaves m src n blocks' file (.enter B 0 k regs mem) (.enter B' 0 k regs mem) := by
  cases h with
  | admitted hblocks =>
    obtain ⟨B', hB', hswept⟩ := exists_getElem_right hblocks hB
    obtain ⟨hbelow, hwoven⟩ := hswept.woven
    exact ⟨B', hB', .admitted (.enter (fun _ _ => rfl) hbelow hwoven)⟩
  | other hblocks => exact ⟨B, hB, .other (hblocks B (List.mem_of_getElem? hB))⟩

/-- The original is executed by the program where its guards are in valid memory. -/
theorem Linked.guarded_preserved (h : ∀ i, Treated src (ns i) (files i) (bodies i) (bodies' i)) :
    (L.guarded src files bodies).Simulated (L.procedures bodies')
      (taggedView fun _ => some) (taggedView fun i => Option.guard (Event.visible (ns i)))
      (fun s t => t.1 = s.1 ∧ Weaves L.external src (ns s.1) (bodies' s.1) (files s.1) s.2 t.2)
      fun s t => t.1 = s.1 ∧
        Stands L.external src (ns s.1) (bodies' s.1) (files s.1) s.2 t.2 where
  step := Simulates.tagged fun i => simulates_instrumented (m := L.external) (h i)
  call := by
    rintro ⟨i, s⟩ ⟨j, t⟩ f ⟨hj, hweaves⟩ ⟨hcall, hguarded⟩
    obtain rfl : i = j := hj.symm
    obtain ⟨es, t', hes, hview, hcall', hstands⟩ := hweaves.call hcall hguarded
    have hrun : Run (Tagged fun i => L.external.Step (bodies' i)) (i, t) (es.map (i, ·)) (i, t') :=
      Run.tagged hes
    refine ⟨es.map (i, ·), (i, t'), hrun, ?_, hcall', rfl, hstands⟩
    calc (es.map (i, ·)).filterMap (taggedView fun i => Option.guard (Event.visible (ns i)))
        = (es.filterMap (Option.guard (Event.visible (ns i)))).map (i, ·) := by
          rw [List.filterMap_map, List.map_filterMap]; rfl
      _ = [] := by rw [hview, List.map_nil]
  start := by
    rintro f ⟨i, s⟩ ⟨rfl, B, hB, rfl⟩
    obtain ⟨B', hB', hweaves⟩ := (h f.callee).weaves_enter hB (L.entry f.callee f.args) f.mem
    exact ⟨(f.callee, _), ⟨rfl, B', hB', rfl⟩, rfl, hweaves⟩
  finish := by
    rintro ⟨i, s⟩ ⟨j, t⟩ r ⟨hj, hweaves⟩ ⟨v, mem, rfl, rfl⟩
    refine ⟨v, mem, ?_, rfl⟩
    cases hweaves.matches with
    | done => rfl
  resume := by
    rintro ⟨i, s⟩ ⟨j, t⟩ r ⟨k, e⟩ ⟨l, s'⟩ ⟨hj, hstands⟩ ⟨hk, hl, hstep⟩
    obtain rfl : i = j := hj.symm
    obtain rfl : i = k := hk.symm
    obtain rfl : i = l := hl.symm
    obtain ⟨t', ht', hview, hweaves⟩ := hstands.resume (h i) hstep
    refine ⟨(i, e), (i, t'), ⟨rfl, rfl, ht'⟩, ?_, rfl, hweaves⟩
    simp only [taggedView]
    rw [hview]

/-! ## Threads -/

/-- Activations stay at the same places as those of the original. -/
theorem Linked.steady_erases : Steady State.memory State.memory
    (fun t s : ℕ × State V M => s.1 = t.1 ∧ Erases (ns t.1) (files t.1) t.2 s.2)
    fun _ _ => True where
  get h := h.2.matches.mem
  put h _ := ⟨h.1, h.2.withMem _⟩

/-- Activations of the original stay at the same instructions as those of the program. -/
theorem Linked.steady_weaves : Steady State.memory State.memory
    (fun s t => t.1 = s.1 ∧ Weaves L.external src (ns s.1) (bodies' s.1) (files s.1) s.2 t.2)
    fun _ _ => True where
  get h := h.2.matches.mem.symm
  put h _ := ⟨h.1, h.2.withMem _⟩

/-- Instrumentation preserves programs with threads. `N` is the module after the initialisation, or
the module itself where the pass admits none of its functions, and `ns` has the first identity that
is new in each function, so that `N` is what remains without the new instructions. Any number of
threads may start, at any time and with any call, and the calls may be of any depth. Under every
interleaving, a run of the instrumented program is, without the steps of new instructions, a run of
the original one, with the same calls, branches and memories in the same order; and a run of the
original one, in which the guards at the unlock sites of the admitted functions are in valid memory,
is one of the instrumented program. The runs end with the same memory and with activations that are
at the same places. -/
theorem Source.threads_preserve {V Mem ι : Type*} [DecidableEq ι] (L : Linked V Mem)
    (src : Source) (M M' : Module) (hM : M.Proper) (h : src.Instrumented M M') :
    ∃ (N : Module) (ns : ℕ → ℕ), (N = M ∧ (∀ i ∈ M.defined, M.fileAt src i = none) ∨
        initialization M = .ok (.ready, N)) ∧
      (∀ i, (M'.bodyAt i).map (List.filter (Inst.old (ns i))) = N.bodyAt i) ∧
      (L.procedures M'.bodyAt).AnswersThreads ι (L.procedures N.bodyAt) State.memory State.memory
        (fun _ _ => True) (taggedView fun i => Option.guard (Event.visible (ns i)))
        (taggedView fun _ => some) (fun t s => s.1 = t.1 ∧ Matches (ns t.1) s.2 t.2) ∧
      (L.guarded src (N.fileAt src) N.bodyAt).AnswersThreads ι (L.procedures M'.bodyAt)
        State.memory State.memory (fun _ _ => True) (taggedView fun _ => some)
        (taggedView fun i => Option.guard (Event.visible (ns i)))
        fun s t => t.1 = s.1 ∧ Matches (ns s.1) s.2 t.2 := by
  obtain ⟨N, ns, hN, htreated⟩ := h.treated hM
  exact ⟨N, ns, hN, fun i => (htreated i).erase,
    (L.procedures_preserved htreated).answersThreads Linked.steady_erases
      (fun _ _ h => ⟨h.1, h.2.matches⟩) fun _ _ h => ⟨h.1, h.2.1.matches⟩,
    (L.guarded_preserved htreated).answersThreads Linked.steady_weaves
      (fun _ _ h => ⟨h.1, h.2.matches⟩) fun _ _ h => ⟨h.1, h.2.matches⟩⟩

/-- Two threads call `set`, and their steps take turns. -/
def setRun : List (ℕ × ((ℕ × Event ℕ (ℕ → Option ℕ)) ⊕ Call ℕ (ℕ → Option ℕ))) :=
  [(0, .inr ⟨0, [16], flagMem 0⟩), (1, .inr ⟨0, [16], flagMem 0⟩),
    (0, .inl (0, ⟨1, none, none, raisedMem⟩)), (1, .inl (0, ⟨1, none, none, raisedMem⟩)),
    (0, .inl (0, ⟨2, none, none, raisedMem⟩)), (1, .inl (0, ⟨2, none, none, raisedMem⟩))]

/-- A step of an activation of `set` at an instruction that is no lock operation. -/
theorem guarded_set {cur : ℕ} {I : Inst} {code : Block} {σ : Frame ℕ (ℕ → Option ℕ)}
    {s : State ℕ (ℕ → Option ℕ)} {e : Event ℕ (ℕ → Option ℕ)}
    (hstep : flagLinked.external.Step (flagModule.bodyAt 0) (.running cur (I :: code) σ) e s)
    (hsite : Source.helloWorldCpp.site I = none) :
    (flagLinked.guarded .helloWorldCpp flagFiles flagModule.bodyAt).step
      (0, .running cur (I :: code) σ) (0, e) (0, s) :=
  ⟨rfl, rfl, hstep, fun _ site hs => by rw [hsite] at hs; cases hs⟩

/-- The two threads of the original crate. -/
theorem run_set : Run ((flagLinked.guarded .helloWorldCpp flagFiles flagModule.bodyAt).Interleaved
      State.memory) (fun _ => [], flagMem 0) setRun
    (pair [(0, .done (some 0) raisedMem)] [(0, .done (some 0) raisedMem)], raisedMem) := by
  have hstart : (flagLinked.guarded .helloWorldCpp flagFiles flagModule.bodyAt).starts
      ⟨0, [16], flagMem 0⟩ (0, (flagStart 0 setBlock (flagMem 0)).2.1) := ⟨rfl, ⟨_, rfl, rfl⟩⟩
  rw [← pair_nil]
  refine .cons (.start_zero hstart rfl) (.cons (.start_one hstart rfl) ?_)
  refine .cons (.step_zero (.step (guarded_set (.next (.store rfl rfl)) rfl))) ?_
  refine .cons (.step_one (.step (guarded_set
    (.next (.store rfl (congrArg some update_raisedMem))) rfl))) ?_
  refine .cons (.step_zero (.step (guarded_set (.exit (.other rfl ⟨rfl, rfl⟩)) rfl))) ?_
  exact .single (.step_one (.step (guarded_set (.exit (.other rfl ⟨rfl, rfl⟩)) rfl)))

/-- The crate, instrumented by `HelloWorld.cpp`: what two threads of the original do that call
`set`, threads of the instrumented crate do, and what these do, threads of the original do. -/
theorem Source.threads_preserve_flagModule : ∃ (N : Module) (ns : ℕ → ℕ),
    (∀ i, (flagOut.bodyAt i).map (List.filter (Inst.old (ns i))) = N.bodyAt i) ∧
    (∃ bs Y, Run ((flagLinked.procedures flagOut.bodyAt).Interleaved State.memory)
        (fun _ => [], flagMem 0) bs Y ∧
      bs.filterMap (threadView (taggedView fun i => Option.guard (Event.visible (ns i)))) =
        setRun ∧ Y.2 = raisedMem) ∧
    (flagLinked.procedures flagOut.bodyAt).AnswersThreads ℕ (flagLinked.procedures N.bodyAt)
      State.memory State.memory (fun _ _ => True)
      (taggedView fun i => Option.guard (Event.visible (ns i))) (taggedView fun _ => some)
      fun t s => s.1 = t.1 ∧ Matches (ns t.1) s.2 t.2 := by
  obtain ⟨N, ns, hN, herase, hback, hforth⟩ := Source.threads_preserve (ι := ℕ) flagLinked
    .helloWorldCpp flagModule flagOut flagModule_proper flag_instrumented
  obtain ⟨hfiles, hbodies⟩ := flagModule_initialised hN
  refine ⟨N, ns, herase, ?_, hback⟩
  rw [hfiles, hbodies] at hforth
  have hcalm : Run ((flagLinked.guarded .helloWorldCpp flagFiles flagModule.bodyAt).Calmly
      State.memory fun _ _ => True) (fun _ => [], flagMem 0) setRun _ :=
    run_set.mono fun _ _ _ h => ⟨h, fun _ _ _ _ _ => trivial⟩
  obtain ⟨bs, Y, hbs, hview, hmem, -⟩ := hforth _ _ _ hcalm
  exact ⟨bs, Y, hbs, hview, hmem⟩

end AtomicityViolation
