import AtomicityViolation.Pass.Modules

/-!
# The call of `_init_` is inserted once

One pass object comes to the functions of a module in some order. The first function that the filter
of `function.cpp` admits makes it put the call of `_init_` into `main`, whether it is `main` itself
or not, and set its callees; later functions find the flag set, and no walk inserts or moves a call
of `_init_`. So after any of the functions `main` has one such call, before anything else in its
entry block but PHIs, if one of them was admitted, and nothing was inserted anywhere if none was
(`FunctionCpp.init_once`).
-/

namespace AtomicityViolation

open Weave (Woven forall_of_forall₂)
open Transition (Run)

/-- The position of `main`, which is what `getFunction("main")` finds. -/
def Module.mainIndex (M : Module) : Option ℕ := M.functions.findIdx? fun F => F.name == "main"

/-- A call of `_init_` that was inserted. -/
def Inst.newInit (n : ℕ) (J : Inst) : Bool := decide (n ≤ J.id) && J.calls "_init_"

/-- The number of inserted calls of `_init_` in a block. -/
def initCalls (n : ℕ) (B : Block) : ℕ := B.countP (Inst.newInit n)

/-- The entry block has one inserted call of `_init_`, which is its first instruction that is not a
PHI, and no other block has one. -/
def StartsOnce (n : ℕ) (blocks : List Block) : Prop :=
  ∃ B Bs init rest, blocks = B :: Bs ∧ B.dropWhile Inst.isPhi = init :: rest ∧
    init.newInit n = true ∧ initCalls n B = 1 ∧ ∀ C ∈ Bs, initCalls n C = 0

/-! ## The call is put into `main` -/

/-- The call is put into the first function with the name. -/
theorem initMain_getElem_main {next : ℕ} {Fs Fs' : List Function} (h : initMain next Fs = .ok Fs')
    {j : ℕ} (hj : Fs.findIdx? (fun F => F.name == "main") = some j) {F : Function}
    (hF : Fs[j]? = some F) :
    ∃ blocks, insertInit next F.blocks = .ok blocks ∧ Fs'[j]? = some { F with blocks } := by
  induction Fs generalizing Fs' j with
  | nil => simp at hF
  | cons G Gs ih =>
    rw [List.findIdx?_cons] at hj
    rcases initMain_cons h with ⟨hmain, blocks, hins, rfl⟩ | ⟨hother, Gs', hrest, rfl⟩
    · obtain rfl : 0 = j := by simpa [hmain] using hj
      obtain rfl : G = F := by simpa using hF
      exact ⟨blocks, hins, rfl⟩
    · obtain ⟨k, hk, rfl⟩ : ∃ k, Gs.findIdx? (fun F => F.name == "main") = some k ∧ k + 1 = j := by
        simpa [hother] using hj
      exact ih hrest hk (by simpa using hF)

/-- No other function changes. -/
theorem initMain_getElem_other {next : ℕ} {Fs Fs' : List Function} (h : initMain next Fs = .ok Fs')
    {j : ℕ} (hj : Fs.findIdx? (fun F => F.name == "main") ≠ some j) : Fs'[j]? = Fs[j]? := by
  induction Fs generalizing Fs' j with
  | nil =>
    cases h
    rfl
  | cons G Gs ih =>
    rw [List.findIdx?_cons] at hj
    rcases initMain_cons h with ⟨hmain, blocks, hins, rfl⟩ | ⟨hother, Gs', hrest, rfl⟩
    · cases j with
      | zero => simp [hmain] at hj
      | succ j => rfl
    · cases j with
      | zero => rfl
      | succ j => exact ih hrest (by simpa [hother] using hj)

/-- There is no inserted call in instructions that were there before. -/
theorem initCalls_eq_zero {n : ℕ} {B : Block} (h : ∀ I ∈ B, I.id < n) : initCalls n B = 0 := by
  rw [initCalls, List.countP_eq_zero]
  intro I hI
  have hid := h I hI
  simp only [Inst.newInit, Bool.and_eq_true, decide_eq_true_eq, not_and]
  omega

/-- A body with the call put into it starts with it. -/
theorem startsOnce_insertInit {n : ℕ} {blocks blocks' : List Block}
    (h : insertInit n blocks = .ok blocks') (hbelow : ∀ B ∈ blocks, ∀ I ∈ B, I.id < n) :
    StartsOnce n blocks' := by
  cases blocks with
  | nil => cases h
  | cons B Bs =>
    obtain ⟨hB, hBs⟩ := List.forall_mem_cons.mp hbelow
    unfold insertInit at h
    cases hdrop : B.dropWhile Inst.isPhi with
    | nil => simp [hdrop] at h
    | cons I rest =>
      simp only [hdrop, Except.ok.injEq] at h
      subst h
      have hphis : ∀ J ∈ B.takeWhile Inst.isPhi, J.isPhi = true := fun J hJ =>
        List.mem_takeWhile_imp hJ
      have hnew : Inst.newInit n ⟨n, .void, .call (.direct "_init_") [], I.dbg⟩ = true := by
        simp [Inst.newInit, Inst.calls]
      refine ⟨_, Bs, _, I :: rest, rfl, ?_, hnew, ?_, fun C hC => initCalls_eq_zero (hBs C hC)⟩
      · rw [List.dropWhile_append_of_pos hphis]
        rfl
      · -- The rest of the block was there before.
        have hold : initCalls n (B.takeWhile Inst.isPhi ++ I :: rest) = 0 := by
          rw [← hdrop, List.takeWhile_append_dropWhile]
          exact initCalls_eq_zero hB
        simp only [initCalls, List.countP_append, List.countP_cons, hnew, if_true] at hold ⊢
        omega

/-! ## Walks leave it there -/

/-- What a walk inserts is no call of `_init_`. -/
theorem Inst.Inserted.calls_init {J : Inst} (h : J.Inserted) : J.calls "_init_" = false := by
  cases h with
  | load hop | bitcast hop | structGep hop => simp [Inst.calls, hop]
  | probe hf hop =>
    rw [Inst.calls, hop]
    refine beq_eq_false_iff_ne.mpr fun he => ?_
    rw [he] at hf
    exact absurd hf (by decide)

variable {src : Source} {file : String} {n next : ℕ} {blocks : List Block} {out : ℕ × List Block}

/-- A walk leaves the number of inserted calls as it is. -/
theorem initCalls_woven {B B' : Block} (h : Woven (Around src file next) B B') :
    initCalls n B' = initCalls n B := by
  refine h.countP_eq fun I _ pre post haround => ?_
  have hzero : ∀ insts : List Inst, (∀ J ∈ insts, J ∈ pre ++ post) →
      insts.countP (Inst.newInit n) = 0 := by
    intro insts hsub
    rw [List.countP_eq_zero]
    intro J hJ
    simp [Inst.newInit, (haround.new J (hsub J hJ)).2.calls_init]
  rw [hzero pre fun J hJ => List.mem_append_left _ hJ,
    hzero post fun J hJ => List.mem_append_right _ hJ]
  omega

/-- A body without inserted calls has none after a walk. -/
theorem initCalls_walks (hout : src.Walks file next blocks out)
    (h : ∀ B ∈ blocks, initCalls n B = 0) : ∀ B ∈ out.2, initCalls n B = 0 :=
  forall_of_forall₂ hout.woven (fun _ _ hB hzero => (initCalls_woven hB).trans hzero) h

/-- A body that starts with the call does so after a walk. -/
theorem StartsOnce.walks (h : StartsOnce n blocks) (hout : src.Walks file next blocks out) :
    StartsOnce n out.2 := by
  obtain ⟨B, Bs, init, rest, rfl, hdrop, hnew, hone, hnone⟩ := h
  have hwoven := hout.woven
  obtain ⟨B', Bs', hB, hBs, hout'⟩ := List.forall₂_cons_left_iff.mp hwoven
  have hcalls : init.calls "_init_" = true := by
    simp only [Inst.newInit, Bool.and_eq_true] at hnew
    exact hnew.2
  obtain ⟨rest', hdrop'⟩ := woven_init hB hdrop hcalls
  exact ⟨B', Bs', init, rest', hout', hdrop', hnew, (initCalls_woven hB).trans hone,
    forall_of_forall₂ hBs (fun _ _ hC hzero => (initCalls_woven hC).trans hzero) hnone⟩

/-- What a walk inserts is passed over by another one. -/
theorem FunctionCpp.sound_of_inserted {J : Inst} (h : J.Inserted) : Source.functionCpp.Sound J := by
  obtain ⟨id, ty, op, dbg⟩ := J
  cases h with
  | load hop | bitcast hop | structGep hop | probe _ hop =>
    obtain rfl := hop
    refine ⟨by simp [Source.asksName], fun s hs => ?_⟩
    cases dbg <;> simp [Source.site, site, recognise, Callee.getCalledFunction] at hs

/-- A walk leaves instructions that do not fault. -/
theorem FunctionCpp.sound_walks (hout : Source.functionCpp.Walks file next blocks out)
    (h : ∀ B ∈ blocks, ∀ I ∈ B, Source.functionCpp.Sound I) :
    ∀ B ∈ out.2, ∀ I ∈ B, Source.functionCpp.Sound I :=
  forall_of_forall₂ hout.woven (fun _ _ hB hsound => hB.forall_mem hsound
    fun _ _ _ _ haround J hJ => FunctionCpp.sound_of_inserted (haround.new J hJ).2) h

/-! ## The invariant -/

/-- One of these functions passes the filter of `function.cpp`. -/
def Module.AdmitsSome (M : Module) (is : List ℕ) : Prop :=
  ∃ i ∈ is, ∃ F, M.functions[i]? = some F ∧ FunctionCpp.admits M.name F = true

/-- What the initialisation leaves in the functions of a module: `main` starts with the call, and no
other function has one. -/
structure Placed (M N : Module) : Prop where
  /-- `main` starts with the call. -/
  main : ∀ j F, M.mainIndex = some j → N.functions[j]? = some F → StartsOnce M.next F.blocks
  /-- Other functions have none. -/
  others : ∀ j F, M.mainIndex ≠ some j → N.functions[j]? = some F →
    ∀ B ∈ F.blocks, initCalls M.next B = 0

/-- What holds between the functions of a module. -/
structure Between (M : Module) (s : HelloWorld × Module) : Prop where
  /-- The names, and the state before and after the initialisation. -/
  begun : Begun M s
  /-- Nothing has happened, or the call is in its place. -/
  placed : s = ({}, M) ∨ s.1 = .ready ∧ Placed M s.2
  /-- No instruction is a fault. -/
  sound : ∀ F ∈ s.2.functions, ∀ B ∈ F.blocks, ∀ I ∈ B, Source.functionCpp.Sound I

/-- The initialisation puts the call into its place. -/
theorem placed_initMain {M : Module} {Fs : List Function} (hM : M.WellFormed)
    (h : initMain M.next M.functions = .ok Fs) :
    Placed M { M with functions := Fs, next := M.next + 1 } where
  main := by
    intro j F' hj hF'
    obtain ⟨hlen, -⟩ := List.findIdx?_eq_some_iff_getElem.mp hj
    have hF : M.functions[j]? = some M.functions[j] := List.getElem?_eq_getElem hlen
    obtain ⟨blocks, hins, hget⟩ := initMain_getElem_main h hj hF
    obtain rfl := Option.some.inj (hget.symm.trans hF')
    exact startsOnce_insertInit hins fun B hB I hI =>
      (hM.below _ (List.getElem_mem hlen) B hB I hI).1
  others := by
    intro j F' hj hF' B hB
    have hF : M.functions[j]? = some F' := (initMain_getElem_other h hj).symm.trans hF'
    exact initCalls_eq_zero fun I hI => (hM.below _ (List.mem_of_getElem? hF) B hB I hI).1

/-- The walk of a function leaves the call in its place. -/
theorem Placed.set {M N : Module} (h : Placed M N) {i : ℕ} {F : Function} {next : ℕ}
    (hF : N.functions[i]? = some F) (hout : src.Walks file N.next F.blocks out) :
    Placed M { N with functions := N.functions.set i { F with blocks := out.2 }, next } where
  main := by
    intro j G hj hG
    by_cases hij : i = j
    · subst hij
      rw [List.getElem?_set_self (List.getElem?_eq_some_iff.mp hF).1] at hG
      obtain rfl := Option.some.inj hG
      exact (h.main i F hj hF).walks hout
    · rw [List.getElem?_set_ne hij] at hG
      exact h.main j G hj hG
  others := by
    intro j G hj hG
    by_cases hij : i = j
    · subst hij
      rw [List.getElem?_set_self (List.getElem?_eq_some_iff.mp hF).1] at hG
      obtain rfl := Option.some.inj hG
      exact initCalls_walks hout (h.others i F hj hF)
    · rw [List.getElem?_set_ne hij] at hG
      exact h.others j G hj hG

/-- The initialisation leaves instructions that do not fault. -/
theorem FunctionCpp.sound_initMain {m : ℕ} {Fs Fs' : List Function}
    (h : initMain m Fs = .ok Fs')
    (hsound : ∀ F ∈ Fs, ∀ B ∈ F.blocks, ∀ I ∈ B, Source.functionCpp.Sound I) :
    ∀ F ∈ Fs', ∀ B ∈ F.blocks, ∀ I ∈ B, Source.functionCpp.Sound I := by
  induction Fs generalizing Fs' with
  | nil =>
    cases h
    simp
  | cons G Gs ih =>
    obtain ⟨hG, hGs⟩ := List.forall_mem_cons.mp hsound
    rcases initMain_cons h with ⟨-, blocks, hins, rfl⟩ | ⟨-, Gs', hrest, rfl⟩
    · refine List.forall_mem_cons.mpr ⟨fun B hB I hI => ?_, hGs⟩
      rcases mem_insertInit hins hB hI with hop | ⟨B', hB', hI'⟩
      · exact Source.sound_init hop
      · exact hG B' hB' I hI'
    · exact List.forall_mem_cons.mpr ⟨hG, ih hrest hGs⟩

/-- The instructions of a module with a body replaced do not fault, if those of the body do not. -/
theorem FunctionCpp.sound_set {Fs : List Function} {i : ℕ} {F : Function}
    (h : ∀ F ∈ Fs, ∀ B ∈ F.blocks, ∀ I ∈ B, Source.functionCpp.Sound I)
    (hF : ∀ B ∈ F.blocks, ∀ I ∈ B, Source.functionCpp.Sound I) :
    ∀ G ∈ Fs.set i F, ∀ B ∈ G.blocks, ∀ I ∈ B, Source.functionCpp.Sound I := by
  intro G hG
  rcases List.mem_or_eq_of_mem_set hG with hG | rfl
  · exact h G hG
  · exact hF

/-- When the flag was looked at, the call is in its place and no instruction is a fault. -/
theorem Between.begin {M : Module} {s r : HelloWorld × Module} (hM : M.WellFormed)
    (h : Between M s) (hbegin : s.1.begin s.2 = .ok r) : Placed M r.2 ∧
      ∀ F ∈ r.2.functions, ∀ B ∈ F.blocks, ∀ I ∈ B, Source.functionCpp.Sound I := by
  have hP : s.1 = {} ∨ s.1 = .ready := h.begun.state.imp (congrArg Prod.fst) And.left
  obtain ⟨-, ⟨hready, hr⟩ | ⟨hfresh, Fs, hmain, hr⟩⟩ := HelloWorld.begin_ok hP hbegin
  · -- It was set: nothing changes.
    rw [hr]
    rcases h.placed with rfl | ⟨-, hplaced⟩
    · cases hready
    · exact ⟨hplaced, h.sound⟩
  · -- It was not, so nothing has happened before.
    rcases h.placed with rfl | ⟨hready, -⟩
    · rw [hr]
      exact ⟨placed_initMain hM hmain, FunctionCpp.sound_initMain hmain h.sound⟩
    · rw [hready] at hfresh
      cases hfresh

/-- A run on a function keeps what holds between them. -/
theorem Between.step {M : Module} {s s' : HelloWorld × Module} {i : ℕ} (hM : M.WellFormed)
    (h : Between M s) (hstep : Source.functionCpp.Runs s.1 s.2 i s') : Between M s' := by
  have hbegun := (h.begun.step hstep).1
  have hP : s.1 = {} ∨ s.1 = .ready := h.begun.state.imp (congrArg Prod.fst) And.left
  rcases Source.runs_cases hP hstep with ⟨rfl, -⟩ | ⟨N, F, out, hbegin, hF, hout, rfl⟩
  · exact h
  · obtain ⟨hplaced, hsound⟩ := h.begin hM hbegin
    have hF' := hsound F (List.mem_of_getElem? hF)
    exact ⟨hbegun, .inr ⟨rfl, hplaced.set hF hout⟩,
      FunctionCpp.sound_set hsound (FunctionCpp.sound_walks hout hF')⟩

/-- A run on a function that is admitted or not ends. -/
theorem Between.exists_step {M : Module} {s : HelloWorld × Module} (hM : M.WellFormed)
    (h : Between M s) (i : ℕ) : ∃ s', Source.functionCpp.Runs s.1 s.2 i s' := by
  by_cases hnot : ∀ F, s.2.functions[i]? = some F →
      Source.functionCpp.admits s.2.name F = false
  · exact ⟨_, Source.runs_of_not_admits hnot⟩
  · obtain ⟨F, hF, hadmits⟩ : ∃ F, s.2.functions[i]? = some F ∧
        Source.functionCpp.admits s.2.name F = true := by
      simpa using hnot
    -- The flag was set, or the initialisation finds the entry block of `main`.
    obtain ⟨N, F₁, hbegin, hF₁⟩ : ∃ N F₁, s.1.begin s.2 = .ok (.ready, N) ∧
        N.functions[i]? = some F₁ := by
      rcases h.placed with rfl | ⟨hready, -⟩
      · obtain ⟨Fs, hmain⟩ := @initMain_ok M.next _ hM.main_entry
        obtain ⟨blocks, hget, -⟩ := initMain_getElem hmain hF
        exact ⟨{ M with functions := Fs, next := M.next + 1 }, _,
          by simp [HelloWorld.begin, initialization, hmain], hget⟩
      · exact ⟨s.2, F, by rw [hready]; rfl, hF⟩
    obtain ⟨-, hsound⟩ := h.begin hM hbegin
    obtain ⟨out, hout⟩ := (Source.walks_iff .functionCpp (Source.functionCpp.file F₁) N.next
      F₁.blocks).mpr fun B hB I hI =>
        hsound F₁ (List.mem_of_getElem? hF₁) B hB I (Cursor.mem_of_mem_reached hI)
    exact ⟨_, Source.runs_of_walks hF hadmits hbegin hF₁ hout⟩

/-- The runs over functions from a state that the invariant holds of end, in states that it holds
of. -/
theorem Between.run {M : Module} {s : HelloWorld × Module} (hM : M.WellFormed) (h : Between M s)
    (is : List ℕ) : (∃ s', Source.functionCpp.PassRun s is s') ∧
      ∀ s', Source.functionCpp.PassRun s is s' → Between M s' := by
  refine ⟨?_, fun s' hrun => hrun.invariant (fun _ _ _ hs hstep => hs.step hM hstep) h⟩
  induction is generalizing s with
  | nil => exact ⟨s, .nil s⟩
  | cons i is ih =>
    obtain ⟨s₁, hstep⟩ := h.exists_step hM i
    obtain ⟨s₂, hrest⟩ := ih (h.step hM hstep)
    exact ⟨s₂, .cons hstep hrest⟩

/-! ## After any of the functions -/

/-- A run on a function ends with one state. -/
theorem Source.Runs.unique {P : HelloWorld} {M : Module} {i : ℕ} {r r' : HelloWorld × Module}
    (h : src.Runs P M i r) (h' : src.Runs P M i r') : r = r' := by
  obtain ⟨n, hn⟩ := h
  obtain ⟨n', hn'⟩ := h'
  have hboth := (hn (max n n') (le_max_left n n')).symm.trans (hn' _ (le_max_right n n'))
  exact Option.some.inj (Except.ok.inj hboth)

/-- When no function is admitted, nothing happens. -/
theorem eq_of_not_admitsSome {M : Module} {is : List ℕ} {s : HelloWorld × Module}
    (hnot : ¬ M.AdmitsSome is) (hrun : Source.functionCpp.PassRun ({}, M) is s) : s = ({}, M) := by
  refine hrun.invariant_of_mem (I := fun s => s = ({}, M)) (fun s i t hi hs hstep => ?_) rfl
  subst hs
  refine hstep.unique (Source.runs_of_not_admits fun F hF => ?_)
  exact Bool.eq_false_iff.mpr fun hadmits => hnot ⟨i, hi, F, hF, hadmits⟩

/-- What the pass has done to a module after it came to some of the functions. -/
structure InitOnce (M : Module) (is : List ℕ) (s : HelloWorld × Module) : Prop where
  /-- The functions are those of the module. -/
  headers : s.2.functions.map Function.header = M.functions.map Function.header
  /-- If one was admitted, the entry block of `main` has the one call, before all but PHIs. -/
  main : M.AdmitsSome is → ∀ j F, M.mainIndex = some j → s.2.functions[j]? = some F →
    StartsOnce M.next F.blocks
  /-- If none was, it has none, and no other function ever has one. -/
  others : ∀ j F, (M.mainIndex = some j → ¬ M.AdmitsSome is) → s.2.functions[j]? = some F →
    ∀ B ∈ F.blocks, initCalls M.next B = 0
  /-- Whatever was inserted was inserted with the callees set. -/
  ready : s.2 ≠ M → s.1 = .ready
  /-- The next function that is admitted is walked with the callees set. -/
  callees : ∀ r, s.1.begin s.2 = .ok r →
    r.1.p_probe = some "_probe_" ∧ r.1.p_probe_lock = some "_probe_lock_"

/-- What the invariant says after some of the functions. -/
theorem Between.initOnce {M : Module} {is : List ℕ} {s : HelloWorld × Module} (hM : M.WellFormed)
    (h : Between M s) (hrun : Source.functionCpp.PassRun ({}, M) is s) : InitOnce M is s := by
  -- The flag is set when a function was admitted, and the module is as it was when none was.
  have hbegun : Begun M ({}, M) := ⟨rfl, rfl, .inl rfl⟩
  have hset : M.AdmitsSome is → s.1 = .ready := fun hsome => (hbegun.run hrun).2 (.inr hsome)
  have hplaced : M.AdmitsSome is → Placed M s.2 := by
    intro hsome
    rcases h.placed with rfl | ⟨-, hplaced⟩
    · cases hset hsome
    · exact hplaced
  refine ⟨h.begun.headers, fun hsome => (hplaced hsome).main, ?_, ?_, ?_⟩
  · intro j F hj hF
    by_cases hsome : M.AdmitsSome is
    · exact (hplaced hsome).others j F (fun hmain => hj hmain hsome) hF
    · obtain rfl := eq_of_not_admitsSome hsome hrun
      exact fun B hB => initCalls_eq_zero fun I hI =>
        (hM.below F (List.mem_of_getElem? hF) B hB I hI).1
  · intro hchanged
    rcases h.placed with rfl | ⟨hready, -⟩
    · exact absurd rfl hchanged
    · exact hready
  · intro r hr
    have hP : s.1 = {} ∨ s.1 = .ready := h.begun.state.imp (congrArg Prod.fst) And.left
    have hready : r.1 = .ready := (HelloWorld.begin_ok hP hr).1
    rw [hready]
    exact ⟨rfl, rfl⟩

/-- For a module without debug-located indirect invokes, in whatever order the pass object comes to
its functions: it gets through them, and has inserted one call of `_init_`, at the start of `main`,
if it admitted one of the functions so far, and else none. -/
theorem FunctionCpp.init_once {M : Module} (hM : M.WellFormed)
    (hdirect : ∀ F ∈ M.functions, ∀ B ∈ F.blocks, ∀ I ∈ B, Source.functionCpp.asksName I = true →
      I.indirect = false) (is : List ℕ) :
    (∃ s, Source.functionCpp.PassRun ({}, M) is s) ∧
      ∀ s, Source.functionCpp.PassRun ({}, M) is s → InitOnce M is s := by
  have hstart : Between M ({}, M) :=
    ⟨⟨rfl, rfl, .inl rfl⟩, .inl rfl, fun F hF B hB I hI =>
      ⟨hdirect F hF B hB I hI, hM.operands F hF B hB I hI .functionCpp⟩⟩
  obtain ⟨hends, hall⟩ := hstart.run hM is
  exact ⟨hends, fun s hrun => (hall s hrun).initOnce hM hrun⟩

/-- The `main` that rustc makes for a crate: it calls the one of the crate. -/
def mainFunction : Function where
  name := "main"
  directory := ""
  file := ""
  blocks :=
    [[⟨10, .int 32, .call (.direct "_ZN3std2rt10lang_start17h0f1e2d3c4b5a6978E") [], none⟩,
      ⟨11, .void, .other "ret" [.reg 10 (.int 32)], none⟩]]

/-- A module of `doubleFunction` and `main`. -/
def startModule : Module := ⟨"demo.ll", [doubleFunction, mainFunction], 12⟩

/-- `startModule` is as rustc emits it. -/
theorem startModule_wellFormed : startModule.WellFormed where
  below := by decide
  main_entry := by
    intro F hF hmain
    rcases List.mem_cons.mp hF with rfl | hF
    · exact absurd hmain (by decide)
    · obtain rfl : F = mainFunction := List.mem_singleton.mp hF
      exact ⟨_, _, rfl, _, List.mem_cons_self, rfl⟩
  operands := by
    have h : ∀ F ∈ startModule.functions, ∀ B ∈ F.blocks, ∀ I ∈ B,
        (∀ s, Source.helloWorldCpp.site I = some s → s.hasOperand = true) ∧
          ∀ s, Source.functionCpp.site I = some s → s.hasOperand = true := by decide +kernel
    intro F hF B hB I hI src
    cases src with
    | helloWorldCpp => exact (h F hF B hB I hI).1
    | functionCpp => exact (h F hF B hB I hI).2

/-- `main` of `startModule` is not admitted, and gets its call when the other function is. -/
theorem FunctionCpp.init_once_startModule :
    (∃ s, Source.functionCpp.PassRun ({}, startModule) [1, 0] s) ∧
      ∀ s, Source.functionCpp.PassRun ({}, startModule) [1, 0] s → InitOnce startModule [1, 0] s :=
  FunctionCpp.init_once startModule_wellFormed (by decide) [1, 0]

end AtomicityViolation
