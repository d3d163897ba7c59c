import AtomicityViolation.Pass.Initial
import AtomicityViolation.Pass.Program

/-!
# An instrumented module records

The pass comes to the functions of a module one after another and numbers what it inserts through
the whole module, so what is new in a function depends on those before it. When it has been on all
of them, each body is what it makes of the body after the initialisation (`Underway`), and the
program of the module is its recorder (`Source.module_records`).
-/

namespace AtomicityViolation

open Transition (Run Procedures stackView taggedView)

variable {src : Source} {n : ℕ}

/-- The body of a function of a module, by its position. -/
def Module.bodyAt (N : Module) (i : ℕ) : List Block :=
  (N.functions[i]?.map Function.blocks).getD []

/-- The files of the functions that the pass admits. -/
def Module.fileAt (src : Source) (N : Module) (i : ℕ) : Option String :=
  N.functions[i]?.bind fun F => if src.admits N.name F then some (src.file F) else none

/-- The functions are as the front end makes them. -/
def Module.Proper (N : Module) : Prop :=
  ∀ F ∈ N.functions, ∀ B ∈ F.blocks, ∀ I ∈ B, I.Proper N.next

/-- What the pass has made of a module when it has been on the functions in `done`. -/
structure Underway (src : Source) (N : Module) (done : List ℕ) (N' : Module) : Prop where
  name : N'.name = N.name
  next : N.next ≤ N'.next
  length : N'.functions.length = N.functions.length
  /-- It has treated these functions, and the others are as they were. -/
  functions : ∀ (i : ℕ) (F : Function), N.functions[i]? = some F →
    ∃ blocks, N'.functions[i]? = some { F with blocks } ∧
      (i ∈ done → ∃ k, Treated src k (N.fileAt src i) F.blocks blocks) ∧
      (i ∉ done → blocks = F.blocks)

/-- The pass when it has been on the functions in `done`: it admitted none of them, or it
initialised the module and then went on. -/
def Midway (src : Source) (M : Module) (done : List ℕ) (s : HelloWorld × Module) : Prop :=
  s = ({}, M) ∧ (∀ i ∈ done, M.fileAt src i = none) ∨
    s.1 = .ready ∧ ∃ N, initialization M = .ok (.ready, N) ∧ Underway src N done s.2

/-! ## The initialised module -/

/-- Proper instructions stay so. -/
theorem Inst.Proper.mono {I : Inst} {k : ℕ} (h : I.Proper n) (hk : n ≤ k) : I.Proper k where
  below := ⟨lt_of_lt_of_le h.below.1 hk, fun r hr => lt_of_lt_of_le (h.below.2 r hr) hk⟩
  load := h.load

/-- With the call of `_init_` a body is proper. -/
theorem insertInit_proper {next : ℕ} {body body' : List Block}
    (h : insertInit next body = .ok body') (hbody : ∀ B ∈ body, ∀ I ∈ B, I.Proper next) :
    ∀ B ∈ body', ∀ I ∈ B, I.Proper (next + 1) := by
  obtain ⟨phis, I, rest, Bs, rfl, rfl⟩ := insertInit_eq h
  obtain ⟨hentry, hBs⟩ := List.forall_mem_cons.mp hbody
  have hmono : ∀ J : Inst, J.Proper next → J.Proper (next + 1) := fun J hJ => hJ.mono next.le_succ
  refine List.forall_mem_cons.mpr ⟨fun J hJ => ?_, fun B hB J hJ => hmono J (hBs B hB J hJ)⟩
  rcases List.mem_append.mp hJ with hJ | hJ
  · exact hmono J (hentry J (List.mem_append_left _ hJ))
  · rcases List.mem_cons.mp hJ with rfl | hJ
    · exact ⟨⟨next.lt_succ_self, by simp [Opcode.regs, Callee.regs]⟩, fun ptr hop => by cases hop⟩
    · exact hmono J (hentry J (List.mem_append_right _ hJ))

/-- Initialisation keeps the functions proper. -/
theorem initMain_proper {next : ℕ} {Fs Fs' : List Function} (h : initMain next Fs = .ok Fs')
    (hFs : ∀ F ∈ Fs, ∀ B ∈ F.blocks, ∀ I ∈ B, I.Proper next) :
    ∀ F ∈ Fs', ∀ B ∈ F.blocks, ∀ I ∈ B, I.Proper (next + 1) := by
  induction Fs generalizing Fs' with
  | nil =>
    cases h
    simp
  | cons G Gs ih =>
    obtain ⟨hG, hGs⟩ := List.forall_mem_cons.mp hFs
    rcases initMain_cons h with ⟨-, blocks, hins, rfl⟩ | ⟨-, Gs', hrest, rfl⟩
    · exact List.forall_mem_cons.mpr ⟨insertInit_proper hins hG,
        fun F hF B hB I hI => (hGs F hF B hB I hI).mono next.le_succ⟩
    · exact List.forall_mem_cons.mpr
        ⟨fun B hB I hI => (hG B hB I hI).mono next.le_succ, ih hrest hGs⟩

/-- What the initialised module is. -/
theorem initialization_ok {M N : Module} (h : initialization M = .ok (.ready, N)) :
    ∃ Fs, initMain M.next M.functions = .ok Fs ∧
      N = { M with functions := Fs, next := M.next + 1 } := by
  unfold initialization at h
  cases hmain : initMain M.next M.functions with
  | error e => simp [hmain] at h
  | ok Fs =>
    simp only [hmain, Except.ok.injEq, Prod.mk.injEq, true_and] at h
    exact ⟨Fs, rfl, h.symm⟩

/-- The initialised module has proper functions. -/
theorem Module.Proper.initialized {M N : Module} (hM : M.Proper)
    (h : initialization M = .ok (.ready, N)) : N.Proper := by
  obtain ⟨Fs, hmain, rfl⟩ := initialization_ok h
  exact initMain_proper hmain hM

/-- The pass admits the same functions after the initialisation. -/
theorem fileAt_initialization {M N : Module} (h : initialization M = .ok (.ready, N)) :
    N.fileAt src = M.fileAt src := by
  obtain ⟨Fs, hmain, rfl⟩ := initialization_ok h
  funext i
  have hheaders := congrArg (fun l => l[i]?) (initMain_headers hmain)
  simp only [List.getElem?_map] at hheaders
  unfold Module.fileAt
  cases hF : M.functions[i]? with
  | none => simp_all
  | some F =>
    obtain ⟨blocks, hget, -⟩ := initMain_getElem hmain hF
    simp only [hget, Option.bind_some]
    cases src <;> rfl

/-! ## The functions one after another -/

/-- A body that the pass does not admit is treated as it is. -/
theorem Module.Proper.treated {N : Module} (hN : N.Proper) {i : ℕ} {F : Function}
    (hF : N.functions[i]? = some F) (hfile : N.fileAt src i = none) :
    Treated src N.next (N.fileAt src i) F.blocks F.blocks := by
  rw [hfile]
  exact .other fun B hB I hI => (hN F (List.mem_of_getElem? hF) B hB I hI).below.1

/-- The walk numbers upwards. -/
theorem Source.Walks.next_le {file : String} {next : ℕ} {blocks : List Block}
    {out : ℕ × List Block} (h : src.Walks file next blocks out) : next ≤ out.1 :=
  (Cursor.sweepAll_woven (src.visits file next) le_rfl
    ((src.settles file).ends_iff_sweepAll.mp h)).1

/-- Where the pass does not admit the functions that it was on, the module is as it was. -/
theorem Underway.of_none {N : Module} {done : List ℕ} (hN : N.Proper)
    (hnone : ∀ i ∈ done, N.fileAt src i = none) : Underway src N done N where
  name := rfl
  next := le_rfl
  length := rfl
  functions i F hF := ⟨F.blocks, hF, fun hi => ⟨N.next, hN.treated hF (hnone i hi)⟩, fun _ => rfl⟩

/-- A run of the pass on a function that it does not admit leaves it. -/
theorem Underway.pass {N N₁ : Module} {done : List ℕ} {i : ℕ} (hN : N.Proper)
    (h : Underway src N done N₁) (hi : i ∉ done) (hfile : N.fileAt src i = none) :
    Underway src N (done ++ [i]) N₁ where
  name := h.name
  next := h.next
  length := h.length
  functions := by
    intro j G hG
    obtain ⟨blocks, hget, htreated, hsame⟩ := h.functions j G hG
    refine ⟨blocks, hget, fun hj => ?_, fun hj => hsame fun hdone => hj (by simp [hdone])⟩
    rcases List.mem_append.mp hj with hdone | hj
    · exact htreated hdone
    · obtain rfl : j = i := List.mem_singleton.mp hj
      obtain rfl : blocks = G.blocks := hsame hi
      exact ⟨N.next, hN.treated hG hfile⟩

/-- A run of the pass on a function that it admits treats it. -/
theorem Underway.walk {N N₁ : Module} {done : List ℕ} {i : ℕ} {F : Function}
    {out : ℕ × List Block} (hN : N.Proper) (h : Underway src N done N₁) (hi : i ∉ done)
    (hF : N₁.functions[i]? = some F) (hadmits : src.admits N₁.name F = true)
    (hout : src.Walks (src.file F) N₁.next F.blocks out) :
    Underway src N (done ++ [i]) { N₁ with
      functions := N₁.functions.set i { F with blocks := out.2 }, next := out.1 } where
  name := h.name
  next := h.next.trans hout.next_le
  length := by simp [h.length]
  functions := by
    intro j G hG
    obtain ⟨blocks, hget, htreated, hsame⟩ := h.functions j G hG
    by_cases hij : i = j
    · subst hij
      obtain rfl : F = { G with blocks } := Option.some.inj (hF.symm.trans hget)
      obtain rfl : blocks = G.blocks := hsame hi
      refine ⟨out.2, List.getElem?_set_self (List.getElem?_eq_some_iff.mp hF).1,
        fun _ => ⟨N₁.next, ?_⟩, fun hi => absurd (by simp) hi⟩
      have hfile : N.fileAt src i = some (src.file G) := by
        rw [h.name] at hadmits
        simp only [Module.fileAt, hG, Option.bind_some]
        exact if_pos hadmits
      rw [hfile]
      refine .admitted ((List.forall₂_and_left _ _).mpr ⟨fun B hB I hI => ?_, hout.sweptTo⟩)
      exact (hN G (List.mem_of_getElem? hG) B hB I hI).mono h.next
    · refine ⟨blocks, (List.getElem?_set_ne hij).trans hget, fun hj => ?_, fun hj => ?_⟩
      · exact htreated (by simpa [eq_comm, hij] using hj)
      · exact hsame fun hdone => hj (by simp [hdone])

/-- The pass has no file for what it does not admit. -/
theorem Module.fileAt_eq_none_iff {N : Module} {i : ℕ} :
    N.fileAt src i = none ↔ ∀ F, N.functions[i]? = some F → src.admits N.name F = false := by
  unfold Module.fileAt
  cases hF : N.functions[i]? with
  | none => simp
  | some F => simp

/-- The functions keep their files. -/
theorem Underway.fileAt_eq {N N₁ : Module} {done : List ℕ} (h : Underway src N done N₁) :
    N₁.fileAt src = N.fileAt src := by
  funext i
  unfold Module.fileAt
  cases hF : N.functions[i]? with
  | none =>
    have hlen : N₁.functions.length ≤ i := h.length ▸ List.getElem?_eq_none_iff.mp hF
    rw [List.getElem?_eq_none_iff.mpr hlen, Option.bind_none, Option.bind_none]
  | some F =>
    obtain ⟨blocks, hget, -⟩ := h.functions i F hF
    simp only [hget, h.name, Option.bind_some]
    cases src <;> rfl

/-- What the initialisation leaves when it is due or was before. -/
theorem Midway.begin {M N₁ : Module} {done : List ℕ} {s : HelloWorld × Module} (hM : M.Proper)
    (h : Midway src M done s) (hbegin : s.1.begin s.2 = .ok (.ready, N₁)) :
    ∃ N, initialization M = .ok (.ready, N) ∧ Underway src N done N₁ := by
  rcases h with ⟨rfl, hnone⟩ | ⟨hready, N, hinit, hunder⟩
  · have hinit : initialization M = .ok (.ready, N₁) := hbegin
    have hfile : N₁.fileAt src = M.fileAt src := fileAt_initialization hinit
    exact ⟨N₁, hinit, .of_none (hM.initialized hinit) fun i hi =>
      (congrFun hfile i).trans (hnone i hi)⟩
  · rw [hready] at hbegin
    obtain rfl : s.2 = N₁ := congrArg Prod.snd (Except.ok.inj hbegin)
    exact ⟨N, hinit, hunder⟩

/-- The functions keep their files from the start. -/
theorem Midway.fileAt_eq {M : Module} {done : List ℕ} {s : HelloWorld × Module}
    (h : Midway src M done s) : s.2.fileAt src = M.fileAt src := by
  rcases h with ⟨rfl, -⟩ | ⟨-, N, hinit, hunder⟩
  · rfl
  · exact hunder.fileAt_eq.trans (fileAt_initialization hinit)

/-- A run of the pass on a function that it has not been on. -/
theorem Midway.step {M : Module} {done : List ℕ} {s s' : HelloWorld × Module} {i : ℕ}
    (hM : M.Proper) (h : Midway src M done s) (hi : i ∉ done) (hstep : src.Runs s.1 s.2 i s') :
    Midway src M (done ++ [i]) s' := by
  by_cases hnot : ∀ F, s.2.functions[i]? = some F → src.admits s.2.name F = false
  · -- It does not admit the function, so nothing happens.
    obtain rfl : s' = s := hstep.unique (Source.runs_of_not_admits hnot)
    have hfile : s'.2.fileAt src i = none := Module.fileAt_eq_none_iff.mpr hnot
    rcases h with ⟨rfl, hnone⟩ | ⟨hready, N, hinit, h⟩
    · refine .inl ⟨rfl, fun j hj => ?_⟩
      rcases List.mem_append.mp hj with hj | hj
      · exact hnone j hj
      · exact List.mem_singleton.mp hj ▸ hfile
    · rw [h.fileAt_eq] at hfile
      exact .inr ⟨hready, N, hinit, h.pass (hM.initialized hinit) hi hfile⟩
  · have hP : s.1 = {} ∨ s.1 = .ready := h.imp (fun h => congrArg Prod.fst h.1) And.left
    rcases Source.runs_cases hP hstep with ⟨-, hnot'⟩ | ⟨N₁, F₁, out, hbegin, hF₁, hout, rfl⟩
    · exact absurd hnot' hnot
    · obtain ⟨N, hinit, hunder⟩ := h.begin hM hbegin
      have hfile : N.fileAt src = M.fileAt src := fileAt_initialization hinit
      -- The function is admitted still.
      have hadmits : src.admits N₁.name F₁ = true := by
        by_contra hno
        refine hnot (Module.fileAt_eq_none_iff.mp ?_)
        rw [h.fileAt_eq, ← hfile, ← hunder.fileAt_eq, Module.fileAt_eq_none_iff]
        intro F hF
        rw [← Option.some.inj (hF₁.symm.trans hF)]
        simpa using hno
      exact .inr ⟨rfl, N, hinit, hunder.walk (hM.initialized hinit) hi hF₁ hadmits hout⟩

/-- The pass on functions that are different from each other. -/
theorem Midway.run {M : Module} {is : List ℕ} {s : HelloWorld × Module} (hM : M.Proper)
    (his : is.Nodup) (hrun : src.PassRun ({}, M) is s) : Midway src M is s := by
  have hstart : ([] : List ℕ).Nodup → Midway src M [] ({}, M) := fun _ => .inl ⟨rfl, by simp⟩
  refine Run.invariant_trace (I := fun done s => done.Nodup → Midway src M done s)
    (fun done s i s' h hstep hnodup => ?_) hrun hstart his
  obtain ⟨hdone, -, hdisjoint⟩ := List.nodup_append.mp hnodup
  exact (h hdone).step hM (fun hi => hdisjoint i hi i (by simp) rfl) hstep

/-! ## The whole module -/

/-- A function without a body stays so. -/
theorem Treated.nil (src : Source) (n : ℕ) (file : Option String) : Treated src n file [] [] := by
  cases file with
  | none => exact .other (by simp)
  | some file => exact .admitted .nil

/-- The pass comes to the functions that have a body. -/
theorem Module.bodyAt_eq_nil {M : Module} {i : ℕ} (hi : i ∉ M.defined) : M.bodyAt i = [] := by
  unfold Module.bodyAt
  cases hF : M.functions[i]? with
  | none => rfl
  | some F =>
    by_contra hbody
    refine hi (List.mem_filter.mpr ⟨List.mem_range.mpr (List.getElem?_eq_some_iff.mp hF).1, ?_⟩)
    simpa [hF] using hbody

/-- A function without a body has none after the initialisation. -/
theorem bodyAt_initialization {M N : Module} {i : ℕ} (h : initialization M = .ok (.ready, N))
    (hi : i ∉ M.defined) : N.bodyAt i = [] := by
  obtain ⟨Fs, hmain, rfl⟩ := initialization_ok h
  have hbody := Module.bodyAt_eq_nil hi
  unfold Module.bodyAt at hbody ⊢
  cases hF : M.functions[i]? with
  | none =>
    have hlen := congrArg List.length (initMain_headers hmain)
    rw [List.length_map, List.length_map] at hlen
    rw [List.getElem?_eq_none_iff.mpr (hlen ▸ List.getElem?_eq_none_iff.mp hF)]
    rfl
  | some F =>
    obtain ⟨blocks, hget, hblocks⟩ := initMain_getElem hmain hF
    simp only [hF, Option.map_some, Option.getD_some] at hbody
    simp only [hget, Option.map_some, Option.getD_some]
    rcases hblocks with rfl | ⟨-, hins⟩
    · exact hbody
    · -- The call is put into no empty body.
      rw [hbody] at hins
      cases hins

/-- After the functions that have a body, all functions are treated. -/
theorem Midway.treated {M : Module} {s : HelloWorld × Module} (hM : M.Proper)
    (h : Midway src M M.defined s) : ∃ N, (N = M ∧ (∀ i ∈ M.defined, M.fileAt src i = none) ∨
        initialization M = .ok (.ready, N)) ∧
      ∀ i, ∃ k, Treated src k (N.fileAt src i) (N.bodyAt i) (s.2.bodyAt i) := by
  rcases h with ⟨rfl, hnone⟩ | ⟨-, N, hinit, h⟩
  · refine ⟨M, .inl ⟨rfl, hnone⟩, fun i => ⟨M.next, ?_⟩⟩
    by_cases hi : i ∈ M.defined
    · unfold Module.bodyAt
      cases hF : M.functions[i]? with
      | none => exact .nil src _ _
      | some F => exact hM.treated hF (hnone i hi)
    · rw [Module.bodyAt_eq_nil hi]
      exact .nil src _ _
  · refine ⟨N, .inr hinit, fun i => ?_⟩
    cases hF : N.functions[i]? with
    | none =>
      have hlen : s.2.functions.length ≤ i := h.length ▸ List.getElem?_eq_none_iff.mp hF
      rw [Module.bodyAt, Module.bodyAt, hF, List.getElem?_eq_none_iff.mpr hlen]
      exact ⟨N.next, .nil src _ _⟩
    | some F =>
      obtain ⟨blocks, hget, htreated, hsame⟩ := h.functions i F hF
      have hbody : N.bodyAt i = F.blocks := by rw [Module.bodyAt, hF]; rfl
      have hbody' : s.2.bodyAt i = blocks := by rw [Module.bodyAt, hget]; rfl
      by_cases hi : i ∈ M.defined
      · rw [hbody, hbody']
        exact htreated hi
      · rw [hbody', hsame hi, ← hbody, bodyAt_initialization hinit hi]
        exact ⟨N.next, .nil src _ _⟩

/-- Each function of an instrumented module is treated. `N` is the module after the initialisation,
or the module itself where the pass admits none of its functions, and `ns` has the first identity
that is new in each function. -/
theorem Source.Instrumented.treated {M M' : Module} (hM : M.Proper)
    (h : src.Instrumented M M') : ∃ (N : Module) (ns : ℕ → ℕ),
      (N = M ∧ (∀ i ∈ M.defined, M.fileAt src i = none) ∨ initialization M = .ok (.ready, N)) ∧
      ∀ i, Treated src (ns i) (N.fileAt src i) (N.bodyAt i) (M'.bodyAt i) := by
  obtain ⟨P, hrun⟩ := h
  have hdistinct : M.defined.Nodup := List.nodup_range.filter _
  obtain ⟨N, hN, htreated⟩ := (Midway.run hM hdistinct hrun).treated hM
  choose ns htreated using htreated
  exact ⟨N, ns, hN, htreated⟩

/-- An instrumented module does what its recorder does. `N` is the module after the initialisation,
or the module itself where the pass admits none of its functions, and `ns` has the first identity
that is new in each function, so that `N` is what remains without the new instructions. From every
call of a function, with any arguments and memory, and at any depth of calls: what a run of the
instrumented program shows, a run of the recorder shows, and the other way round. The activations on
their stacks are at the same places. -/
theorem Source.module_records {V Mem : Type*} (L : Linked V Mem) (hnoop : L.machine.NoopCast)
    (src : Source) (M M' : Module) (hM : M.Proper) (h : src.Instrumented M M') :
    ∃ (N : Module) (ns : ℕ → ℕ), (N = M ∧ (∀ i ∈ M.defined, M.fileAt src i = none) ∨
        initialization M = .ok (.ready, N)) ∧
      (∀ i, (M'.bodyAt i).map (List.filter (Inst.old (ns i))) = N.bodyAt i) ∧
      (L.procedures M'.bodyAt).Answers (L.recorder src (N.fileAt src) N.bodyAt)
        (taggedView fun i => Event.observe (ns i)) (taggedView fun _ o => some (L.machine.shown o))
        (fun t p => p.1 = t.1 ∧ Matches (ns t.1) p.2.1 t.2) ∧
      (L.recorder src (N.fileAt src) N.bodyAt).Answers (L.procedures M'.bodyAt)
        (taggedView fun _ o => some (L.machine.shown o)) (taggedView fun i => Event.observe (ns i))
        fun p t => t.1 = p.1 ∧ Matches (ns p.1) p.2.1 t.2 := by
  obtain ⟨N, ns, hN, htreated⟩ := h.treated hM
  exact ⟨N, ns, hN, fun i => (htreated i).erase, L.answers hnoop htreated⟩

/-- The name of `set` of a crate `flag`. -/
def setName : String := "_ZN4flag3set17h0f1e2d3c4b5a6978E"

/-- `set` stores to the flag. -/
def setBlock : Block :=
  [⟨1, .void, .store (.const (.int 1) (.int 8)) (.reg 0 ptrTy), some 3⟩,
    ⟨2, .void, .other "ret" [], some 4⟩]

/-- The call of `set`. -/
def callSet : Inst := ⟨3, .void, .call (.direct setName) [.reg 0 ptrTy], some 8⟩

/-- `raise` calls `set`. -/
def raiseBlock : Block := [callSet, ⟨4, .void, .other "ret" [], some 9⟩]

/-- `set` as a function. -/
def setFunction : Function := ⟨setName, "/flag", "main.rs", [setBlock]⟩

/-- `raise` as a function. -/
def raiseFunction : Function :=
  ⟨"_ZN4flag5raise17h0f1e2d3c4b5a6978E", "/flag", "main.rs", [raiseBlock]⟩

/-- The module of the crate. -/
def flagModule : Module := ⟨"flag-1f2e.ll", [setFunction, raiseFunction], 5⟩

/-- What the pass inserts into `set`. -/
def setProbe : Inst :=
  ⟨6, .void, .call (.direct "_probe_") (probeArgs 3 "/flag/main.rs" "store" (.reg 0 ptrTy)), some 3⟩

/-- `flagModule` after the pass. -/
def flagOut : Module :=
  ⟨"flag-1f2e.ll", [{ setFunction with blocks := [setProbe :: setBlock] },
    raiseFunction], 7⟩

/-- `HelloWorld.cpp` instruments the crate. -/
theorem flag_instrumented : Source.helloWorldCpp.Instrumented flagModule flagOut := by
  have hset : Source.helloWorldCpp.Walks "/flag/main.rs" 6 [setBlock]
      (7, [setProbe :: setBlock]) := by
    rw [Source.Walks, (Source.settles _ _).ends_iff_sweepAll]
    rfl
  have hraise : Source.helloWorldCpp.Walks "/flag/main.rs" 7 [raiseBlock] (7, [raiseBlock]) := by
    rw [Source.Walks, (Source.settles _ _).ends_iff_sweepAll]
    decide +kernel
  have hadmits : ∀ F ∈ flagModule.functions,
      Source.helloWorldCpp.admits flagModule.name F = true := by decide +kernel
  have hfirst := @Source.runs_of_walks .helloWorldCpp {} flagModule 0 setFunction setFunction
    { flagModule with next := 6 } _ rfl (hadmits setFunction (by decide)) rfl rfl hset
  have hsecond := @Source.runs_of_walks .helloWorldCpp .ready flagOut 1 raiseFunction raiseFunction
    flagOut _ rfl (hadmits raiseFunction (by decide)) rfl rfl hraise
  exact ⟨.ready, .cons hfirst (.single hsecond)⟩

/-- The calls of `set` come to the crate, and the argument of a call is in register 0. -/
def flagLinked : Linked ℕ (ℕ → Option ℕ) where
  machine := wordMachine
  resolve
    | .function f => if f = setName then some 0 else none
    | _ => none
  entry _ args r := args.getD r 0
  probe_external f hf := by
    refine if_neg fun h => ?_
    rw [h] at hf
    exact absurd hf (by decide)

/-- The functions of the crate are proper. -/
theorem flagModule_proper : flagModule.Proper := by
  intro F hF B hB I hI
  have hbelow : ∀ F ∈ flagModule.functions, ∀ B ∈ F.blocks, ∀ I ∈ B, I.Below 5 := by decide
  have hload : ∀ F ∈ flagModule.functions, ∀ B ∈ F.blocks, ∀ I ∈ B, ∀ ptr, I.op ≠ .load ptr := by
    simp [flagModule, setFunction, raiseFunction, setBlock, raiseBlock, callSet]
  exact ⟨hbelow F hF B hB I hI, fun ptr hop => absurd hop (hload F hF B hB I hI ptr)⟩

/-- The files of the functions. -/
def flagFiles : ℕ → Option String
  | 0 | 1 => some "/flag/main.rs"
  | _ => none

/-- Both functions of the crate are admitted. -/
theorem fileAt_flagModule : flagModule.fileAt .helloWorldCpp = flagFiles := by
  have hfile : ∀ F ∈ flagModule.functions, (if Source.helloWorldCpp.admits flagModule.name F then
      some (Source.helloWorldCpp.file F) else none) = some "/flag/main.rs" := by decide +kernel
  funext i
  match i with
  | 0 => exact hfile setFunction (by decide)
  | 1 => exact hfile raiseFunction (by decide)
  | _ + 2 => rfl

/-- What the recorder shows of a call of `raise`. -/
def raiseRecord (mem mem' : ℕ → Option ℕ) :
    List ((ℕ × (Event ℕ (ℕ → Option ℕ) ⊕ ProbeCall ℕ)) ⊕ Call ℕ (ℕ → Option ℕ)) :=
  [.inr ⟨0, [16], mem⟩, .inl (0, .inr (.probe 3 "/flag/main.rs".toList .store 16)),
    .inl (0, .inl ⟨1, none, none, mem'⟩), .inl (0, .inl ⟨2, none, none, mem'⟩),
    .inl (1, .inl ⟨3, some ⟨.function setName, [16], .returned 0 mem'⟩, none, mem'⟩),
    .inl (1, .inl ⟨4, none, none, mem'⟩)]

/-- The memory with the flag at the address 16. -/
def flagMem (flag : ℕ) : ℕ → Option ℕ := fun addr => if addr = 16 then some flag else none

/-- The activation of a function of the crate at its start, when it is called with the flag. -/
def flagStart (i : ℕ) (B : Block) (mem : ℕ → Option ℕ) :
    ℕ × State ℕ (ℕ → Option ℕ) × Watch ℕ :=
  (i, .enter B 0 0 (flagLinked.entry i [16]) mem, .ready)

/-- The memory when the flag is set. -/
def raisedMem : ℕ → Option ℕ := Function.update (flagMem 0) 16 (some 1)

/-- The recorder of the crate, from a call of `raise`. -/
theorem recorder_raise :
    Run (flagLinked.recorder .helloWorldCpp flagFiles flagModule.bodyAt).Step
      [flagStart 1 raiseBlock (flagMem 0)] (raiseRecord (flagMem 0) raisedMem)
      [(1, .done (some 0) raisedMem, .ready)] := by
  have hleaves : Source.helloWorldCpp.leaves callSet = false := by decide +kernel
  have hannounces : Source.helloWorldCpp.announces callSet = false := by decide +kernel
  have hset : (flagLinked.recorder .helloWorldCpp flagFiles flagModule.bodyAt).starts
      ⟨0, [16], flagMem 0⟩ (flagStart 0 setBlock (flagMem 0)) := ⟨rfl, ⟨_, rfl, rfl⟩, rfl⟩
  have hcall : (flagLinked.recorder .helloWorldCpp flagFiles flagModule.bodyAt).calls
      (flagStart 1 raiseBlock (flagMem 0)) ⟨0, [16], flagMem 0⟩ :=
    ⟨⟨_, _, rfl, rfl, rfl, rfl⟩, hannounces⟩
  have hends : (flagLinked.recorder .helloWorldCpp flagFiles flagModule.bodyAt).ends
      (0, .done (some 0) raisedMem, .ready) (.returned 0 raisedMem) := ⟨some 0, raisedMem, rfl, rfl⟩
  have hret : ∀ {cur : ℕ} {I : Inst} {blocks : List Block} {σ : Frame ℕ (ℕ → Option ℕ)},
      I.op = .other "ret" [] → Source.helloWorldCpp.announces I = false →
      Source.helloWorldCpp.leaves I = false →
      flagLinked.external.report "/flag/main.rs" σ I = none →
      flagLinked.external.Recorder .helloWorldCpp "/flag/main.rs" blocks
        (.running cur [I] σ, .ready) (.inl ⟨I.id, none, none, σ.mem⟩)
        (.done (some 0) σ.mem, .ready) := fun hop hannounces hleaves hreport =>
    .exec_ready (.exit (.other hop ⟨rfl, rfl⟩)) hannounces (by simp) hleaves hreport
  -- `set` is called, and the store is recorded and executed.
  refine .cons (.call hcall hset) ?_
  refine .cons (.step (Linked.recorder_step rfl (.announce rfl))) ?_
  refine .cons (.step (Linked.recorder_step rfl
    (.exec_ready (.next (.store rfl rfl)) trivial (by simp) rfl rfl))) ?_
  refine .cons (.step (Linked.recorder_step rfl (hret rfl rfl rfl rfl))) ?_
  -- `raise` goes on behind the call.
  refine .cons (.resume hends (Linked.recorder_resume rfl
    (.exec_ready (.next (.returned_direct rfl rfl rfl)) hannounces (by simp) hleaves rfl))) ?_
  exact .single (.step (Linked.recorder_step rfl (hret rfl rfl rfl rfl)))

/-- What is recorded of the crate is recorded of `flagModule`, with or without initialisation. -/
theorem flagModule_initialised {N : Module}
    (hN : N = flagModule ∧ (∀ i ∈ flagModule.defined, flagModule.fileAt .helloWorldCpp i = none) ∨
      initialization flagModule = .ok (.ready, N)) :
    N.fileAt .helloWorldCpp = flagFiles ∧ N.bodyAt = flagModule.bodyAt := by
  rcases hN with ⟨rfl, -⟩ | hinit
  · exact ⟨fileAt_flagModule, rfl⟩
  · refine ⟨(fileAt_initialization hinit).trans fileAt_flagModule, ?_⟩
    obtain ⟨Fs, hmain, rfl⟩ := initialization_ok hinit
    obtain rfl := Except.ok.inj hmain
    rfl

/-- The crate, instrumented by `HelloWorld.cpp`: a call of `raise` shows what the recorder shows,
and nothing else. -/
theorem Source.module_records_flagModule : ∃ (N : Module) (ns : ℕ → ℕ),
    (∀ i, (flagOut.bodyAt i).map (List.filter (Inst.old (ns i))) = N.bodyAt i) ∧
    (∃ t bs ts, (flagLinked.procedures flagOut.bodyAt).starts ⟨1, [16], flagMem 0⟩ t ∧
      Run (flagLinked.procedures flagOut.bodyAt).Step [t] bs ts ∧
      bs.filterMap (stackView (taggedView fun i => Event.observe (ns i))) =
        (raiseRecord (flagMem 0) raisedMem).filterMap
          (stackView (taggedView fun _ o => some (wordMachine.shown o)))) ∧
    (flagLinked.procedures flagOut.bodyAt).Answers
      (flagLinked.recorder .helloWorldCpp (N.fileAt .helloWorldCpp) N.bodyAt)
      (taggedView fun i => Event.observe (ns i)) (taggedView fun _ o => some (wordMachine.shown o))
      fun t p => p.1 = t.1 ∧ Matches (ns t.1) p.2.1 t.2 := by
  have hnoop : flagLinked.machine.NoopCast := ⟨fun _ => rfl, fun _ _ => rfl⟩
  obtain ⟨N, ns, hN, herase, hback, hforth⟩ := Source.module_records flagLinked hnoop .helloWorldCpp
    flagModule flagOut flagModule_proper flag_instrumented
  obtain ⟨hfiles, hbodies⟩ := flagModule_initialised hN
  refine ⟨N, ns, herase, ?_, hback⟩
  rw [hfiles, hbodies] at hforth
  have hstart : (flagLinked.recorder .helloWorldCpp flagFiles flagModule.bodyAt).starts
      ⟨1, [16], flagMem 0⟩ (flagStart 1 raiseBlock (flagMem 0)) := ⟨rfl, ⟨_, rfl, rfl⟩, rfl⟩
  obtain ⟨t, bs, ts, ht, hbs, hview, -⟩ := hforth _ _ _ _ hstart recorder_raise
  exact ⟨t, bs, ts, ht, hbs, hview⟩

end AtomicityViolation
