import AtomicityViolation.Library.Run
import AtomicityViolation.Pass.Preserve

/-!
# The pass on whole modules

`opt` runs the pass on a module with a fresh pass object, which it hands the functions that have a
body one after another, and the driver links the modules (`Instrumented`). If one of these functions
passes the filter, `main` of the same module begins with the call of `_init_` afterwards: it is put
there when the first of them comes, and the walks leave it the first instruction of `main` that is
not a PHI (`startsWithInit_of_admits`).
-/

namespace AtomicityViolation

open Weave (Woven)
open Transition (Run)

namespace Source

/-- Runs of the pass object over functions of a module, one after another. -/
def PassRun (src : Source) :
    HelloWorld × Module → List ℕ → HelloWorld × Module → Prop :=
  Run fun s i s' => src.Runs s.1 s.2 i s'

end Source

/-- The functions of a module that have a body, by their positions. -/
def Module.defined (M : Module) : List ℕ :=
  (List.range M.functions.length).filter fun i => M.functions[i]?.any fun F => !F.blocks.isEmpty

/-- `M'` is what the pass makes of `M`. -/
def Source.Instrumented (src : Source) (M M' : Module) : Prop :=
  ∃ P, src.PassRun ({}, M) M.defined (P, M')

/-- The first instruction of a body that is not a PHI calls `_init_`. -/
def startsWithInit : List Block → Bool
  | [] => false
  | B :: _ =>
    match B.dropWhile Inst.isPhi with
    | [] => false
    | I :: _ => I.calls "_init_"

/-- The function `main` of a module. -/
def Module.main (M : Module) : Option Function := M.functions.find? fun F => F.name == "main"

/-- `main` of the module begins with the call of `_init_`. -/
def Module.startsWithInit (M : Module) : Bool :=
  M.main.any fun F => AtomicityViolation.startsWithInit F.blocks

/-! ## What a run on a function does -/

variable {src : Source} {P P' : HelloWorld} {M M' : Module} {i : ℕ}

/-- The pass objects that occur are those before and after the initialisation. -/
theorem HelloWorld.begin_ok {r : HelloWorld × Module} (hP : P = {} ∨ P = .ready)
    (h : P.begin M = .ok r) :
    r.1 = .ready ∧ (P = .ready ∧ r.2 = M ∨
      P = {} ∧ ∃ Fs, initMain M.next M.functions = .ok Fs ∧
        r.2 = { M with functions := Fs, next := M.next + 1 }) := by
  rcases hP with rfl | rfl
  · unfold HelloWorld.begin initialization at h
    cases hmain : initMain M.next M.functions with
    | error e => simp [hmain] at h
    | ok Fs =>
      simp only [Bool.false_eq_true, if_false, hmain, Except.ok.injEq] at h
      subst h
      exact ⟨rfl, .inr ⟨rfl, Fs, rfl, rfl⟩⟩
  · simp only [HelloWorld.begin, HelloWorld.ready, if_true, Except.ok.injEq] at h
    subst h
    exact ⟨rfl, .inl ⟨rfl, rfl⟩⟩

/-- A run on a function that is admitted, from the walk of its body. -/
theorem Source.runs_of_walks {F F₁ : Function} {M₁ : Module} {out : ℕ × List Block}
    (hF : M.functions[i]? = some F) (hadmits : src.admits M.name F = true)
    (hbegin : P.begin M = .ok (.ready, M₁)) (hF₁ : M₁.functions[i]? = some F₁)
    (hout : src.Walks (src.file F₁) M₁.next F₁.blocks out) :
    src.Runs P M i (.ready, { M₁ with
      functions := M₁.functions.set i { F₁ with blocks := out.2 }, next := out.1 }) := by
  obtain ⟨n, hn⟩ := hout
  refine ⟨n, fun m hm => ?_⟩
  unfold Source.run
  simp only [hF, hadmits, Bool.not_true, Bool.false_eq_true, if_false, hbegin, hF₁, hn m hm]

/-- A run on a function that is not admitted, or that is not there. -/
theorem Source.runs_of_not_admits
    (h : ∀ F, M.functions[i]? = some F → src.admits M.name F = false) :
    src.Runs P M i (P, M) := by
  refine ⟨0, fun m _ => ?_⟩
  unfold Source.run
  cases hF : M.functions[i]? with
  | none => rfl
  | some F => simp [h F hF]

/-- What a run on a function can do: nothing, when the function is not admitted, and else the
initialisation, if it is due, and the walk of the body. -/
theorem Source.runs_cases {r : HelloWorld × Module} (hP : P = {} ∨ P = .ready)
    (h : src.Runs P M i r) :
    (r = (P, M) ∧ ∀ F, M.functions[i]? = some F → src.admits M.name F = false) ∨
    ∃ M₁ F₁ out, P.begin M = .ok (.ready, M₁) ∧ M₁.functions[i]? = some F₁ ∧
      src.Walks (src.file F₁) M₁.next F₁.blocks out ∧
      r = (.ready, { M₁ with
        functions := M₁.functions.set i { F₁ with blocks := out.2 }, next := out.1 }) := by
  obtain ⟨n, hn⟩ := h
  cases hF : M.functions[i]? with
  | none =>
    have hrun := hn n le_rfl
    simp only [Source.run, hF, Except.ok.injEq, Option.some.injEq] at hrun
    exact .inl ⟨hrun.symm, fun F hF' => by cases hF'⟩
  | some F =>
    cases hadmits : src.admits M.name F with
    | false =>
      have hrun := hn n le_rfl
      simp only [Source.run, hF, hadmits, Bool.not_false, if_true, Except.ok.injEq,
        Option.some.injEq] at hrun
      refine .inl ⟨hrun.symm, fun F' hF' => ?_⟩
      rw [← Option.some.inj hF', hadmits]
    | true =>
      refine .inr ?_
      cases hbegin : P.begin M with
      | error e =>
        have hrun := hn n le_rfl
        simp [Source.run, hF, hadmits, hbegin] at hrun
      | ok r₁ =>
        obtain ⟨P₁, M₁⟩ := r₁
        obtain ⟨rfl, hM₁⟩ : P₁ = .ready ∧ _ := HelloWorld.begin_ok hP hbegin
        -- The function is still at its position, with the call of `_init_` if it is `main`.
        obtain ⟨F₁, hF₁⟩ : ∃ F₁, M₁.functions[i]? = some F₁ := by
          rcases hM₁ with ⟨-, rfl⟩ | ⟨-, Fs, hmain, rfl⟩
          · exact ⟨F, hF⟩
          · obtain ⟨blocks, hget, -⟩ := initMain_getElem hmain hF
            exact ⟨_, hget⟩
        -- With enough fuel the run shows what the walk ends with.
        obtain ⟨k, hk⟩ :=
          (src.settles (src.file F₁)).walkAll_eq_sweepAll M₁.next F₁.blocks
        have hrun := hn (max n k) (by omega)
        simp only [Source.run, hF, hadmits, Bool.not_true, Bool.false_eq_true, if_false, hbegin,
          hF₁, hk (max n k) (by omega)] at hrun
        cases hsweep : Cursor.sweepAll (src.visit .ready (src.file F₁)) M₁.next F₁.blocks with
        | error e => simp [hsweep, Except.map] at hrun
        | ok out =>
          simp only [hsweep, Except.map, Except.ok.injEq, Option.some.injEq] at hrun
          exact ⟨M₁, F₁, out, rfl, hF₁, (src.settles _).ends_iff_sweepAll.mpr hsweep, hrun.symm⟩

/-! ## The call of `_init_` stays first -/

/-- What the filter looks at, and the file. -/
def Function.header (F : Function) : String × String × String := (F.name, F.directory, F.file)

/-- The filter looks at the header only. -/
theorem Source.admits_congr {F F' : Function} (h : F.header = F'.header) (name : String) :
    src.admits name F = src.admits name F' := by
  obtain ⟨hname, hdir, -⟩ : F.name = F'.name ∧ F.directory = F'.directory ∧ _ := by
    simpa [Function.header] using h
  cases src
  · simp only [admits, HelloWorldCpp.admits, hname, hdir]
  · simp only [admits, FunctionCpp.admits, hname]

/-- The call of `_init_` is put first. -/
theorem startsWithInit_insertInit {next : ℕ} {blocks blocks' : List Block}
    (h : insertInit next blocks = .ok blocks') : startsWithInit blocks' = true := by
  cases blocks with
  | nil => cases h
  | cons B Bs =>
    unfold insertInit at h
    cases hdrop : B.dropWhile Inst.isPhi with
    | nil => simp [hdrop] at h
    | cons I rest =>
      simp only [hdrop, Except.ok.injEq] at h
      have hphis : ∀ J ∈ B.takeWhile Inst.isPhi, J.isPhi = true := fun J hJ =>
        List.mem_takeWhile_imp hJ
      rw [← h, startsWithInit, List.dropWhile_append_of_pos hphis]
      rfl

/-- A call of `_init_` is neither an access nor a site. -/
theorem Inst.of_calls_init {I : Inst} (h : I.calls "_init_" = true) :
    I.isPhi = false ∧ I.access = none ∧ src.site I = none := by
  obtain ⟨id, ty, op, dbg⟩ := I
  unfold Inst.calls at h
  split at h
  next g args hop =>
    obtain rfl : op = .call (.direct g) args := hop
    obtain rfl : g = "_init_" := by simpa using h
    have hrec : recognise HelloWorldCpp.callArms (.direct "_init_") = none := by decide
    refine ⟨rfl, rfl, ?_⟩
    cases src with
    | helloWorldCpp => cases dbg <;> simp [Source.site, site, hrec]
    | functionCpp => cases dbg <;> rfl
  next => cases h

/-- A PHI is neither an access nor a site. -/
theorem Inst.of_isPhi {I : Inst} (h : I.isPhi = true) : I.access = none ∧ src.site I = none := by
  obtain ⟨id, ty, op, dbg⟩ := I
  cases op <;> simp [Inst.isPhi] at h
  cases src <;> exact ⟨rfl, rfl⟩

/-- Nothing stands around what is neither an access nor a site. -/
theorem Around.eq_nil {file : String} {n : ℕ} {I : Inst} {pre post : List Inst}
    (h : Around src file n I pre post) (hacc : I.access = none) (hsite : src.site I = none) :
    pre = [] ∧ post = [] := by
  rcases h with ⟨hshape, -⟩ | h
  · cases hshape with
    | store h' | load h' => simp [hacc] at h'
    | lock h' => simp [hsite] at h'
    | other => exact ⟨rfl, rfl⟩
  · exact h

/-- The walk leaves the call of `_init_` first in its block. -/
theorem woven_init {file : String} {n : ℕ} {B B' : Block} (h : Woven (Around src file n) B B')
    {I : Inst} {rest : Block} (hdrop : B.dropWhile Inst.isPhi = I :: rest)
    (hI : I.calls "_init_" = true) : ∃ rest', B'.dropWhile Inst.isPhi = I :: rest' := by
  induction h with
  | nil => cases hdrop
  | @cons x pre post xs ys hx _ ih =>
    cases hphi : x.isPhi with
    | true =>
      -- PHIs stay as they are, so the first other instruction is still the first.
      obtain ⟨hacc, hsite⟩ : x.access = none ∧ src.site x = none := Inst.of_isPhi hphi
      obtain ⟨rfl, rfl⟩ := hx.eq_nil hacc hsite
      rw [List.dropWhile_cons_of_pos hphi] at hdrop
      obtain ⟨rest', hrest'⟩ := ih hdrop
      exact ⟨rest', by simpa [List.dropWhile_cons_of_pos hphi] using hrest'⟩
    | false =>
      rw [List.dropWhile_cons_of_neg (by simp [hphi])] at hdrop
      -- Nothing is put before the call.
      obtain ⟨rfl, -⟩ := List.cons.inj hdrop
      obtain ⟨-, hacc, hsite⟩ : x.isPhi = false ∧ x.access = none ∧ src.site x = none :=
        Inst.of_calls_init hI
      obtain ⟨rfl, rfl⟩ := hx.eq_nil hacc hsite
      exact ⟨ys, by simp [hphi]⟩

/-- The walk of a body leaves the call of `_init_` first. -/
theorem Source.Walks.startsWithInit {file : String} {next : ℕ} {blocks : List Block}
    {out : ℕ × List Block} (h : src.Walks file next blocks out)
    (hinit : AtomicityViolation.startsWithInit blocks = true) :
    AtomicityViolation.startsWithInit out.2 = true := by
  have hwoven := h.woven
  cases blocks with
  | nil => cases hinit
  | cons B Bs =>
    obtain ⟨B', Bs', hB, -, hout⟩ := List.forall₂_cons_left_iff.mp hwoven
    unfold AtomicityViolation.startsWithInit at hinit
    cases hdrop : B.dropWhile Inst.isPhi with
    | nil => simp [hdrop] at hinit
    | cons I rest =>
      simp only [hdrop] at hinit
      obtain ⟨rest', hdrop'⟩ := woven_init hB hdrop hinit
      rw [hout, AtomicityViolation.startsWithInit, hdrop']
      exact hinit

/-! ## A module after the pass -/

/-- `main` gets the call of `_init_`. -/
theorem initMain_find {next : ℕ} {Fs Fs' : List Function} (h : initMain next Fs = .ok Fs')
    {F : Function} (hF : Fs.find? (fun F => F.name == "main") = some F) :
    ∃ blocks, insertInit next F.blocks = .ok blocks ∧
      Fs'.find? (fun F => F.name == "main") = some { F with blocks } := by
  induction Fs generalizing Fs' with
  | nil => cases hF
  | cons G Gs ih =>
    rcases initMain_cons h with ⟨hmain, blocks, hins, rfl⟩ | ⟨hother, Gs', hrest, rfl⟩
    · rw [List.find?_cons_of_pos (by simp [hmain])] at hF
      obtain rfl := Option.some.inj hF
      exact ⟨blocks, hins, by rw [List.find?_cons_of_pos (by simp [hmain])]⟩
    · rw [List.find?_cons_of_neg (by simp [hother])] at hF
      obtain ⟨blocks, hins, hfind⟩ := ih hrest hF
      exact ⟨blocks, hins, by rw [List.find?_cons_of_neg (by simp [hother]), hfind]⟩

/-- Initialisation keeps the headers. -/
theorem initMain_headers {next : ℕ} {Fs Fs' : List Function} (h : initMain next Fs = .ok Fs') :
    Fs'.map Function.header = Fs.map Function.header := by
  induction Fs generalizing Fs' with
  | nil =>
    cases h
    rfl
  | cons G Gs ih =>
    rcases initMain_cons h with ⟨-, blocks, -, rfl⟩ | ⟨-, Gs', hrest, rfl⟩
    · rfl
    · rw [List.map_cons, List.map_cons, ih hrest]

/-- The function `main` when the body of a function is replaced. -/
theorem find_set {Fs : List Function} {i : ℕ} {F : Function} (hF : Fs[i]? = some F)
    (blocks : List Block) {p : Function → Bool} (hp : p { F with blocks } = p F) :
    (Fs.set i { F with blocks }).find? p = Fs.find? p ∨
      Fs.find? p = some F ∧ (Fs.set i { F with blocks }).find? p = some { F with blocks } := by
  induction Fs generalizing i with
  | nil => cases hF
  | cons G Gs ih =>
    cases i with
    | zero =>
      obtain rfl : G = F := by simpa using hF
      -- The function that is replaced comes first: it is found before exactly when it is after.
      cases hG : p G with
      | true => exact .inr ⟨List.find?_cons_of_pos hG, List.find?_cons_of_pos (hp.trans hG)⟩
      | false =>
        refine .inl ?_
        rw [List.set_cons_zero, List.find?_cons_of_neg (by simp [hp, hG]),
          List.find?_cons_of_neg (by simp [hG])]
    | succ i =>
      rw [List.set_cons_succ]
      cases hG : p G with
      | true =>
        refine .inl ?_
        rw [List.find?_cons_of_pos hG, List.find?_cons_of_pos hG]
      | false =>
        rw [List.find?_cons_of_neg (by simp [hG]), List.find?_cons_of_neg (by simp [hG])]
        exact ih (by simpa using hF)

/-- What holds between the functions of a module: the headers are those of the module, and either
nothing has happened, or the pass object is initialised and `main`, if there is one, begins with the
call of `_init_`. -/
structure Begun (M : Module) (s : HelloWorld × Module) : Prop where
  /-- The name of the module. -/
  name : s.2.name = M.name
  /-- The headers of its functions. -/
  headers : s.2.functions.map Function.header = M.functions.map Function.header
  /-- Before and after the initialisation. -/
  state : s = ({}, M) ∨ s.1 = .ready ∧ (M.main.isSome = true → s.2.startsWithInit = true)

/-- `main` keeps the call of `_init_` first when a body is walked. -/
theorem startsWithInit_set {M : Module} {i next : ℕ} {F : Function} {out : ℕ × List Block}
    {file : String} (hF : M.functions[i]? = some F) (hout : src.Walks file M.next F.blocks out)
    (h : M.startsWithInit = true) :
    ({ M with functions := M.functions.set i { F with blocks := out.2 }, next } :
      Module).startsWithInit = true := by
  simp only [Module.startsWithInit, Module.main] at h ⊢
  rcases find_set hF out.2 (p := fun F => F.name == "main") rfl with hfind | ⟨hfind, hfind'⟩
  · rw [hfind]
    exact h
  · rw [hfind] at h
    rw [hfind']
    exact hout.startsWithInit h

/-- A run on a function keeps that, and initialises the pass object if the function is admitted. -/
theorem Begun.step {s s' : HelloWorld × Module} (h : Begun M s) (hstep : src.Runs s.1 s.2 i s') :
    Begun M s' ∧ ((∃ F, M.functions[i]? = some F ∧ src.admits M.name F = true) → s'.1 = .ready) ∧
      (s.1 = .ready → s'.1 = .ready) := by
  obtain ⟨P, N⟩ := s
  have hP : P = {} ∨ P = .ready := h.state.imp (congrArg Prod.fst) And.left
  rcases Source.runs_cases hP hstep with ⟨rfl, hnot⟩ | ⟨N₁, F₁, out, hbegin, hF₁, hout, rfl⟩
  · refine ⟨h, ?_, id⟩
    rintro ⟨F, hF, hadmits⟩
    -- The function at the position has the same header now, so it would be admitted.
    have hget : (N.functions.map Function.header)[i]? = some F.header := by
      rw [h.headers, List.getElem?_map, hF]
      rfl
    rw [List.getElem?_map, Option.map_eq_some_iff] at hget
    obtain ⟨F', hF', hheader⟩ := hget
    have hno := hnot F' hF'
    rw [Source.admits_congr hheader, h.name, hadmits] at hno
    cases hno
  · -- After the initialisation, due or not, `main` begins with the call.
    have hbegun : N₁.name = M.name ∧ N₁.functions.map Function.header =
        M.functions.map Function.header ∧ (M.main.isSome = true → N₁.startsWithInit = true) := by
      obtain ⟨-, ⟨rfl, rfl⟩ | ⟨rfl, Fs, hmain, rfl⟩⟩ := HelloWorld.begin_ok hP hbegin
      · rcases h.state with hstate | ⟨-, hstate⟩
        · cases hstate
        · exact ⟨h.name, h.headers, hstate⟩
      · obtain rfl : N = M := by
          rcases h.state with hstate | ⟨hready, -⟩
          · exact congrArg Prod.snd hstate
          · cases hready
        refine ⟨h.name, initMain_headers hmain, fun hsome => ?_⟩
        obtain ⟨F, hF⟩ := Option.isSome_iff_exists.mp hsome
        obtain ⟨blocks, hins, hfind⟩ := initMain_find hmain hF
        simp only [Module.startsWithInit, Module.main, hfind, Option.any_some]
        exact startsWithInit_insertInit hins
    obtain ⟨hname, hheaders, hinit⟩ := hbegun
    refine ⟨⟨hname, ?_, .inr ⟨rfl, fun hsome => startsWithInit_set hF₁ hout (hinit hsome)⟩⟩,
      fun _ => rfl, fun _ => rfl⟩
    -- The walk changes no header.
    have hget : (N₁.functions.map Function.header)[i]? = some F₁.header := by
      rw [List.getElem?_map, hF₁]
      rfl
    obtain ⟨hlen, hget⟩ := List.getElem?_eq_some_iff.mp hget
    rw [← hheaders, List.map_set]
    change (N₁.functions.map Function.header).set i F₁.header = _
    rw [← hget, List.set_getElem_self]

/-- What holds between the functions of a module holds after them. -/
theorem Begun.run {s s' : HelloWorld × Module} {is : List ℕ} (h : Begun M s)
    (hrun : src.PassRun s is s') :
    Begun M s' ∧ (s.1 = .ready ∨
      (∃ i ∈ is, ∃ F, M.functions[i]? = some F ∧ src.admits M.name F = true) → s'.1 = .ready) := by
  induction hrun with
  | nil s => exact ⟨h, fun h' => h'.elim id fun ⟨_, hi, _⟩ => by cases hi⟩
  | @cons s t u i is hstep _ ih =>
    obtain ⟨hbegun, hadmitted, hkeep⟩ := h.step hstep
    obtain ⟨hend, hready⟩ := ih hbegun
    refine ⟨hend, fun h' => hready ?_⟩
    rcases h' with h' | ⟨j, hj, hF⟩
    · exact .inl (hkeep h')
    · rcases List.mem_cons.mp hj with rfl | hj
      · exact .inl (hadmitted hF)
      · exact .inr ⟨j, hj, hF⟩

/-- When a function of a module that has a body passes the filter, `main` of the instrumented module
begins with the call of `_init_`. -/
theorem startsWithInit_of_admits (h : src.Instrumented M M') (hmain : M.main.isSome = true)
    {F : Function} (hF : F ∈ M.functions) (hbody : F.blocks ≠ [])
    (hadmits : src.admits M.name F = true) : M'.startsWithInit = true := by
  obtain ⟨P, hrun⟩ := h
  have hstart : Begun M ({}, M) := ⟨rfl, rfl, .inl rfl⟩
  obtain ⟨hend, hready⟩ := hstart.run hrun
  obtain ⟨i, hlen, hi⟩ := List.mem_iff_getElem.mp hF
  have hget : M.functions[i]? = some F := by rw [List.getElem?_eq_getElem hlen, hi]
  -- The pass comes to the function, since it has a body.
  have hdefined : i ∈ M.defined := by
    refine List.mem_filter.mpr ⟨List.mem_range.mpr hlen, ?_⟩
    simpa [hget] using hbody
  have hPready : P = .ready := hready (.inr ⟨i, hdefined, F, hget, hadmits⟩)
  rcases hend.state with hstate | ⟨-, hinit⟩
  · subst hPready
    cases hstate
  · exact hinit hmain

end AtomicityViolation
