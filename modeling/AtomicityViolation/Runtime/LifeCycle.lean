import AtomicityViolation.Pass.Modules

/-!
# The life of the log stream

`fp` is null until `_init_` opens the log, at the start of `main` when the pass put the call there,
and stays as it is after `_final_` closed it, when the process exits. A probe looks at neither. The
steps are those of a process that runs instrumented modules: `main` is entered, once or more often,
any threads call probes as long as the process is there, also before `main` is entered, while
`_init_` runs and while the exit handlers run, and a use of `fp` is noted with what `fp` was. Every
use finds an open stream if `main` calls `_init_`, `fopen` succeeds, `main` is entered once, and
probes are called only between the end of `_init_`, or the first code of `main` itself, and
`_final_` (`stream_open`), and not in general (`stream_misused`).
-/

namespace AtomicityViolation

namespace LifeCycle

open Transition (Run ofFunction run_function_iff)

/-- What `fp` is: null, an open stream, or a stream that was closed. -/
inductive Stream where
  | null
  | opened
  | closed
  deriving DecidableEq, Repr

/-- The uses of `fp`. -/
inductive Use where
  | fprintf
  | fclose
  deriving DecidableEq, Repr

/-- How far the process is: running, with its exit handlers running, or gone. -/
inductive Phase where
  | running
  | exiting
  | exited
  deriving DecidableEq, Repr

/-- A process: how far it is, how many calls of `main` stand before the `fopen` of `_init_`, between
it and `atexit`, and behind `_init_` but before the code of `main` itself, `fp`, how often `_final_`
is registered with `atexit`, and the uses of `fp` so far. -/
structure Process where
  phase : Phase
  entered : ℕ
  opening : ℕ
  ready : ℕ
  fp : Stream
  registered : ℕ
  uses : List (Use × Stream)
  deriving DecidableEq, Repr

/-- The steps: `main` is entered, `_init_` opens the log and registers `_final_`, `main` begins with
its own code, a thread calls `_probe_` or `_probe_lock_`, the first `main` returns or a thread calls
`exit`, `_final_` runs as an exit handler, and the process is gone, because there are no more
handlers or because it was killed. -/
inductive Action where
  | main
  | fopen (ok : Bool)
  | atexit (ok : Bool)
  | body
  | probe (t : ℕ)
  | exit
  | final
  | terminate
  deriving DecidableEq, Repr

/-- The start of a process. -/
def start : Process := ⟨.running, 0, 0, 0, .null, 0, []⟩

/-- Some module calls a probe. -/
def hasProbe (Ms : List Module) : Bool :=
  Ms.any fun M => M.functions.any fun F => F.blocks.any fun B => B.any fun I =>
    I.calls "_probe_" || I.calls "_probe_lock_"

/-- The steps of a process that runs the modules. -/
def step (Ms : List Module) (s : Process) (a : Action) : Option Process :=
  if s.phase = .exited then none else
  match a with
  | .main =>
    if Ms.any Module.startsWithInit then some { s with entered := s.entered + 1 }
    else some { s with ready := s.ready + 1 }
  | .fopen ok =>
    match s.entered with
    | n + 1 =>
      some { s with entered := n, opening := s.opening + 1, fp := if ok then .opened else .null }
    | 0 => none
  | .atexit ok =>
    match s.opening with
    | n + 1 =>
      some { s with
        opening := n, ready := s.ready + 1, registered := s.registered + if ok then 1 else 0 }
    | 0 => none
  | .body =>
    match s.ready with
    | n + 1 => some { s with ready := n }
    | 0 => none
  | .probe _ =>
    if hasProbe Ms then some { s with uses := s.uses ++ [(.fprintf, s.fp)] } else none
  | .exit => if s.phase = .running then some { s with phase := .exiting } else none
  | .final =>
    match s.phase, s.registered with
    | .exiting, n + 1 =>
      some { s with registered := n, fp := .closed, uses := s.uses ++ [(.fclose, s.fp)] }
    | _, _ => none
  | .terminate => some { s with phase := .exited }

/-! ## Every use finds an open stream -/

/-- An `_init_` is over, or `main` has begun with its own code. -/
def Begun (as : List Action) : Prop := (∃ ok, .atexit ok ∈ as) ∨ .body ∈ as

instance (as : List Action) : Decidable (Begun as) :=
  inferInstanceAs (Decidable ((∃ ok, .atexit ok ∈ as) ∨ .body ∈ as))

/-- Other steps begin nothing. -/
theorem begun_concat_iff {as : List Action} {a : Action} (hatexit : ∀ ok, a ≠ .atexit ok)
    (hbody : a ≠ .body) : Begun (as ++ [a]) ↔ Begun as := by
  simp only [Begun, List.mem_append, List.mem_singleton, (hatexit _).symm, hbody.symm, or_false]

/-- `fopen` succeeds, `main` is entered once, and every probe is called after `_init_` is over, or
`main` has begun with its own code, and before `_final_`. -/
def Orderly (as : List Action) : Prop :=
  .fopen false ∉ as ∧ as.count .main ≤ 1 ∧
    ∀ pre t post, as = pre ++ .probe t :: post → Begun pre ∧ .final ∉ pre

/-- An orderly run is orderly up to any step, and so is that step. -/
theorem Orderly.concat {as : List Action} {a : Action} (h : Orderly (as ++ [a])) :
    Orderly as ∧ a ≠ .fopen false ∧ (a = .main → .main ∉ as) ∧
      ∀ t, a = .probe t → Begun as ∧ .final ∉ as := by
  obtain ⟨hopen, hmain, hprobe⟩ := h
  rw [List.mem_append, not_or] at hopen
  rw [List.count_append] at hmain
  refine ⟨⟨hopen.1, by omega, fun pre t post has => ?_⟩, fun ha => hopen.2 (by simp [ha]),
    fun ha => ?_, fun t ha => hprobe as t [] (by rw [ha])⟩
  · exact hprobe pre t (post ++ [a]) (by simp [has])
  · subst ha
    rw [List.count_singleton_self] at hmain
    exact List.count_eq_zero.mp (by omega)

/-- The states of a process whose `main` calls `_init_`, in an orderly run. -/
inductive Proper (as : List Action) : Process → Prop
  /-- `main` was not entered. -/
  | before {phase : Phase} : ¬ Begun as → Proper as ⟨phase, 0, 0, 0, .null, 0, []⟩
  /-- `main` was entered and the log not yet opened. -/
  | entered {phase : Phase} :
      .main ∈ as → ¬ Begun as → Proper as ⟨phase, 1, 0, 0, .null, 0, []⟩
  /-- The log is open, and `_final_` not yet registered. -/
  | opening {phase : Phase} :
      .main ∈ as → ¬ Begun as → Proper as ⟨phase, 0, 1, 0, .opened, 0, []⟩
  /-- The log is open and was only printed to. -/
  | inUse {phase : Phase} {ready n : ℕ} {uses : List (Use × Stream)} :
      .main ∈ as → n ≤ 1 → (∀ u ∈ uses, u = (.fprintf, .opened)) →
      Proper as ⟨phase, 0, 0, ready, .opened, n, uses⟩
  /-- `_final_` has run. -/
  | closed {phase : Phase} {ready : ℕ} {uses : List (Use × Stream)} :
      .main ∈ as → .final ∈ as → (∀ u ∈ uses, u.2 = .opened) →
      (uses.countP fun u => u.1 == .fclose) = 1 →
      Proper as ⟨phase, 0, 0, ready, .closed, 0, uses⟩

/-- Uses that only print close nothing. -/
theorem countP_fclose_eq_zero {uses : List (Use × Stream)}
    (h : ∀ u ∈ uses, u = (.fprintf, .opened)) : (uses.countP fun u => u.1 == .fclose) = 0 := by
  rw [List.countP_eq_zero]
  intro u hu
  simp [h u hu]

/-- How far the process is changes nothing. -/
theorem Proper.of_phase {as : List Action} {s : Process} {a : Action} (h : Proper as s)
    (hatexit : ∀ ok, a ≠ .atexit ok) (hbody : a ≠ .body) (phase : Phase) :
    Proper (as ++ [a]) { s with phase } := by
  have hbegun : ¬ Begun (as ++ [a]) ↔ ¬ Begun as := not_congr (begun_concat_iff hatexit hbody)
  cases h with
  | before h => exact .before (hbegun.mpr h)
  | entered hmain h => exact .entered (List.mem_append_left _ hmain) (hbegun.mpr h)
  | opening hmain h => exact .opening (List.mem_append_left _ hmain) (hbegun.mpr h)
  | inUse hmain hn huses => exact .inUse (List.mem_append_left _ hmain) hn huses
  | closed hmain hfinal huses hcount =>
    exact .closed (List.mem_append_left _ hmain) (List.mem_append_left _ hfinal) huses hcount

/-- When `main` begins with its own code, the log is open or was closed. -/
theorem Proper.body {Ms : List Module} {as : List Action} {s s' : Process} (h : Proper as s)
    (hstep : step Ms s .body = some s') : Proper (as ++ [.body]) s' := by
  obtain ⟨-, hstep⟩ := Option.ite_none_left_eq_some.mp hstep
  cases h with
  | @inUse _ ready n uses hmain hn huses =>
    cases ready with
    | zero => cases hstep
    | succ ready =>
      cases hstep
      exact .inUse (by simp [hmain]) hn huses
  | @closed _ ready uses hmain hfinal huses hcount =>
    cases ready with
    | zero => cases hstep
    | succ ready =>
      cases hstep
      exact .closed (by simp [hmain]) (by simp [hfinal]) huses hcount
  | before | entered | opening => cases hstep

/-- `_final_` was registered once, and closes the open stream. -/
theorem Proper.final {Ms : List Module} {as : List Action} {s s' : Process} (h : Proper as s)
    (hstep : step Ms s .final = some s') : Proper (as ++ [.final]) s' := by
  obtain ⟨-, hstep⟩ := Option.ite_none_left_eq_some.mp hstep
  cases h with
  | @inUse _ ready n uses hmain hn huses =>
    simp only at hstep
    split at hstep
    next k _ =>
      obtain rfl : k = 0 := by omega
      cases hstep
      refine .closed (by simp [hmain]) (by simp) ?_ ?_
      · exact List.forall_mem_append.mpr ⟨fun u hu => by rw [huses u hu], by simp⟩
      · rw [List.countP_append, countP_fclose_eq_zero huses]
        rfl
    next => cases hstep
  | before | entered | opening | closed =>
    simp at hstep

/-- Every step of an orderly run keeps that. -/
theorem Proper.step {Ms : List Module} (hinit : Ms.any Module.startsWithInit = true)
    {as : List Action} {s s' : Process} {a : Action} (h : Proper as s)
    (hord : Orderly (as ++ [a])) (hstep : step Ms s a = some s') : Proper (as ++ [a]) s' := by
  obtain ⟨-, hopen, hmain, hprobe⟩ := hord.concat
  obtain ⟨-, hact⟩ := Option.ite_none_left_eq_some.mp hstep
  cases a with
  | main =>
    -- `main` was not entered before.
    have hnot := hmain rfl
    rw [if_pos hinit] at hact
    cases h with
    | before hbegun =>
      cases hact
      exact .entered (by simp) ((begun_concat_iff (by simp) (by simp)).not.mpr hbegun)
    | entered h | opening h | inUse h | closed h => exact absurd h hnot
  | fopen ok =>
    cases ok with
    | false => exact absurd rfl hopen
    | true =>
      cases h with
      | entered hmain hbegun =>
        cases hact
        exact .opening (by simp [hmain]) ((begun_concat_iff (by simp) (by simp)).not.mpr hbegun)
      | before | opening | inUse | closed => cases hact
  | atexit ok =>
    cases h with
    | opening hmain =>
      cases hact
      have hle : (0 + if ok then 1 else 0) ≤ 1 := by cases ok <;> decide
      exact .inUse (by simp [hmain]) hle (by simp)
    | before | entered | inUse | closed => cases hact
  | body => exact h.body hstep
  | probe t =>
    -- `_init_` is over and `_final_` has not run, so the log is open.
    obtain ⟨hbegun, hnot⟩ := hprobe t rfl
    obtain ⟨-, hact⟩ := Option.ite_none_right_eq_some.mp hact
    cases h with
    | inUse hmain hn huses =>
      cases hact
      exact .inUse (by simp [hmain]) hn (List.forall_mem_append.mpr ⟨huses, by simp⟩)
    | before h | entered _ h | opening _ h => exact absurd hbegun h
    | closed _ hfinal => exact absurd hfinal hnot
  | exit =>
    obtain ⟨-, hact⟩ := Option.ite_none_right_eq_some.mp hact
    cases hact
    exact h.of_phase (by simp) (by simp) _
  | final => exact h.final hstep
  | terminate =>
    cases hact
    exact h.of_phase (by simp) (by simp) _

/-- The stream is used only while it is open, and closed at most once, in every run in which `fopen`
succeeds, `main` is entered once and probes are called only after `_init_` is over, or `main` has
begun with its own code, and before `_final_`, when `main` is in a module of which a function that
has a body passes the filter. -/
theorem stream_open {src : Source} {Ms Ms' : List Module}
    (hlinked : List.Forall₂ src.Instrumented Ms Ms') {M : Module} (hM : M ∈ Ms)
    (hmain : M.main.isSome = true) {F : Function} (hF : F ∈ M.functions) (hbody : F.blocks ≠ [])
    (hadmits : src.admits M.name F = true) {as : List Action} {s : Process}
    (hrun : Run (ofFunction (step Ms')) start as s) (hord : Orderly as) :
    (∀ u ∈ s.uses, u.2 = .opened) ∧ (s.uses.countP fun u => u.1 == .fclose) ≤ 1 := by
  -- The module of `main` has the call of `_init_` after the pass.
  have hinit : Ms'.any Module.startsWithInit = true := by
    obtain ⟨i, hlen, rfl⟩ := List.mem_iff_getElem.mp hM
    obtain ⟨M', hM', hinst⟩ := exists_getElem_right hlinked (List.getElem?_eq_getElem hlen)
    exact List.any_eq_true.mpr ⟨M', List.mem_of_getElem? hM',
      startsWithInit_of_admits hinst hmain hF hbody hadmits⟩
  have hproper : Orderly ([] ++ as) → Proper ([] ++ as) s := by
    refine hrun.invariant_trace (I := fun as s => Orderly as → Proper as s) ?_ ?_
    · intro as s a s' hs hstep hord
      exact (hs hord.concat.1).step hinit hord hstep
    · exact fun _ => .before (by simp [Begun])
  cases hproper hord with
  | before | entered | opening => simp
  | inUse _ _ huses =>
    exact ⟨fun u hu => by rw [huses u hu], (countP_fclose_eq_zero huses).trans_le (Nat.zero_le 1)⟩
  | closed _ _ huses hcount => exact ⟨huses, hcount.le⟩

/-! ## Programs that use the stream when it is not open -/

/-- A function that stores to a `static`. -/
def storing (name : String) (directory : String) : Function where
  name := name
  directory := directory
  file := "main.rs"
  blocks := [[⟨0, .void, .store (.const (.int 1) (.int 32)) (.const (.global "COUNT")
      (.ptr (.int 32))), some 7⟩, ⟨1, .void, .other "ret" [], some 8⟩]]

/-- `main` of a Rust program, which is without debug information. -/
def rustMain : Function := ⟨"main", "", "", [[⟨2, .int 32, .other "ret" [], none⟩]]⟩

/-- A crate `app` with a function of its own. -/
def app : Module := ⟨"app-1f2e.ll", [storing "_ZN3app3run17h01E" "/app", rustMain], 3⟩

/-- A crate `score`, whose name has `core` in it. -/
def score : Module := ⟨"score-1f2e.ll", [storing "_ZN5score3run17h01E" "/score", rustMain], 3⟩

/-- A crate `pool` that `score` is linked with. -/
def pool : Module := ⟨"pool-3d4c.ll", [storing "_ZN4pool3run17h01E" "/pool"], 2⟩

/-- What the walk makes of the block of `storing`, with the call's identity. -/
def probedBlock (file : String) (next : ℕ) : Block :=
  [⟨next, .void, .call (.direct "_probe_") (probeArgs 7 file "store"
      (.const (.bitcast (.global "COUNT") ptrTy) ptrTy)), some 7⟩,
    ⟨0, .void, .store (.const (.int 1) (.int 32)) (.const (.global "COUNT") (.ptr (.int 32))),
      some 7⟩, ⟨1, .void, .other "ret" [], some 8⟩]

/-- `app` after the pass. -/
def appOut : Module :=
  ⟨"app-1f2e.ll",
    [{ storing "_ZN3app3run17h01E" "/app" with blocks := [probedBlock "/app/main.rs" 4] },
      ⟨"main", "", "", [[⟨3, .void, .call (.direct "_init_") [], none⟩,
        ⟨2, .int 32, .other "ret" [], none⟩]]⟩], 5⟩

/-- `pool` after the pass. -/
def poolOut : Module :=
  ⟨"pool-3d4c.ll",
    [{ storing "_ZN4pool3run17h01E" "/pool" with blocks := [probedBlock "/pool/main.rs" 3] }], 4⟩

/-- The walk of the block of `storing`. -/
theorem walks_storing (file : String) (next : ℕ) :
    Source.helloWorldCpp.Walks file next (storing "" "").blocks
      (next + 1, [probedBlock file next]) := by
  rw [Source.Walks, (Source.settles _ file).ends_iff_sweepAll]
  rfl

/-- The pass on `app`. -/
theorem instrumented_app : Source.helloWorldCpp.Instrumented app appOut := by
  refine ⟨.ready, .cons (Source.runs_of_walks rfl (by decide +kernel) rfl rfl (walks_storing _ _))
    (.single (Source.runs_of_not_admits ?_))⟩
  intro F hF
  obtain rfl := Option.some.inj hF
  decide +kernel

/-- The pass on `pool`. -/
theorem instrumented_pool : Source.helloWorldCpp.Instrumented pool poolOut := by
  let F : Function := storing "_ZN4pool3run17h01E" "/pool"
  have hadmits : Source.helloWorldCpp.admits pool.name F = true := by decide +kernel
  have hruns : Source.helloWorldCpp.Runs {} pool 0 (.ready, poolOut) :=
    @Source.runs_of_walks .helloWorldCpp {} pool 0 F F { pool with next := 3 } _ rfl hadmits rfl rfl
      (walks_storing _ _)
  exact ⟨.ready, .single hruns⟩

/-- The pass on `score`, which it leaves as it is. -/
theorem instrumented_score : Source.helloWorldCpp.Instrumented score score := by
  refine ⟨{}, .cons (Source.runs_of_not_admits ?_) (.single (Source.runs_of_not_admits ?_))⟩ <;>
    intro F hF <;> obtain rfl := Option.some.inj hF <;> decide +kernel

/-- A run of `app`. -/
def appRun : List Action :=
  [.main, .fopen true, .atexit true, .body, .probe 0, .probe 1, .exit, .final, .terminate]

/-- The end of the run: the log was printed to twice and closed. -/
def appEnd : Process :=
  ⟨.exited, 0, 0, 0, .closed, 0, [(.fprintf, .opened), (.fprintf, .opened), (.fclose, .opened)]⟩

/-- The run of `app` is orderly. -/
theorem orderly_appRun : Orderly appRun := by
  refine ⟨by decide, by decide, fun pre t post has => ?_⟩
  -- The two probes stand behind the first four steps.
  have hpre : ∃ pre', pre = .main :: .fopen true :: .atexit true :: .body :: pre' ∧
      (pre' = [] ∧ t = 0 ∧ post = [.probe 1, .exit, .final, .terminate] ∨
        pre' = [.probe 0] ∧ t = 1 ∧ post = [.exit, .final, .terminate]) := by
    simpa [appRun, List.cons_eq_append_iff] using has
  obtain ⟨pre', rfl, ⟨rfl, -⟩ | ⟨rfl, -⟩⟩ := hpre <;> decide

/-- A run of `app`, with `_final_` at its end. -/
theorem stream_open_app :
    Run (ofFunction (step [appOut])) start appRun appEnd ∧
      (∀ u ∈ appEnd.uses, u.2 = .opened) ∧
      (appEnd.uses.countP fun u => u.1 == .fclose) ≤ 1 := by
  have hrun : Run (ofFunction (step [appOut])) start appRun appEnd := run_function_iff.mpr rfl
  exact ⟨hrun, stream_open (.cons instrumented_app .nil) List.mem_cons_self rfl List.mem_cons_self
    (by decide) (by decide +kernel) hrun orderly_appRun⟩

/-- Runs in which `fp` is used while it is not open: the `fopen` of `app` fails; a thread of `app`
outlives `main` and calls a probe after `_final_`; a probe of `app` is called before `main`, and one
by another thread while `_init_` opens the log; `main` of `app` is entered again, so that `_final_`
runs twice; and in `score` no function passes the filter, so that its `main` does not call `_init_`,
while `pool` calls probes. -/
theorem stream_misused :
    (Source.helloWorldCpp.Instrumented app appOut ∧
      (∃ s, Run (ofFunction (step [appOut])) start
        [.main, .fopen false, .atexit true, .body, .probe 0, .exit, .final] s ∧
        s.uses = [(.fprintf, .null), (.fclose, .null)]) ∧
      (∃ s, Run (ofFunction (step [appOut])) start
        [.main, .fopen true, .atexit true, .body, .probe 0, .exit, .final, .probe 1] s ∧
        s.uses = [(.fprintf, .opened), (.fclose, .opened), (.fprintf, .closed)]) ∧
      (∃ s, Run (ofFunction (step [appOut])) start [.probe 0, .main, .probe 1, .fopen true] s ∧
        s.uses = [(.fprintf, .null), (.fprintf, .null)]) ∧
      ∃ s, Run (ofFunction (step [appOut])) start
        [.main, .fopen true, .atexit true, .body, .main, .fopen true, .atexit true, .body, .exit,
          .final, .final] s ∧
        s.uses = [(.fclose, .opened), (.fclose, .closed)]) ∧
    List.Forall₂ Source.helloWorldCpp.Instrumented [score, pool] [score, poolOut] ∧
      ∃ s, Run (ofFunction (step [score, poolOut])) start [.main, .body, .probe 0] s ∧
        s.uses = [(.fprintf, .null)] := by
  refine ⟨⟨instrumented_app, ⟨_, run_function_iff.mpr rfl, rfl⟩, ⟨_, run_function_iff.mpr rfl, rfl⟩,
      ⟨_, run_function_iff.mpr rfl, rfl⟩, ⟨_, run_function_iff.mpr rfl, rfl⟩⟩,
    .cons instrumented_score (.cons instrumented_pool .nil), ⟨_, run_function_iff.mpr rfl, rfl⟩⟩

end LifeCycle

end AtomicityViolation
