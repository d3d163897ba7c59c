import Mathlib.Data.List.TakeWhile
import AtomicityViolation.Pass.Layout

/-!
# A run of the pass on a function

`HelloWorld::run` decides from the names whether it instruments a function (`Source.admits`),
initialises the pass object before the first function that it does (`initialization`, the same in
both versions), and walks the body. In `HelloWorld.cpp` two unconditional returns, on lines 35 and
65, stand before the filter and before the walk; the model is of the code around them.
-/

namespace AtomicityViolation

/-- A function of a module. `directory` and `file` are those of its `DISubprogram`, and empty when
it has none. A declaration has no blocks. -/
structure Function where
  name : String
  directory : String
  file : String
  blocks : List Block
  deriving DecidableEq, Repr

/-- A module, with the first identity that no instruction in it has. -/
structure Module where
  name : String
  functions : List Function
  next : ℕ
  deriving DecidableEq, Repr

/-! ## The filter -/

/-- `s.substr(0, s.rfind("-"))`, which is `s` when there is no dash. -/
def upToLastDash (s : List Char) : List Char :=
  if '-' ∈ s then ((s.reverse.dropWhile (· ≠ '-')).tail).reverse else s

/-- `s.substr(0, s.find(p))` for a text `p` that is not empty; it is `s` when `p` is not found. -/
def upToFirst (p : List Char) : List Char → List Char
  | [] => []
  | c :: cs => if p <+: c :: cs then [] else c :: upToFirst p cs

/-- The filter of `HelloWorld.cpp`, lines 50 to 59. -/
def HelloWorldCpp.admits (moduleName : String) (F : Function) : Bool :=
  let filename := String.ofList (upToLastDash moduleName.toList)
  !(!found F.name filename || (found F.name "core" || found F.name "std" ||
    F.directory.length == 0 || found F.directory "cargo"))

/-- The filter of `function.cpp`, lines 42 to 49. -/
def FunctionCpp.admits (moduleName : String) (F : Function) : Bool :=
  let filename := String.ofList (upToFirst ".ll".toList moduleName.toList)
  !(!found F.name filename || (found F.name "core" || found F.name "std"))

namespace Source

/-- The filter. -/
def admits : Source → String → Function → Bool
  | .helloWorldCpp => HelloWorldCpp.admits
  | .functionCpp => FunctionCpp.admits

/-- What the probes are given as `file`: the path in `HelloWorld.cpp`, line 52, and the name of the
function in `function.cpp`, line 45. -/
def file : Source → Function → String
  | .helloWorldCpp, F => F.directory ++ "/" ++ F.file
  | .functionCpp, F => F.name

end Source

/-! ## Initialisation -/

/-- The instruction is a PHI. -/
def Inst.isPhi (I : Inst) : Bool :=
  match I.op with
  | .phi _ => true
  | _ => false

/-- The call of `_init_` before the first instruction of the entry block that is not a PHI. -/
def insertInit (next : ℕ) : List Block → Except Fault (List Block)
  | [] => .error .noEntry
  | B :: Bs =>
    match B.dropWhile Inst.isPhi with
    | [] => .error .noEntry
    | I :: rest =>
      let init : Inst := ⟨next, .void, .call (.direct "_init_") [], I.dbg⟩
      .ok ((B.takeWhile Inst.isPhi ++ init :: I :: rest) :: Bs)

/-- The functions of a module after the call of `_init_` was put into `main`, if there is one. -/
def initMain (next : ℕ) : List Function → Except Fault (List Function)
  | [] => .ok []
  | F :: Fs =>
    if F.name = "main" then
      match insertInit next F.blocks with
      | .error e => .error e
      | .ok blocks => .ok ({ F with blocks } :: Fs)
    else
      match initMain next Fs with
      | .error e => .error e
      | .ok Fs' => .ok (F :: Fs')

/-- `initialization`: the callees are looked up or declared, and `main` gets its call. -/
def initialization (M : Module) : Except Fault (HelloWorld × Module) :=
  match initMain M.next M.functions with
  | .error e => .error e
  | .ok functions => .ok (.ready, { M with functions, next := M.next + 1 })

/-! ## The run -/

/-- The pass object and the module after the flag was looked at. -/
def HelloWorld.begin (P : HelloWorld) (M : Module) : Except Fault (HelloWorld × Module) :=
  if P.initial then .ok (P, M) else initialization M

/-- `HelloWorld::run` on function `i` of a module, with fuel for the walk. -/
def Source.run (src : Source) (fuel : ℕ) (P : HelloWorld) (M : Module) (i : ℕ) :
    Except Fault (Option (HelloWorld × Module)) :=
  match M.functions[i]? with
  | none => .ok (some (P, M))
  | some F =>
    if !src.admits M.name F then .ok (some (P, M))
    else
      match P.begin M with
      | .error e => .error e
      | .ok (P', M') =>
        -- The body is read again: it has the call of `_init_` if the function is `main`.
        match M'.functions[i]? with
        | none => .ok (some (P', M'))
        | some F' =>
          match Cursor.walkAll (src.visit P' (src.file F')) fuel M'.next F'.blocks with
          | .error e => .error e
          | .ok none => .ok none
          | .ok (some (next, blocks)) =>
            .ok (some (P', { M' with functions := M'.functions.set i { F' with blocks }, next }))

/-- The run ends with `r`: it does with enough fuel. -/
def Source.Runs (src : Source) (P : HelloWorld) (M : Module) (i : ℕ) (r : HelloWorld × Module) :
    Prop :=
  ∃ n, ∀ m, n ≤ m → src.run m P M i = .ok (some r)

/-- The pass objects that occur: a fresh one, and the one that `initialization` leaves. -/
def HelloWorld.Valid (P : HelloWorld) : Prop := P.initial = true → P = .ready

/-- A module as rustc and clang emit it. -/
structure Module.WellFormed (M : Module) : Prop where
  /-- The identities in use are below the first unused one. -/
  below : ∀ F ∈ M.functions, ∀ B ∈ F.blocks, ∀ I ∈ B, I.Below M.next
  /-- A function named `main` has a body, and its entry block an instruction that is not a PHI. -/
  main_entry : ∀ F ∈ M.functions, F.name = "main" →
    ∃ B Bs, F.blocks = B :: Bs ∧ ∃ I ∈ B, I.isPhi = false
  /-- The lock functions of `std` have the arguments that rustc gives them. -/
  operands : ∀ F ∈ M.functions, ∀ B ∈ F.blocks, ∀ I ∈ B, ∀ src : Source, ∀ s, src.site I = some s →
    s.hasOperand = true

/-! ## What initialisation does -/

/-- The `_init_` call can be put into a body whose entry block has an instruction that is not a
PHI. -/
theorem insertInit_ok {next : ℕ} {B : Block} {Bs : List Block} (h : ∃ I ∈ B, I.isPhi = false) :
    ∃ blocks, insertInit next (B :: Bs) = .ok blocks := by
  obtain ⟨I, hI, hphi⟩ := h
  unfold insertInit
  cases hdrop : B.dropWhile Inst.isPhi with
  | nil =>
    rw [List.dropWhile_eq_nil_iff] at hdrop
    simp [hdrop I hI] at hphi
  | cons J rest => simp [hdrop]

/-- What a body becomes when the call is put into it: the entry block with one more instruction. -/
theorem insertInit_eq {next : ℕ} {blocks blocks' : List Block}
    (h : insertInit next blocks = .ok blocks') :
    ∃ phis I rest Bs, blocks = (phis ++ I :: rest) :: Bs ∧
      blocks' = (phis ++ ⟨next, .void, .call (.direct "_init_") [], I.dbg⟩ :: I :: rest) :: Bs := by
  cases blocks with
  | nil => cases h
  | cons B Bs =>
    unfold insertInit at h
    cases hdrop : B.dropWhile Inst.isPhi with
    | nil => simp [hdrop] at h
    | cons I rest =>
      simp only [hdrop, Except.ok.injEq] at h
      refine ⟨B.takeWhile Inst.isPhi, I, rest, Bs, ?_, h.symm⟩
      rw [← hdrop, List.takeWhile_append_dropWhile]

/-- What initialisation does to a list of functions: the first one gets the call if it is `main`,
and else the others are looked at. -/
theorem initMain_cons {next : ℕ} {F : Function} {Fs Fs' : List Function}
    (h : initMain next (F :: Fs) = .ok Fs') :
    (F.name = "main" ∧ ∃ blocks, insertInit next F.blocks = .ok blocks ∧
      Fs' = { F with blocks } :: Fs) ∨
    F.name ≠ "main" ∧ ∃ Gs, initMain next Fs = .ok Gs ∧ Fs' = F :: Gs := by
  unfold initMain at h
  split_ifs at h with hmain
  · cases hins : insertInit next F.blocks with
    | error e => simp [hins] at h
    | ok blocks =>
      simp only [hins, Except.ok.injEq] at h
      exact .inl ⟨hmain, blocks, rfl, h.symm⟩
  · cases hrest : initMain next Fs with
    | error e => simp [hrest] at h
    | ok Gs =>
      simp only [hrest, Except.ok.injEq] at h
      exact .inr ⟨hmain, Gs, rfl, h.symm⟩

/-- Initialisation changes a function at most by the call in `main`. -/
theorem initMain_getElem {next : ℕ} {Fs Fs' : List Function} (h : initMain next Fs = .ok Fs')
    {i : ℕ} {F : Function} (hF : Fs[i]? = some F) :
    ∃ blocks, Fs'[i]? = some { F with blocks } ∧
      (blocks = F.blocks ∨ F.name = "main" ∧ insertInit next F.blocks = .ok blocks) := by
  induction Fs generalizing Fs' i with
  | nil => simp at hF
  | cons G Gs ih =>
    rcases initMain_cons h with ⟨hmain, blocks, hins, rfl⟩ | ⟨-, Gs', hrest, rfl⟩
    · cases i with
      | zero =>
        obtain rfl : G = F := by simpa using hF
        exact ⟨blocks, rfl, .inr ⟨hmain, hins⟩⟩
      | succ i => exact ⟨F.blocks, by simpa using hF, .inl rfl⟩
    · cases i with
      | zero =>
        obtain rfl : G = F := by simpa using hF
        exact ⟨G.blocks, rfl, .inl rfl⟩
      | succ i => simpa using ih hrest (by simpa using hF)

/-- Initialisation succeeds when `main`, if there is one, has an entry block. -/
theorem initMain_ok {next : ℕ} {Fs : List Function} (h : ∀ F ∈ Fs, F.name = "main" →
    ∃ B Bs, F.blocks = B :: Bs ∧ ∃ I ∈ B, I.isPhi = false) :
    ∃ Fs', initMain next Fs = .ok Fs' := by
  induction Fs with
  | nil => exact ⟨[], rfl⟩
  | cons G Gs ih =>
    unfold initMain
    split_ifs with hmain
    · obtain ⟨B, Bs, hblocks, hentry⟩ := h G List.mem_cons_self hmain
      obtain ⟨blocks, hins⟩ := @insertInit_ok next B Bs hentry
      simp [hblocks, hins]
    · obtain ⟨Gs', hrest⟩ := ih fun F hF => h F (List.mem_cons_of_mem _ hF)
      simp [hrest]

/-- After the flag was looked at, a valid pass object is initialised, and a function of the module
is changed at most by the call in `main`. -/
theorem HelloWorld.begin_spec {P : HelloWorld} (hP : P.Valid) {M : Module} (hM : M.WellFormed) :
    ∃ M', P.begin M = .ok (.ready, M') ∧ M.next ≤ M'.next ∧
      ∀ (i : ℕ) (F : Function), M.functions[i]? = some F →
        ∃ blocks, M'.functions[i]? = some { F with blocks } ∧
          (blocks = F.blocks ∨ P.initial = false ∧ F.name = "main" ∧
            insertInit M.next F.blocks = .ok blocks) := by
  unfold HelloWorld.begin
  cases hinit : P.initial with
  | true =>
    refine ⟨M, ?_, le_rfl, fun i F hF => ⟨F.blocks, hF, .inl rfl⟩⟩
    simp [hP hinit]
  | false =>
    obtain ⟨Fs', hFs'⟩ := @initMain_ok M.next _ hM.main_entry
    refine ⟨{ M with functions := Fs', next := M.next + 1 }, ?_, Nat.le_succ _, fun i F hF => ?_⟩
    · simp [initialization, hFs']
    · obtain ⟨blocks, hget, hblocks⟩ := initMain_getElem hFs' hF
      exact ⟨blocks, hget, hblocks.imp id fun h => ⟨rfl, h⟩⟩

end AtomicityViolation
