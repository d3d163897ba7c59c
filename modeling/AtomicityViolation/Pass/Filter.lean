import AtomicityViolation.Library.Infix
import AtomicityViolation.Pass.Run

/-!
# The filter and the functions of a crate

The filter of `HelloWorld.cpp` is meant to admit the functions of the crate whose module is
instrumented. It looks for the name of the module up to its last dash in the mangled name of the
function, and for `core` and `std`. For a module of `cargo_run.sh` the text before the dash is the
name of the crate; for one of `run.sh` there is no dash, and the `.ll` stays. `core` and `std` are
found in a mangled name exactly when they are in one of its segments, such as the trait path of a
`Drop` impl. So the filter decides as the crate does only under conditions (`admits_iff_definedIn`).
-/

namespace AtomicityViolation

/-! ## Names -/

/-- A Rust identifier. -/
def IsIdent (s : List Char) : Prop :=
  s ≠ [] ∧ (∀ c ∈ s.head?, c.isDigit = false) ∧
    ∀ c ∈ s, c = '_' ∨ c.isAlphanum = true ∨ 128 ≤ c.toNat

/-- The characters of a list are checked, and not every character for being in the list. -/
local instance (priority := 2000) decidableForallMemChars (s : List Char) (p : Char → Prop)
    [DecidablePred p] : Decidable (∀ c ∈ s, p c) :=
  List.decidableBAll p s

instance (s : List Char) : Decidable (IsIdent s) :=
  have : Decidable (∀ c ∈ s.head?, c.isDigit = false) := Option.decidableForallMem s.head?
  inferInstanceAs (Decidable (_ ∧ _ ∧ _))

/-- The name of a crate. -/
structure CrateName where
  text : List Char
  ident : IsIdent text

/-- There is no dash in it. -/
theorem CrateName.dash_notMem (c : CrateName) : '-' ∉ c.text := by
  intro h
  have hdash := c.ident.2.2 '-' h
  revert hdash
  decide

/-- The two forms of the name of a module. -/
inductive ModuleForm where
  /-- The name of the crate and `.ll`, from `run.sh`. -/
  | run
  /-- The name of the crate, a dash, a hash without a dash and `.ll`, from `cargo_run.sh`. -/
  | cargo (hash : List Char) (dash_notMem : '-' ∉ hash)

namespace ModuleForm

/-- The name of the module of a crate. -/
def moduleName (c : CrateName) : ModuleForm → String
  | .run => String.ofList (c.text ++ ".ll".toList)
  | .cargo hash _ => String.ofList (c.text ++ '-' :: (hash ++ ".ll".toList))

/-- What `filename` is then. -/
def filename (c : CrateName) : ModuleForm → List Char
  | .run => c.text ++ ".ll".toList
  | .cargo _ _ => c.text

end ModuleForm

/-- A segment of a mangled name: its length and the segment. -/
def mangled (segment : List Char) : List Char := Nat.toDigits 10 segment.length ++ segment

/-- A path that is mangled as rustc's legacy scheme does it: the segments, and a hash of 16
hexadecimal digits as the last one. -/
structure MangledName where
  path : List (List Char)
  hash : List Char
  path_ne_nil : path ≠ []
  hash_hex : ∀ c ∈ hash, c ∈ "0123456789abcdef".toList
  hash_length : hash.length = 16

namespace MangledName

/-- The mangled name. -/
def text (N : MangledName) : List Char :=
  "_ZN".toList ++ N.path.flatMap mangled ++ mangled ('h' :: N.hash) ++ ['E']

/-- The function is defined in a crate: its path starts with the name of the crate, or with an impl
for a type of the crate. -/
def DefinedIn (N : MangledName) (c : CrateName) : Prop :=
  ∃ segment rest, N.path = segment :: rest ∧
    (segment = c.text ∨ "_$LT$".toList ++ c.text ++ "..".toList <+: segment)

/-- A segment has `core` or `std` in it. -/
def NamesStd (N : MangledName) : Prop :=
  ∃ segment ∈ N.path, "core".toList <:+: segment ∨ "std".toList <:+: segment

end MangledName

/-! ## The text before the dash -/

/-- The part of a text before its last dash. -/
theorem upToLastDash_append {s t : List Char} (h : '-' ∉ t) : upToLastDash (s ++ '-' :: t) = s := by
  have hdrop : t.reverse.dropWhile (· ≠ '-') = [] := by
    rw [List.dropWhile_eq_nil_iff]
    intro c hc
    simpa using fun he : c = '-' => h (he ▸ List.mem_reverse.mp hc)
  have hmem : '-' ∈ s ++ '-' :: t := by simp
  rw [upToLastDash, if_pos hmem, List.reverse_append, List.reverse_cons, List.append_assoc,
    List.dropWhile_append, hdrop]
  simp

/-- What `HelloWorld.cpp` takes as `filename`. -/
theorem upToLastDash_moduleName (form : ModuleForm) (c : CrateName) :
    upToLastDash (form.moduleName c).toList = form.filename c := by
  cases form with
  | run =>
    have hdash : '-' ∉ c.text ++ ".ll".toList := by simpa using c.dash_notMem
    simp only [ModuleForm.moduleName, ModuleForm.filename, String.toList_ofList, upToLastDash,
      if_neg hdash]
  | cargo hash hhash =>
    have hdash : '-' ∉ hash ++ ".ll".toList := by simpa using hhash
    simp only [ModuleForm.moduleName, ModuleForm.filename, String.toList_ofList,
      upToLastDash_append hdash]

/-! ## Searching a mangled name -/

namespace MangledName

/-- A word without digits is found in a text and a mangled name behind its mark only inside the
text, a segment, or the hash and the mark at its end. -/
theorem infix_behind_iff {w : List Char} (hw : ∀ c ∈ w, c.isDigit = false) (N : MangledName)
    (lead : List Char) :
    w <:+: lead ++ (N.path.flatMap mangled ++ mangled ('h' :: N.hash) ++ ['E']) ↔
      w <:+: lead ∨ (∃ segment ∈ N.path, w <:+: segment) ∨ w <:+: 'h' :: (N.hash ++ ['E']) := by
  -- The pieces with the lengths in front of them, and the end of the name with its hash.
  let pieces : List (List Char × List Char) :=
    N.path.map (fun s => (Nat.toDigits 10 s.length, s)) ++
      [(Nat.toDigits 10 ('h' :: N.hash).length, 'h' :: (N.hash ++ ['E']))]
  have htext : N.path.flatMap mangled ++ mangled ('h' :: N.hash) ++ ['E'] =
      pieces.flatMap fun x => x.1 ++ x.2 := by
    have hmangled : mangled = fun s => Nat.toDigits 10 s.length ++ s := rfl
    simp [pieces, hmangled, List.flatMap_map, List.flatMap_append]
  have hlength : ∀ x ∈ pieces, ∃ n, x.1 = Nat.toDigits 10 n := by
    intro x hx
    rcases List.mem_append.mp hx with hx | hx
    · obtain ⟨s, -, rfl⟩ := List.mem_map.mp hx
      exact ⟨_, rfl⟩
    · rw [List.mem_singleton.mp hx]
      exact ⟨_, rfl⟩
  have hne : ∀ x ∈ pieces, x.1 ≠ [] := by
    intro x hx
    obtain ⟨n, hn⟩ := hlength x hx
    rw [hn]
    exact Nat.toDigits_ne_nil
  have hsep : ∀ x ∈ pieces, ∀ d ∈ x.1, d ∉ w := by
    intro x hx d hd hdw
    obtain ⟨n, hn⟩ := hlength x hx
    have hdigit := Nat.isDigit_of_mem_toDigits (by decide) (by decide) (hn ▸ hd)
    simp [hw d hdw] at hdigit
  rw [htext, Pieces.infix_pieces_iff hne hsep]
  simp [pieces, or_and_right, exists_or]

/-- A word without digits is found in a mangled name only inside the mark at its start, a segment,
or the hash and the mark at its end. -/
theorem infix_text_iff {w : List Char} (hw : ∀ c ∈ w, c.isDigit = false) (N : MangledName) :
    w <:+: N.text ↔ w <:+: "_ZN".toList ∨ (∃ segment ∈ N.path, w <:+: segment) ∨
      w <:+: 'h' :: (N.hash ++ ['E']) := by
  rw [← infix_behind_iff hw N, text]
  simp only [List.append_assoc]

/-- A word with a character that no hash has is found only inside a segment. -/
theorem infix_text_iff_of_mem {w : List Char} {c : Char} (hw : ∀ c ∈ w, c.isDigit = false)
    (hc : c ∈ w) (hlead : c ∉ "_ZN".toList) (hhash : c ∉ "0123456789abcdefhE".toList)
    (N : MangledName) : w <:+: N.text ↔ ∃ segment ∈ N.path, w <:+: segment := by
  rw [infix_text_iff hw]
  have hend : c ∉ 'h' :: (N.hash ++ ['E']) := by
    intro hmem
    simp only [List.mem_cons, List.mem_append, List.not_mem_nil, or_false] at hmem
    rcases hmem with rfl | hmem | rfl
    · exact hhash (by decide)
    · have hsub : ∀ d ∈ "0123456789abcdef".toList, d ∈ "0123456789abcdefhE".toList := by decide
      exact hhash (hsub c (N.hash_hex c hmem))
    · exact hhash (by decide)
  constructor
  · rintro (h | h | h)
    · exact absurd (h.subset hc) hlead
    · exact h
    · exact absurd (h.subset hc) hend
  · exact fun h => .inr (.inl h)

/-- `core` and `std` are found in a mangled name when they are in one of its segments. -/
theorem namesStd_iff (N : MangledName) :
    N.NamesStd ↔ "core".toList <:+: N.text ∨ "std".toList <:+: N.text := by
  rw [infix_text_iff_of_mem (c := 'o') (by decide) (by decide) (by decide) (by decide),
    infix_text_iff_of_mem (c := 's') (by decide) (by decide) (by decide) (by decide), ← exists_or]
  simp only [NamesStd, ← and_or_left]

/-- The name of the crate is found in the mangled names of its functions. -/
theorem DefinedIn.infix_text {N : MangledName} {c : CrateName} (h : N.DefinedIn c) :
    c.text <:+: N.text := by
  obtain ⟨segment, rest, hpath, hsegment⟩ := h
  have hin : c.text <:+: segment := by
    rcases hsegment with rfl | hprefix
    · exact List.infix_rfl
    · exact (List.infix_append _ _ _).trans hprefix.isInfix
  refine hin.trans ⟨"_ZN".toList ++ Nat.toDigits 10 segment.length,
    rest.flatMap mangled ++ mangled ('h' :: N.hash) ++ ['E'], ?_⟩
  simp [text, hpath, mangled]

end MangledName

/-! ## The decision -/

section Decision

variable {c : CrateName} {form : ModuleForm} {N : MangledName} {F : Function}

/-- The filter at a function with a directory that is not that of a dependency. -/
theorem HelloWorldCpp.admits_iff (hname : F.name = String.ofList N.text) (hdir : F.directory ≠ "")
    (hcargo : found F.directory "cargo" = false) :
    admits (form.moduleName c) F = true ↔ form.filename c <:+: N.text ∧ ¬ N.NamesStd := by
  have hlength : (F.directory.length == 0) = false := by
    simpa using hdir
  have hfound : ∀ p : String, found F.name p = decide (p.toList <:+: N.text) := fun p => by
    rw [found, hname, String.toList_ofList]
  simp only [admits, hcargo, hlength, hfound, upToLastDash_moduleName, String.toList_ofList,
    Bool.or_false, Bool.not_eq_true', Bool.or_eq_false_iff, Bool.not_eq_false', decide_eq_true_eq,
    decide_eq_false_iff_not, N.namesStd_iff, not_or]

/-- The filter of `HelloWorld.cpp` admits the functions of the crate and no others exactly when, for
a function of the crate, no segment of its name has `core` or `std` in it, and for a module of
`run.sh` the name of the crate with `.ll` is in the name of the function; and when, for a function
of another crate, the text that is looked for is not in its name, or a segment has `core` or `std`
in it. -/
theorem HelloWorldCpp.admits_iff_definedIn (hname : F.name = String.ofList N.text)
    (hdir : F.directory ≠ "") (hcargo : found F.directory "cargo" = false) :
    (admits (form.moduleName c) F = true ↔ N.DefinedIn c) ↔
      (N.DefinedIn c → ¬ N.NamesStd ∧ (form = .run → c.text ++ ".ll".toList <:+: N.text)) ∧
      (¬ N.DefinedIn c → form.filename c <:+: N.text → N.NamesStd) := by
  rw [admits_iff hname hdir hcargo]
  by_cases hin : N.DefinedIn c
  · -- For a module of `cargo_run.sh` the name of the crate is in the name of the function.
    have hfilename : form.filename c <:+: N.text ↔
        (form = .run → c.text ++ ".ll".toList <:+: N.text) := by
      cases form with
      | run => simp [ModuleForm.filename]
      | cargo hash hhash => simpa [ModuleForm.filename] using hin.infix_text
    simp only [hin, iff_true, forall_const, not_true_eq_false, false_implies, and_true, hfilename]
    exact and_comm
  · simp only [hin, iff_false, false_implies, true_and, not_false_eq_true, forall_const, not_and,
      not_not]

end Decision

/-! ## The channel of tokio -/

/-- The crate of `inputs/tokio_59c0044`. -/
def tokio : CrateName := ⟨"tokio_59c0044".toList, by decide⟩

/-- The name of a path of two segments. -/
def nameOf (first second : String) : MangledName where
  path := [first.toList, second.toList]
  hash := "0f1e2d3c4b5a6978".toList
  path_ne_nil := List.cons_ne_nil _ _
  hash_hex := by decide
  hash_length := by decide

/-- `main` of the crate. -/
def tokioMain : MangledName := nameOf "tokio_59c0044" "main"

/-- `drop` of `impl<T> Drop for Sender<T>`. -/
def senderDrop : MangledName :=
  nameOf "_$LT$tokio_59c0044..Sender$LT$T$GT$$u20$as$u20$core..ops..drop..Drop$GT$" "drop"

/-- A function of this name in a source file of the crate. -/
def tokioFunction (N : MangledName) : Function :=
  ⟨String.ofList N.text, "/src/inputs/tokio_59c0044", "src/main.rs", []⟩

/-- The module of `cargo_run.sh`. -/
def tokioModule : ModuleForm := .cargo "1a2b3c4d5e6f7089".toList (by decide)

/-- `main` is decided rightly in the module of `cargo_run.sh`. -/
theorem HelloWorldCpp.admits_iff_tokioMain :
    (admits (tokioModule.moduleName tokio) (tokioFunction tokioMain) = true ↔
      tokioMain.DefinedIn tokio) ↔
    (tokioMain.DefinedIn tokio → ¬ tokioMain.NamesStd ∧
      (tokioModule = .run → tokio.text ++ ".ll".toList <:+: tokioMain.text)) ∧
    (¬ tokioMain.DefinedIn tokio → tokioModule.filename tokio <:+: tokioMain.text →
      tokioMain.NamesStd) :=
  admits_iff_definedIn rfl (by decide) (by decide)

/-- Functions that are decided wrongly: the `drop` of the crate in the module of `cargo_run.sh`, as
its segment has the path of the trait, and every function of the crate in the module of `run.sh`. A
function `b` of a crate `a` is admitted for a crate `a1`, by the length of its segment. -/
theorem HelloWorldCpp.admits_wrong :
    (senderDrop.DefinedIn tokio ∧
      admits (tokioModule.moduleName tokio) (tokioFunction senderDrop) = false) ∧
    (tokioMain.DefinedIn tokio ∧
      admits (ModuleForm.run.moduleName tokio) (tokioFunction tokioMain) = false) ∧
    (¬ (nameOf "a" "b").DefinedIn ⟨"a1".toList, by decide⟩ ∧
      admits (tokioModule.moduleName ⟨"a1".toList, by decide⟩) (tokioFunction (nameOf "a" "b")) =
        true) ∧
    ¬ ∀ (c : CrateName) (form : ModuleForm) (N : MangledName) (F : Function),
      F.name = String.ofList N.text → F.directory ≠ "" → found F.directory "cargo" = false →
      (admits (form.moduleName c) F = true ↔ N.DefinedIn c) := by
  have hdrop : senderDrop.DefinedIn tokio := ⟨_, _, rfl, .inr (by decide)⟩
  have hrejected : admits (tokioModule.moduleName tokio) (tokioFunction senderDrop) = false := by
    decide +kernel
  refine ⟨⟨hdrop, hrejected⟩, ⟨⟨_, _, rfl, .inl rfl⟩, by decide +kernel⟩, ⟨?_, by decide +kernel⟩,
    fun h => ?_⟩
  · rintro ⟨segment, rest, hpath, hsegment⟩
    obtain rfl : "a".toList = segment := (List.cons.inj hpath).1
    revert hsegment
    decide
  · have hadmits := (h tokio tokioModule senderDrop (tokioFunction senderDrop) rfl (by decide)
      (by decide)).mpr hdrop
    rw [hrejected] at hadmits
    cases hadmits

end AtomicityViolation
