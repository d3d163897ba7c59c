import AtomicityViolation.Pass.Calls
import AtomicityViolation.Pass.Filter

/-!
# Names with lengths in them

The texts that `function.cpp` looks for start with the mark of a mangled name and have the lengths
of the segments in them. Such a text is found in exactly the names whose path starts with its
segments (`pattern_infix_iff`). The segment of the drop of a guard also has the type in it that the
lock is of, and the lengths in the texts, 60, 66 and 67, are those for a type of three characters:
the drops of all other guards are not recorded (`release_recorded_iff`), while `HelloWorld.cpp`
looks for a text without a length. The filter of `function.cpp` takes the name of the module up to
`.ll`, which is the name of the crate for a module of `run.sh` and never in the name of a function
for one of `cargo_run.sh` (`FunctionCpp.admits_iff_ofCrate`).
-/

namespace AtomicityViolation

/-! ## Segments -/

/-- A segment is not empty and does not start with a digit. -/
def IsSegment (s : List Char) : Prop := ∃ c cs, s = c :: cs ∧ c.isDigit = false

/-- A length and then a segment start a mangled segment only if the length is its length. -/
theorem prefix_mangled_iff {n : ℕ} {w s t : List Char} (hw : IsSegment w) (hs : IsSegment s) :
    Nat.toDigits 10 n ++ w <+: mangled s ++ t ↔ s.length = n ∧ w <+: s ++ t := by
  obtain ⟨c, u, rfl, hc⟩ := hw
  obtain ⟨d, v, rfl, hd⟩ := hs
  have hdigits : ∀ m, ∀ x ∈ Nat.toDigits 10 m, x.isDigit = true := fun m x hx =>
    Nat.isDigit_of_mem_toDigits (by decide) (by decide) hx
  have hlength : Nat.toDigits 10 n = Nat.toDigits 10 (d :: v).length ↔ (d :: v).length = n := by
    constructor
    · intro h
      have hback := congrArg (fun ds => Nat.ofDigitChars 10 ds 0) h
      simpa [eq_comm] using hback
    · exact fun h => h ▸ rfl
  rw [mangled, List.append_assoc, Pieces.prefix_span_iff (hdigits _) (hdigits _) hc, hlength]
  simpa using hd

/-- Lengths and segments start no text that starts with no digit. -/
theorem not_prefix_of_head {n : ℕ} {w t : List Char} {c : Char} (hc : c.isDigit = false) :
    ¬ Nat.toDigits 10 n ++ w <+: c :: t := by
  intro h
  obtain ⟨d, ds, hds⟩ := List.exists_cons_of_ne_nil (Nat.toDigits_ne_nil (n := n) (b := 10))
  have hdigit : d.isDigit = true :=
    Nat.isDigit_of_mem_toDigits (by decide) le_rfl (hds ▸ List.mem_cons_self)
  rw [hds, List.cons_append, List.cons_prefix_cons] at h
  rw [h.1, hc] at hdigit
  cases hdigit

/-- Mangled segments, and then a length and the beginning of a segment, start the text of other ones
exactly when these start with the segments, and with one of the length that begins so. -/
theorem prefix_segments_iff {ss ts : List (List Char)} {n : ℕ} {w : List Char}
    (hss : ∀ s ∈ ss, IsSegment s) (hts : ∀ s ∈ ts, IsSegment s) (hw : IsSegment w)
    (hn : w.length ≤ n) :
    ss.flatMap mangled ++ (Nat.toDigits 10 n ++ w) <+: ts.flatMap mangled ++ ['E'] ↔
      ∃ segment rest, ts = ss ++ segment :: rest ∧ segment.length = n ∧ w <+: segment := by
  induction ss generalizing ts with
  | nil =>
    cases ts with
    | nil => simpa using not_prefix_of_head (by decide)
    | cons t ts =>
      have ht := hts t List.mem_cons_self
      rw [List.flatMap_nil, List.nil_append, List.flatMap_cons, List.append_assoc,
        prefix_mangled_iff hw ht]
      constructor
      · rintro ⟨rfl, h⟩
        refine ⟨t, ts, rfl, rfl, ?_⟩
        exact List.prefix_of_prefix_length_le h (List.prefix_append _ _) hn
      · rintro ⟨segment, rest, hts', rfl, h⟩
        obtain ⟨rfl, -⟩ := List.cons.inj hts'
        exact ⟨rfl, h.trans (List.prefix_append _ _)⟩
  | cons s ss ih =>
    obtain ⟨hs, hss'⟩ := List.forall_mem_cons.mp hss
    cases ts with
    | nil =>
      refine iff_of_false ?_ (by simp)
      rw [List.flatMap_cons, mangled, List.append_assoc, List.append_assoc, List.flatMap_nil,
        List.nil_append]
      exact not_prefix_of_head (by decide)
    | cons t ts =>
      obtain ⟨ht, hts'⟩ := List.forall_mem_cons.mp hts
      obtain ⟨c, u, rfl, hc⟩ := hs
      have hhead : IsSegment ((c :: u) ++ (ss.flatMap mangled ++ (Nat.toDigits 10 n ++ w))) :=
        ⟨c, _, rfl, hc⟩
      rw [List.flatMap_cons, mangled, List.append_assoc, List.append_assoc, List.flatMap_cons,
        List.append_assoc, prefix_mangled_iff hhead ht]
      constructor
      · rintro ⟨hlength, h⟩
        obtain ⟨rfl, hrest⟩ := (List.prefix_append_inj_of_length_eq hlength.symm).mp h
        obtain ⟨segment, rest, rfl, hn', hw'⟩ := (ih hss' hts').mp hrest
        exact ⟨segment, rest, rfl, hn', hw'⟩
      · rintro ⟨segment, rest, heq, hn', hw'⟩
        obtain ⟨rfl, hrest⟩ := List.cons.inj heq
        exact ⟨rfl, (List.prefix_append_right_inj _).mpr
          ((ih hss' hts').mpr ⟨segment, rest, hrest, hn', hw'⟩)⟩

/-! ## Texts with lengths in a mangled name -/

/-- A text with lengths in it: segments, and the beginning of a segment of a length. -/
def pattern (ss : List (List Char)) (n : ℕ) (w : List Char) : List Char :=
  "_ZN".toList ++ (ss.flatMap mangled ++ (Nat.toDigits 10 n ++ w))

namespace MangledName

/-- The segments are ones of rustc, and the mark of a mangled name is in none of them. -/
structure Plain (N : MangledName) : Prop where
  segment : ∀ s ∈ N.path, IsSegment s
  unmarked : ∀ s ∈ N.path, ¬ "_ZN".toList <:+: s

/-- The mark of a plain mangled name is at its start only. -/
theorem Plain.mark_iff {N : MangledName} (hN : N.Plain) {w : List Char} :
    "_ZN".toList ++ w <:+: N.text ↔ "_ZN".toList ++ w <+: N.text := by
  refine ⟨fun h => ?_, List.IsPrefix.isInfix⟩
  have htext : N.text = '_' :: ("ZN".toList ++
      (N.path.flatMap mangled ++ mangled ('h' :: N.hash) ++ ['E'])) := by
    simp [text]
  rw [htext, List.infix_cons_iff] at h
  rcases h with h | h
  · rwa [htext]
  · -- The mark would be in the rest of the name.
    exfalso
    have hmark : "_ZN".toList <:+: _ := (List.prefix_append _ _).isInfix.trans h
    rw [infix_behind_iff (by simp)] at hmark
    rcases hmark with hmark | ⟨s, hs, hmark⟩ | hmark
    · revert hmark
      decide
    · exact hN.unmarked s hs hmark
    · have hmem : 'Z' ∈ 'h' :: (N.hash ++ ['E']) := hmark.subset (by decide)
      have hhash : 'Z' ∉ N.hash := fun hz => absurd (N.hash_hex 'Z' hz) (by decide)
      simp [hhash] at hmem

/-- A text with lengths is found in exactly the names whose path, with the hash behind it, starts
with its segments and goes on with one of the length that begins so. -/
theorem Plain.pattern_infix_iff {N : MangledName} (hN : N.Plain) {ss : List (List Char)} {n : ℕ}
    {w : List Char} (hss : ∀ s ∈ ss, IsSegment s) (hw : IsSegment w) (hn : w.length ≤ n) :
    pattern ss n w <:+: N.text ↔ ∃ segment rest,
      N.path ++ ['h' :: N.hash] = ss ++ segment :: rest ∧ segment.length = n ∧ w <+: segment := by
  have hhash : IsSegment ('h' :: N.hash) := ⟨_, _, rfl, by decide⟩
  have hsegments : ∀ s ∈ N.path ++ ['h' :: N.hash], IsSegment s :=
    List.forall_mem_append.mpr ⟨hN.segment, List.forall_mem_singleton.mpr hhash⟩
  have htext : N.text =
      "_ZN".toList ++ ((N.path ++ ['h' :: N.hash]).flatMap mangled ++ ['E']) := by
    simp [text]
  rw [pattern, hN.mark_iff, htext, List.prefix_append_right_inj,
    prefix_segments_iff hss hsegments hw hn]

end MangledName

/-! ## The drops of guards -/

namespace GuardKind

/-- The type of the guard, as it is in a segment. -/
def typeName : GuardKind → List Char
  | .mutex => "std..sync..mutex..MutexGuard".toList
  | .read => "std..sync..rwlock..RwLockReadGuard".toList
  | .write => "std..sync..rwlock..RwLockWriteGuard".toList

/-- The last segment of `core::ptr::drop_in_place` for the guard of a lock of a `T`. -/
def dropSegment (kind : GuardKind) (T : List Char) : List Char :=
  "drop_in_place$LT$".toList ++ (kind.typeName ++ ("$LT$".toList ++ (T ++ "$GT$$GT$".toList)))

/-- The length of the segment in the text of `function.cpp`. -/
def dropLength : GuardKind → ℕ
  | .mutex => 60
  | .read => 66
  | .write => 67

/-- What stands around the type that the lock is of. -/
theorem dropSegment_eq (kind : GuardKind) (T : List Char) : kind.dropSegment T =
    "drop_in_place$LT$".toList ++ (kind.typeName ++ ("$LT$".toList ++ (T ++ "$GT$$GT$".toList))) :=
  rfl

/-- The length is that for a type of three characters. -/
theorem length_dropSegment (kind : GuardKind) (T : List Char) :
    (kind.dropSegment T).length = kind.dropLength ↔ T.length = 3 := by
  have hlength : (kind.dropSegment T).length =
      17 + (kind.typeName.length + (4 + (T.length + 8))) := by
    rw [dropSegment_eq]
    simp only [List.length_append]
    rfl
  have htype : kind.typeName.length + 32 = kind.dropLength := by cases kind <;> rfl
  omega

/-- The segment starts with the name of its own guard only. -/
theorem prefix_dropSegment_iff {kind l : GuardKind} {T : List Char} :
    "drop_in_place$LT$".toList ++ l.typeName <+: kind.dropSegment T ↔ l = kind := by
  rw [dropSegment_eq, List.prefix_append_right_inj]
  constructor
  · intro h
    -- The names differ in their first characters.
    have htake : l.typeName.take 26 = kind.typeName.take 26 := by
      have hlength : ∀ k : GuardKind, 26 ≤ k.typeName.length := by
        intro k
        cases k <;> decide
      have heq := congrArg (List.take 26) (List.prefix_iff_eq_take.mp h)
      rwa [List.take_take, Nat.min_eq_left (hlength l),
        List.take_append_of_le_length (hlength kind)] at heq
    have hdiffer : ∀ l kind : GuardKind, l.typeName.take 26 = kind.typeName.take 26 → l = kind := by
      intro l kind
      cases l <;> cases kind <;> decide
    exact hdiffer l kind htake
  · rintro rfl
    exact List.prefix_append _ _

/-- The mark of a mangled name is in the segment only if it is in the type. -/
theorem mark_infix_of_dropSegment {kind : GuardKind} {T : List Char}
    (h : "_ZN".toList <:+: kind.dropSegment T) : "_ZN".toList <:+: T := by
  have hcut : kind.dropSegment T =
      ("drop_in_place$LT$".toList ++ (kind.typeName ++ "$LT".toList)) ++
        '$' :: (T ++ '$' :: "GT$$GT$".toList) := by
    rw [dropSegment_eq]
    simp only [List.append_assoc]
    rfl
  have hlead : ¬ "_ZN".toList <:+:
      "drop_in_place$LT$".toList ++ (kind.typeName ++ "$LT".toList) := by
    cases kind <;> decide
  have htail : ¬ "_ZN".toList <:+: "GT$$GT$".toList := by decide
  rw [hcut, Pieces.infix_append_cons_iff (by decide), Pieces.infix_append_cons_iff (by decide)] at h
  exact (h.resolve_left hlead).resolve_right htail

end GuardKind

/-- A mangled name of `core::ptr::drop_in_place` for the guard of a lock of a `T`. -/
def MangledName.Drops (N : MangledName) (kind : GuardKind) (T : List Char) : Prop :=
  N.path = ["core".toList, "ptr".toList, kind.dropSegment T]

/-- It is plain if the mark of a mangled name is not in the type. -/
theorem MangledName.Drops.plain {N : MangledName} {kind : GuardKind} {T : List Char}
    (hN : N.Drops kind T) (hT : ¬ "_ZN".toList <:+: T) : N.Plain where
  segment := by
    rw [hN]
    simp only [List.forall_mem_cons, List.not_mem_nil, false_implies, implies_true, and_true]
    exact ⟨⟨_, _, rfl, by decide⟩, ⟨_, _, rfl, by decide⟩, ⟨_, _, rfl, by decide⟩⟩
  unmarked := by
    rw [hN]
    simp only [List.forall_mem_cons, List.not_mem_nil, false_implies, implies_true, and_true]
    exact ⟨by decide, by decide, fun h => hT (GuardKind.mark_infix_of_dropSegment h)⟩

namespace LockOperation

/-- The arm of `function.cpp` for the operation. -/
def functionArm : LockOperation → Arm
  | .acquire .mutex => ⟨"_ZN3std4sync5mutex14Mutex$LT$T$GT$4lock", .argument 1, .lock⟩
  | .release .mutex =>
    ⟨"_ZN4core3ptr60drop_in_place$LT$std..sync..mutex..MutexGuard", .guardField, .unlock⟩
  | .acquire .read => ⟨"_ZN3std4sync6rwlock15RwLock$LT$T$GT$4read", .argument 0, .readLock⟩
  | .release .read =>
    ⟨"_ZN4core3ptr66drop_in_place$LT$std..sync..rwlock..RwLockReadGuard", .guardValue, .readUnlock⟩
  | .acquire .write => ⟨"_ZN3std4sync6rwlock15RwLock$LT$T$GT$5write", .argument 1, .writeLock⟩
  | .release .write =>
    ⟨"_ZN4core3ptr67drop_in_place$LT$std..sync..rwlock..RwLockWriteGuard", .guardField,
      .writeUnlock⟩

/-- The module path of the lock that an operation acquires. -/
def lockPath : GuardKind → List (List Char)
  | .mutex => ["std".toList, "sync".toList, "mutex".toList, "Mutex$LT$T$GT$".toList]
  | .read | .write => ["std".toList, "sync".toList, "rwlock".toList, "RwLock$LT$T$GT$".toList]

/-- The method that acquires. -/
def method : GuardKind → List Char
  | .mutex => "lock".toList
  | .read => "read".toList
  | .write => "write".toList

/-- The text for an acquisition, by its segments. -/
theorem pattern_acquire (kind : GuardKind) : (functionArm (.acquire kind)).pattern.toList =
    pattern (lockPath kind) (method kind).length (method kind) := by
  cases kind <;> rfl

/-- The text for a release, by its segments. -/
theorem pattern_release (kind : GuardKind) : (functionArm (.release kind)).pattern.toList =
    pattern ["core".toList, "ptr".toList] kind.dropLength
      ("drop_in_place$LT$".toList ++ kind.typeName) := by
  cases kind <;> rfl

/-- The text of an operation is found in the name of the drop of a guard only if it is that of the
release of the guard, and the type of the lock has three characters. -/
theorem found_drop {N : MangledName} {kind : GuardKind} {T : List Char} (hN : N.Drops kind T)
    (hT : ¬ "_ZN".toList <:+: T) (o : LockOperation) :
    found (String.ofList N.text) o.functionArm.pattern = true ↔
      o = .release kind ∧ T.length = 3 := by
  have hplain := hN.plain hT
  rw [found, decide_eq_true_eq, String.toList_ofList]
  cases o with
  | acquire l =>
    have hpath : ∀ s ∈ lockPath l, IsSegment s := by
      cases l <;> simp only [lockPath, List.forall_mem_cons, List.not_mem_nil, false_implies,
        implies_true, and_true] <;>
        exact ⟨⟨_, _, rfl, by decide⟩, ⟨_, _, rfl, by decide⟩, ⟨_, _, rfl, by decide⟩,
          ⟨_, _, rfl, by decide⟩⟩
    have hmethod : IsSegment (method l) := by
      cases l <;> exact ⟨_, _, rfl, by decide⟩
    rw [pattern_acquire, hplain.pattern_infix_iff hpath hmethod le_rfl]
    refine iff_of_false ?_ (by simp)
    -- The path would start with `std`.
    rintro ⟨segment, rest, heq, -⟩
    rw [hN] at heq
    have hfirst : "core".toList = "std".toList := by
      cases l <;> exact (List.cons.inj heq).1
    revert hfirst
    decide
  | release l =>
    have hpath : ∀ s ∈ ["core".toList, "ptr".toList], IsSegment s := by
      simp only [List.forall_mem_cons, List.not_mem_nil, false_implies, implies_true, and_true]
      exact ⟨⟨_, _, rfl, by decide⟩, ⟨_, _, rfl, by decide⟩⟩
    have hword : ("drop_in_place$LT$".toList ++ l.typeName).length ≤ l.dropLength := by
      cases l <;> decide
    have hstart : IsSegment ("drop_in_place$LT$".toList ++ l.typeName) := ⟨'d', _, rfl, by decide⟩
    rw [pattern_release, hplain.pattern_infix_iff hpath hstart hword, hN]
    have hsegment : (∃ segment rest, ["core".toList, "ptr".toList, kind.dropSegment T] ++
        ['h' :: N.hash] = ["core".toList, "ptr".toList] ++ segment :: rest ∧
          segment.length = l.dropLength ∧
            "drop_in_place$LT$".toList ++ l.typeName <+: segment) ↔
        (kind.dropSegment T).length = l.dropLength ∧
          "drop_in_place$LT$".toList ++ l.typeName <+: kind.dropSegment T := by
      constructor
      · rintro ⟨segment, rest, heq, h⟩
        obtain rfl : kind.dropSegment T = segment :=
          (List.cons.inj (List.cons.inj (List.cons.inj heq).2).2).1
        exact h
      · exact fun h => ⟨_, _, rfl, h⟩
    rw [hsegment, GuardKind.prefix_dropSegment_iff, and_comm]
    constructor
    · rintro ⟨rfl, hlength⟩
      exact ⟨rfl, (l.length_dropSegment T).mp hlength⟩
    · rintro ⟨hl, hlength⟩
      obtain rfl : l = kind := by simpa using hl
      exact ⟨rfl, (l.length_dropSegment T).mpr hlength⟩

/-- The chain of `function.cpp` has an arm for the drop of a guard exactly when the type of the lock
has three characters. -/
theorem recognise_drop {N : MangledName} {kind : GuardKind} {T : List Char} (hN : N.Drops kind T)
    (hT : ¬ "_ZN".toList <:+: T) :
    recognise FunctionCpp.invokeArms (.direct (String.ofList N.text)) =
      if T.length = 3 then some (functionArm (.release kind)) else none := by
  have harms : FunctionCpp.invokeArms = [LockOperation.acquire .mutex, .release .mutex,
      .acquire .read, .release .read, .acquire .write, .release .write].map functionArm := rfl
  have hfound : ∀ o : LockOperation, found (String.ofList N.text) o.functionArm.pattern =
      decide (o = .release kind ∧ T.length = 3) := fun o => by
    rw [Bool.eq_iff_iff, found_drop hN hT, decide_eq_true_eq]
  simp only [recognise, Callee.getCalledFunction, Option.bind_some, harms, List.find?_map,
    Function.comp_def, hfound]
  split_ifs with hlength
  · cases kind <;> simp [hlength]
  · simp [hlength]

end LockOperation

/-! ## Which drops are recorded -/

/-- A debug-located direct call or invoke of the drop of a guard. -/
structure DropSite (I : Inst) (kind : GuardKind) (T : List Char) (loc : Line)
    (args : List Value) : Prop where
  /-- The line. -/
  dbg : I.dbg = some loc
  /-- The function that is called. -/
  called : ∃ N : MangledName, I.direct = some (String.ofList N.text, args) ∧ N.Drops kind T

section Drops

variable {I : Inst} {kind : GuardKind} {T : List Char} {loc : Line} {args : List Value}

/-- What the drop of a guard is for `function.cpp`. -/
theorem DropSite.site_eq (h : DropSite I kind T loc args) (hT : ¬ "_ZN".toList <:+: T) :
    Source.functionCpp.site I = if I.isInvoke = true ∧ T.length = 3 then
      some ⟨LockOperation.functionArm (.release kind), loc, args⟩ else none := by
  obtain ⟨hdbg, N, hdirect, hN⟩ := h
  obtain ⟨id, ty, op, dbg⟩ := I
  obtain rfl : dbg = some loc := hdbg
  have hcallee : ∀ {callee : Callee} {args' : List Value},
      callee.getCalledFunction.map (·, args') = some (String.ofList N.text, args) →
      callee = .direct (String.ofList N.text) ∧ args' = args := by
    intro callee args' h
    cases callee <;> simp_all [Callee.getCalledFunction]
  cases op with
  | call callee args' =>
    obtain ⟨rfl, rfl⟩ := hcallee hdirect
    rfl
  | invoke callee args' normal unwind =>
    obtain ⟨rfl, rfl⟩ := hcallee hdirect
    have hsite : Source.functionCpp.site ⟨id, ty, .invoke (.direct (String.ofList N.text)) args'
        normal unwind, some loc⟩ = (recognise FunctionCpp.invokeArms
          (.direct (String.ofList N.text))).map (⟨·, loc, args'⟩) := rfl
    rw [hsite, LockOperation.recognise_drop hN hT]
    by_cases hlength : T.length = 3 <;> simp [hlength, Inst.isInvoke]
  | _ => cases hdirect

/-- A call or an invoke is no access. -/
theorem DropSite.access_eq_none (h : DropSite I kind T loc args) : I.access = none := by
  obtain ⟨-, N, hdirect, -⟩ := h
  unfold Inst.direct at hdirect
  unfold Inst.access
  cases hop : I.op <;> simp [hop] at hdirect ⊢

/-- Which drops of guards `function.cpp` records. The drop of the guard of a lock of a `T` at a
debug-located direct call or invoke is recorded directly before it exactly when the site is an
invoke and `T` has three characters, and nothing in the body is a fault. -/
theorem FunctionCpp.release_recorded_iff (FName : String) {F : Body} {b k : ℕ} {B : Block}
    (hB : F.blocks[b]? = some B) (hI : B[k]? = some I) (hsite : DropSite I kind T loc args)
    (hT : ¬ "_ZN".toList <:+: T) :
    Source.functionCpp.Records FName F b k (.release kind) loc args ↔
      (∀ C ∈ F.blocks, ∀ J ∈ C, Source.functionCpp.Sound J) ∧ I.isInvoke = true ∧
        T.length = 3 := by
  have hleaves : ∀ J : Inst, Source.functionCpp.leaves J = false := fun J => rfl
  have hspec : ∀ s, Source.functionCpp.site I = some s → s.loc = loc ∧ s.args = args ∧
      s.arm.route = (LockOperation.release kind).invokeArm.route ∧
        s.arm.op.role = (LockOperation.release kind).role := by
    intro s hs
    rw [hsite.site_eq hT] at hs
    split_ifs at hs
    obtain rfl := Option.some.inj hs
    cases kind <;> exact ⟨rfl, rfl, rfl, rfl⟩
  rw [Source.records_iff _ FName hB hI hsite.access_eq_none hspec, hsite.site_eq hT]
  have hreached : ∀ C : Block, Cursor.reached Source.functionCpp.leaves C = C := fun C =>
    Cursor.reached_eq_self fun J _ => hleaves J
  simp only [hreached, hleaves, implies_true, and_true]
  split_ifs with hcond <;> simp [hcond]

end Drops

/-- The name of the drop of a `MutexGuard`. -/
def dropMutexGuard (T : String) : MangledName where
  path := ["core".toList, "ptr".toList, GuardKind.mutex.dropSegment T.toList]
  hash := tokioMain.hash
  path_ne_nil := List.cons_ne_nil _ _
  hash_hex := tokioMain.hash_hex
  hash_length := tokioMain.hash_length

/-- The invoke of it, with a pointer to the guard. -/
def dropInvoke (T : String) : Inst :=
  ⟨1, .void, .invoke (.direct (String.ofList (dropMutexGuard T).text))
    [.reg 0 (.ptr (.struct lockPtr.ty .void))] 1 2, some 30⟩

/-- A function that drops a guard. -/
def dropBody (T : String) : Body where
  blocks :=
    [[dropInvoke T], [⟨2, .void, .other "ret" [], some 31⟩],
      [⟨3, .void, .other "resume" [], some 30⟩]]
  next := 4
  below := by simp [dropInvoke, Inst.Below, Opcode.regs, Callee.regs, Value.regs]

/-- It is a site. -/
theorem dropSite_dropInvoke (T : String) :
    DropSite (dropInvoke T) .mutex T.toList 30 [.reg 0 (.ptr (.struct lockPtr.ty .void))] :=
  ⟨rfl, dropMutexGuard T, rfl, rfl⟩

/-- The drop of the guard of a `Mutex<i32>` is recorded, and that of a `Mutex<bool>` is not. -/
theorem FunctionCpp.release_recorded_i32 :
    Source.functionCpp.Records "app" (dropBody "i32") 0 0 (.release .mutex) 30
      [.reg 0 (.ptr (.struct lockPtr.ty .void))] ∧
    ¬ Source.functionCpp.Records "app" (dropBody "bool") 0 0 (.release .mutex) 30
      [.reg 0 (.ptr (.struct lockPtr.ty .void))] := by
  have hsound : ∀ C ∈ (dropBody "i32").blocks, ∀ J ∈ C, Source.functionCpp.Sound J := by
    have hall : ∀ C ∈ (dropBody "i32").blocks, ∀ J ∈ C, J.indirect = false ∧
        (Source.functionCpp.site J).all Site.hasOperand = true := by decide +kernel
    intro C hC J hJ
    obtain ⟨hdirect, hoperand⟩ := hall C hC J hJ
    exact ⟨fun _ => hdirect, fun s hs => by simpa [hs] using hoperand⟩
  constructor
  · exact (FunctionCpp.release_recorded_iff "app" rfl rfl (dropSite_dropInvoke "i32")
      (by decide)).mpr ⟨hsound, rfl, rfl⟩
  · rw [FunctionCpp.release_recorded_iff "app" rfl rfl (dropSite_dropInvoke "bool") (by decide)]
    exact fun h => absurd h.2.2 (by decide)

/-! ## The filter of `function.cpp` -/

/-- What stands in front of the first place of a text is kept. -/
theorem upToFirst_append {c : Char} {p s t : List Char} (hc : c ∉ s) :
    upToFirst (c :: p) (s ++ t) = s ++ upToFirst (c :: p) t := by
  induction s with
  | nil => rfl
  | cons d s ih =>
    rw [List.mem_cons, not_or] at hc
    obtain ⟨hd, hs⟩ := hc
    have hnot : ¬ c :: p <+: d :: (s ++ t) := fun h => hd (List.cons_prefix_cons.mp h).1
    rw [List.cons_append, upToFirst, if_neg hnot, ih hs]
    rfl

/-- There is no dot in the name of a crate. -/
theorem CrateName.dot_notMem (c : CrateName) : '.' ∉ c.text := by
  intro h
  have hdot := c.ident.2.2 '.' h
  revert hdot
  decide

/-- The name of a module of `run.sh` up to `.ll` is the name of the crate. -/
theorem upToFirst_run (c : CrateName) :
    upToFirst ".ll".toList (ModuleForm.run.moduleName c).toList = c.text := by
  have htext : (ModuleForm.run.moduleName c).toList = c.text ++ ".ll".toList :=
    String.toList_ofList
  have hcut := upToFirst_append c.dot_notMem (p := ['l', 'l']) (t := ".ll".toList)
  rw [htext]
  simpa [upToFirst] using hcut

/-- The name of a module of `cargo_run.sh` up to `.ll` has a dash in it. -/
theorem dash_mem_upToFirst_cargo (c : CrateName) (hash : List Char) (h : '-' ∉ hash) :
    '-' ∈ upToFirst ".ll".toList ((ModuleForm.cargo hash h).moduleName c).toList := by
  have htext : ((ModuleForm.cargo hash h).moduleName c).toList =
      c.text ++ '-' :: (hash ++ ".ll".toList) := String.toList_ofList
  have hcut := upToFirst_append c.dot_notMem (p := ['l', 'l']) (t := '-' :: (hash ++ ".ll".toList))
  have hdash : '-' ∈ upToFirst ['.', 'l', 'l'] ('-' :: (hash ++ ".ll".toList)) := by
    simp [upToFirst]
  rw [htext]
  exact hcut.symm ▸ List.mem_append_right c.text hdash

namespace FunctionCpp

variable {c : CrateName} {form : ModuleForm} {N : MangledName} {F : Function}

/-- The filter at a function whose name has no dash: rustc mangles a dash as a dot. -/
theorem admits_iff (hname : F.name = String.ofList N.text) (hdash : ∀ s ∈ N.path, '-' ∉ s) :
    admits (form.moduleName c) F = true ↔
      form = .run ∧ c.text <:+: N.text ∧ ¬ N.NamesStd := by
  have hfound : ∀ p : String, found F.name p = decide (p.toList <:+: N.text) := fun p => by
    rw [found, hname, String.toList_ofList]
  have hadmits : admits (form.moduleName c) F = true ↔
      upToFirst ".ll".toList (form.moduleName c).toList <:+: N.text ∧ ¬ N.NamesStd := by
    simp only [admits, hfound, String.toList_ofList, Bool.not_eq_true', Bool.or_eq_false_iff,
      Bool.not_eq_false', decide_eq_true_eq, decide_eq_false_iff_not, N.namesStd_iff, not_or]
  rw [hadmits]
  cases form with
  | run => rw [upToFirst_run, eq_self, true_and]
  | cargo hash h =>
    simp only [reduceCtorEq, false_and, iff_false, not_and]
    intro hinfix
    -- The dash would be in the name of the function.
    have hmem := hinfix.subset (dash_mem_upToFirst_cargo c hash h)
    have hsingle : ['-'] <:+: N.text := (List.singleton_infix_iff _ _).mpr hmem
    rw [MangledName.infix_text_iff_of_mem (c := '-') (by simp) (by simp) (by decide)
      (by decide)] at hsingle
    obtain ⟨s, hs, hs'⟩ := hsingle
    exact absurd ((List.singleton_infix_iff _ _).mp hs') (hdash s hs)

/-- The filter of `function.cpp` admits the functions of the crate and no others exactly when the
module is one of `run.sh` and no segment of the name has `core` or `std` in it, for a function of
the crate; and when, for a function of another crate and a module of `run.sh`, the name of the crate
is not in the name, or a segment has `core` or `std` in it. -/
theorem admits_iff_ofCrate (hname : F.name = String.ofList N.text)
    (hdash : ∀ s ∈ N.path, '-' ∉ s) :
    (admits (form.moduleName c) F = true ↔ N.DefinedIn c) ↔
      (N.DefinedIn c → form = .run ∧ ¬ N.NamesStd) ∧
      (¬ N.DefinedIn c → form = .run → c.text <:+: N.text → N.NamesStd) := by
  rw [admits_iff hname hdash]
  by_cases hin : N.DefinedIn c
  · simp only [hin, hin.infix_text, iff_true, forall_const, not_true_eq_false, false_implies,
      and_true, true_and]
  · simp only [hin, iff_false, false_implies, true_and, not_false_eq_true, forall_const, not_and,
      not_not]

/-- `main` of the crate is decided rightly in the module of `run.sh`, and wrongly in that of
`cargo_run.sh`. -/
theorem admits_iff_ofCrate_tokioMain :
    (admits (ModuleForm.run.moduleName tokio) (tokioFunction tokioMain) = true ↔
      tokioMain.DefinedIn tokio) ∧
    ¬ (admits (tokioModule.moduleName tokio) (tokioFunction tokioMain) = true ↔
      tokioMain.DefinedIn tokio) := by
  have hin : tokioMain.DefinedIn tokio := ⟨_, _, rfl, .inl rfl⟩
  have hstd : ¬ tokioMain.NamesStd := by
    unfold MangledName.NamesStd
    decide
  have hdash : ∀ s ∈ tokioMain.path, '-' ∉ s := by decide
  constructor
  · exact (admits_iff_ofCrate rfl hdash).mpr ⟨fun _ => ⟨rfl, hstd⟩, fun h => absurd hin h⟩
  · rw [admits_iff_ofCrate rfl hdash]
    exact fun h => nomatch (h.1 hin).1

end FunctionCpp

end AtomicityViolation
