import AtomicityViolation.Library.Dict
import AtomicityViolation.Library.Lines
import AtomicityViolation.Runtime.Record

/-!
# The report of `atom.py`

`atom.py` reads the log line by line, splits each line at the commas, collects the lines under their
fourth field, and prints a block for each address that lines with different first fields carry. The
loops are modelled with what they raise: a line or a group that is too short raises an `IndexError`
behind what was printed so far. On a log of records with clean names nothing is raised, and the
report is the block of each shared address, in the order of first occurrence (`report_log`).
-/

namespace AtomicityViolation

namespace Atom

/-- `IndexError: list index out of range`, with what was printed before it was raised. -/
structure IndexError where
  printed : List (List Char)
  deriving DecidableEq, Repr

/-- `xs[i]`. -/
def index {α : Type*} (xs : List α) (i : ℕ) (printed : List (List Char)) : Except IndexError α :=
  match xs[i]? with
  | none => .error ⟨printed⟩
  | some x => .ok x

/-- The dictionary of lines, split at the commas, under their addresses. -/
abbrev Dic := List (List Char × List (List (List Char)))

/-- The grouping loop, lines 12 to 18. -/
def collect (dic : Dic) : List (List Char) → Except IndexError Dic
  | [] => .ok dic
  | line :: f => do
    let log := line.splitOn ','
    let addr ← index log 3 []
    collect (Dict.add addr log dic) f

/-- The loop that sets `pr`, lines 34 to 36. -/
def compare (printed : List (List Char)) (first_thread : List Char) (pr : Bool) :
    List (List (List Char)) → Except IndexError Bool
  | [] => .ok pr
  | a :: arr => do
    let tid ← index a 0 printed
    compare printed first_thread (pr || tid != first_thread) arr

/-- The loop that prints the records of a block, lines 39 and 40. -/
def printRecords (printed : List (List Char)) :
    List (List (List Char)) → Except IndexError (List (List Char))
  | [] => .ok printed
  | a :: arr => do
    let tid ← index a 0 printed
    let op ← index a 4 printed
    printRecords (printed ++ ["TID: ".toList ++ tid ++ " OP: ".toList ++ op]) arr

/-- The line under a block. -/
def dashes : List Char := List.replicate 55 '-'

/-- The reporting loop, lines 28 to 41. -/
def report (printed : List (List Char)) : Dic → Except IndexError (List (List Char))
  | [] => .ok printed
  | (key, arr) :: dic => do
    let first ← index arr 0 printed
    let first_thread ← index first 0 printed
    let pr ← compare printed first_thread false arr
    if pr then
      let printed ← printRecords (printed ++ ["address: [".toList ++ key ++ "]".toList]) arr
      report (printed ++ [dashes]) dic
    else report printed dic

/-- The texts that `atom.py` prints for a log, each by a `print` of its own. -/
def run (text : List Char) : Except IndexError (List (List Char)) := do
  let dic ← collect [] (Lines.readLines (Lines.universalNewlines text))
  report [] dic

/-! ## Reading the log -/

variable {P : Type*} (fmt : PointerFormat P)

/-- The line of a record, split at the commas. The line feed stays behind the operation. -/
def columns (r : Record P) : List (List Char) :=
  [fmt.text r.tid, decimal r.line.toInt, r.file, fmt.text r.addr, r.op.text.toList ++ ['\n']]

/-- The line of a record is its columns with commas between them. -/
theorem line_eq_intercalate (r : Record P) : fmt.line r = [','].intercalate (columns fmt r) := by
  simp [PointerFormat.line, columns, List.intercalate_cons_cons]

/-- A line is split into the columns of its record. -/
theorem splitOn_line {r : Record P} (h : Clean r.file) :
    (fmt.line r).splitOn ',' = columns fmt r := by
  rw [line_eq_intercalate]
  refine List.splitOn_intercalate ',' ?_ (by simp [columns])
  simp only [columns, List.forall_mem_cons, List.not_mem_nil, false_implies, implies_true,
    and_true]
  refine ⟨(fmt.clean _).1, (clean_decimal _).1, h.1, (fmt.clean _).1, ?_⟩
  simpa using r.op.clean_text.1

/-- A line without the line feed at its end. -/
def stem (r : Record P) : List Char := [','].intercalate (fmt.fields r)

/-- The line feed is at the end of a line. -/
theorem line_eq_stem (r : Record P) : fmt.line r = stem fmt r ++ ['\n'] := by
  simp [PointerFormat.line, stem, PointerFormat.fields, List.intercalate_cons_cons]

/-- There is no other line end in it. -/
theorem stem_clean {r : Record P} (h : '\n' ∉ r.file ∧ '\r' ∉ r.file) :
    '\n' ∉ stem fmt r ∧ '\r' ∉ stem fmt r := by
  obtain ⟨-, htid⟩ := fmt.clean r.tid
  obtain ⟨-, hline⟩ := clean_decimal r.line.toInt
  obtain ⟨-, haddr⟩ := fmt.clean r.addr
  obtain ⟨-, hop⟩ := r.op.clean_text
  simp [stem, PointerFormat.fields, List.intercalate_cons_cons, htid, hline, h, haddr, hop]

/-- The lines of the log are those of the records, and then those of what stands behind them. -/
theorem readLines_log_append {rs : List (Record P)} (h : ∀ r ∈ rs, '\n' ∉ r.file ∧ '\r' ∉ r.file)
    (t : List Char) :
    Lines.readLines (Lines.universalNewlines (fmt.log rs ++ t)) =
      rs.map fmt.line ++ Lines.readLines (Lines.universalNewlines t) := by
  -- The text is the stems, each with its line feed, and there is no other line end in it.
  have hlog : fmt.log rs = (rs.map (stem fmt)).flatMap fun l => l ++ ['\n'] := by
    rw [PointerFormat.log, List.flatMap_map]
    exact congrArg (fun f => rs.flatMap f) (funext fun r => line_eq_stem fmt r)
  have hstem : ∀ l ∈ rs.map (stem fmt), '\n' ∉ l ∧ '\r' ∉ l := by
    intro l hl
    obtain ⟨r, hr, rfl⟩ := List.mem_map.mp hl
    exact stem_clean fmt (h r hr)
  have hcr : '\r' ∉ fmt.log rs := by
    rw [hlog, List.mem_flatMap]
    rintro ⟨l, hl, hmem⟩
    exact (hstem l hl).2 (by simpa using hmem)
  rw [Lines.universalNewlines_append_of_notMem hcr, hlog,
    Lines.readLines_flatMap_append (fun l hl => (hstem l hl).1) _, List.map_map]
  exact congrArg (· ++ _) (List.map_congr_left fun r _ => (line_eq_stem fmt r).symm)

/-- The lines of the log are those of the records. -/
theorem readLines_log {rs : List (Record P)} (h : ∀ r ∈ rs, '\n' ∉ r.file ∧ '\r' ∉ r.file) :
    Lines.readLines (Lines.universalNewlines (fmt.log rs)) = rs.map fmt.line := by
  simpa [Lines.universalNewlines, Lines.readLines] using readLines_log_append fmt h []

/-! ## The groups -/

variable [DecidableEq P]

/-- The records of an address, in the order of the log. -/
def recordsOf (rs : List (Record P)) (a : P) : List (Record P) :=
  rs.filter fun r => decide (r.addr = a)

/-- The dictionary of the columns of records. -/
def dicOf (rs : List (Record P)) : Dic :=
  (rs.map Record.addr).eraseDups.map fun a => (fmt.text a, (recordsOf rs a).map (columns fmt))

/-- Grouping columns under their addresses. -/
theorem group_columns (rs : List (Record P)) :
    Dict.group (fun log : List (List Char) => log.getD 3 []) (rs.map (columns fmt)) =
      dicOf fmt rs := by
  have hkeys : (rs.map (columns fmt)).map (fun log => log.getD 3 []) =
      (rs.map Record.addr).map fmt.text := by
    simp only [List.map_map]
    rfl
  rw [Dict.group_eq, hkeys, Dict.eraseDups_map fmt.injective, List.map_map, dicOf]
  refine List.map_congr_left fun a _ => Prod.ext rfl ?_
  simp only [Function.comp_apply, recordsOf, List.filter_map]
  congr 1
  refine List.filter_congr fun r _ => ?_
  simp only [Function.comp_apply, columns, List.getD_cons_succ, List.getD_cons_zero,
    fmt.injective.eq_iff]

/-- The grouping loop on the lines of records. -/
theorem collect_lines {rs : List (Record P)} (h : ∀ r ∈ rs, Clean r.file) :
    collect [] (rs.map fmt.line) = .ok (dicOf fmt rs) := by
  -- From any dictionary: each line is split into its columns, so the address is there.
  have hloop : ∀ (rs : List (Record P)) (dic : Dic), (∀ r ∈ rs, Clean r.file) →
      collect dic (rs.map fmt.line) = .ok ((rs.map (columns fmt)).foldl
        (fun dic log => Dict.add (log.getD 3 []) log dic) dic) := by
    intro rs
    induction rs with
    | nil => exact fun _ _ => rfl
    | cons r rs ih =>
      intro dic h
      obtain ⟨hr, hrs⟩ := List.forall_mem_cons.mp h
      simp only [List.map_cons, collect, splitOn_line fmt hr, List.foldl_cons]
      exact ih _ hrs
  rw [hloop rs [] h, ← group_columns]
  rfl

/-! ## The blocks -/

/-- What is printed for a record. -/
def entry (r : Record P) : List Char :=
  "TID: ".toList ++ fmt.text r.tid ++ " OP: ".toList ++ (r.op.text.toList ++ ['\n'])

/-- The block of an address. -/
def block (rs : List (Record P)) (a : P) : List (List Char) :=
  ("address: [".toList ++ fmt.text a ++ "]".toList) :: (recordsOf rs a).map (entry fmt) ++ [dashes]

/-- Records with distinct thread ids carry the address. -/
def Shared (rs : List (Record P)) (a : P) : Prop :=
  ∃ r ∈ rs, ∃ r' ∈ rs, r.addr = a ∧ r'.addr = a ∧ r.tid ≠ r'.tid

/-- The first thread of a group is compared with the others. -/
def shared (rs : List (Record P)) (a : P) : Bool :=
  match recordsOf rs a with
  | [] => false
  | r :: rs' => (r :: rs').any fun r' => r'.tid != r.tid

/-- Comparing with the first thread finds any two that differ. -/
theorem shared_iff (rs : List (Record P)) (a : P) : shared rs a = true ↔ Shared rs a := by
  have hmem : ∀ r, r ∈ recordsOf rs a ↔ r ∈ rs ∧ r.addr = a := by simp [recordsOf]
  have hpair : Shared rs a ↔ ∃ r ∈ recordsOf rs a, ∃ r' ∈ recordsOf rs a, r.tid ≠ r'.tid := by
    simp only [Shared, hmem]
    constructor
    · rintro ⟨r, hr, r', hr', ha, ha', hne⟩
      exact ⟨r, ⟨hr, ha⟩, r', ⟨hr', ha'⟩, hne⟩
    · rintro ⟨r, ⟨hr, ha⟩, r', ⟨hr', ha'⟩, hne⟩
      exact ⟨r, hr, r', hr', ha, ha', hne⟩
  rw [hpair, shared]
  cases recordsOf rs a with
  | nil => simp
  | cons r₀ rs' =>
    simp only [List.any_eq_true, bne_iff_ne]
    constructor
    · rintro ⟨r, hr, hne⟩
      exact ⟨r, hr, r₀, List.mem_cons_self, hne⟩
    · rintro ⟨r, hr, r', hr', hne⟩
      -- Of two that differ, one differs from the first.
      by_cases h : r.tid = r₀.tid
      · exact ⟨r', hr', fun h' => hne (h.trans h'.symm)⟩
      · exact ⟨r, hr, h⟩

omit [DecidableEq P] in
/-- The loop that sets `pr`, on the columns of records. -/
theorem compare_columns (printed : List (List Char)) (t : List Char) (pr : Bool)
    (rs : List (Record P)) :
    compare printed t pr (rs.map (columns fmt)) =
      .ok (pr || rs.any fun r => fmt.text r.tid != t) := by
  induction rs generalizing pr with
  | nil => simp [compare]
  | cons r rs ih =>
    rw [List.map_cons, compare, List.any_cons, ← Bool.or_assoc]
    exact ih _

omit [DecidableEq P] in
/-- The loop that prints the records of a block, on the columns of records. -/
theorem printRecords_columns (printed : List (List Char)) (rs : List (Record P)) :
    printRecords printed (rs.map (columns fmt)) = .ok (printed ++ rs.map (entry fmt)) := by
  induction rs generalizing printed with
  | nil => simp [printRecords]
  | cons r rs ih =>
    have hrest := ih (printed ++ [entry fmt r])
    rw [List.append_assoc] at hrest
    exact hrest

/-- The reporting loop, on the groups of records. -/
theorem report_columns (rs : List (Record P)) (printed : List (List Char)) (as : List P)
    (has : ∀ a ∈ as, recordsOf rs a ≠ []) :
    report printed (as.map fun a => (fmt.text a, (recordsOf rs a).map (columns fmt))) =
      .ok (printed ++ (as.filter (shared rs)).flatMap (block fmt rs)) := by
  induction as generalizing printed with
  | nil => simp [report]
  | cons a as ih =>
    obtain ⟨ha, has⟩ := List.forall_mem_cons.mp has
    obtain ⟨r, rs', hgroup⟩ := List.exists_cons_of_ne_nil ha
    -- Printed thread ids are compared, and `%p` prints distinct ids as distinct texts.
    have hne : ∀ p q : P, (fmt.text p != fmt.text q) = (p != q) := fun p q => by
      rw [Bool.eq_iff_iff, bne_iff_ne, bne_iff_ne, fmt.injective.ne_iff]
    have hshared : shared rs a = (r :: rs').any fun r' => fmt.text r'.tid != fmt.text r.tid := by
      simp only [hne, shared, hgroup]
    have hblock : block fmt rs a = ("address: [".toList ++ fmt.text a ++ "]".toList) ::
        (r :: rs').map (entry fmt) ++ [dashes] := by rw [block, hgroup]
    rw [List.map_cons, report, hgroup]
    -- The group is not empty, so nothing is raised.
    have hfirst : index ((r :: rs').map (columns fmt)) 0 printed = .ok (columns fmt r) := rfl
    have htid : index (columns fmt r) 0 printed = .ok (fmt.text r.tid) := rfl
    simp only [hfirst, htid, bind, Except.bind, compare_columns, Bool.false_or, ← hshared,
      printRecords_columns]
    cases hs : shared rs a with
    | true =>
      simp only [if_true, ih _ has, List.filter_cons_of_pos hs, List.flatMap_cons, hblock]
      simp
    | false => simp [ih _ has, List.filter_cons_of_neg, hs]

/-! ## The report of a log -/

/-- The report of a log of records with clean names: nothing is raised, and the blocks are those of
the shared addresses in the order of first occurrence. -/
theorem run_log {rs : List (Record P)} (h : ∀ r ∈ rs, Clean r.file) :
    run (fmt.log rs) =
      .ok (((rs.map Record.addr).eraseDups.filter (shared rs)).flatMap (block fmt rs)) := by
  -- Each key is the address of a record.
  have hsome : ∀ a ∈ (rs.map Record.addr).eraseDups, recordsOf rs a ≠ [] := by
    intro a ha
    obtain ⟨r, hr, rfl⟩ := List.mem_map.mp (List.mem_eraseDups.mp ha)
    exact List.ne_nil_of_mem (List.mem_filter.mpr ⟨hr, by simp⟩)
  simp only [run, readLines_log fmt fun r hr => (h r hr).2, collect_lines fmt h, bind, Except.bind]
  rw [dicOf, report_columns fmt rs [] _ hsome, List.nil_append]

omit [DecidableEq P] in
/-- An address that records with distinct thread ids carry is the address of a record. -/
theorem Shared.mem {rs : List (Record P)} {a : P} (h : Shared rs a) : a ∈ rs.map Record.addr := by
  obtain ⟨r, hr, -, -, rfl, -⟩ := h
  exact List.mem_map_of_mem hr

/-- The reported addresses are the shared ones. -/
theorem mem_reported {rs : List (Record P)} {a : P} :
    a ∈ (rs.map Record.addr).eraseDups.filter (shared rs) ↔ Shared rs a := by
  rw [List.mem_filter, shared_iff, List.mem_eraseDups, and_iff_right_iff_imp]
  exact Shared.mem

/-- The report of a log of records with clean names is exact. Nothing is raised. The blocks are
those of the addresses that records with distinct thread ids carry, each once, in the order in which
the addresses first occur, and a block lists the records of its address in the order of the log. -/
theorem report_log (rs : List (Record P)) (h : ∀ r ∈ rs, Clean r.file) :
    ∃ as : List P, run (fmt.log rs) = .ok (as.flatMap (block fmt rs)) ∧
      as.Pairwise (fun a b => (rs.map Record.addr).idxOf a < (rs.map Record.addr).idxOf b) ∧
      ∀ a, a ∈ as ↔ Shared rs a :=
  ⟨_, run_log fmt h, (Dict.pairwise_eraseDups _).filter _, fun _ => mem_reported⟩

/-- Two threads at the peers of `grin`: both read the address `16`, and only one the address
`32`. -/
def peersLog : List (Record ℕ) :=
  [⟨1, 122, "peers".toList, 32, .store⟩, ⟨1, 123, "peers".toList, 16, .load⟩,
    ⟨2, 87, "peers".toList, 16, .load⟩]

/-- The report of `peersLog`. -/
theorem report_peersLog :
    (∀ r ∈ peersLog, Clean r.file) ∧
    ∃ as : List ℕ,
      run (glibcPointer.log peersLog) = .ok (as.flatMap (block glibcPointer peersLog)) ∧
      as.Pairwise (fun a b =>
        (peersLog.map Record.addr).idxOf a < (peersLog.map Record.addr).idxOf b) ∧
      ∀ a, a ∈ as ↔ Shared peersLog a :=
  ⟨by decide, report_log glibcPointer peersLog (by decide)⟩

end Atom

end AtomicityViolation
