import AtomicityViolation.Library.Utf8
import AtomicityViolation.Report.Atom
import Mathlib.Data.List.TakeWhile

/-!
# A log that was cut short

A program that is killed leaves a prefix of its log: the lines of some records, and perhaps a part
of the next line. `atom.py` is written for whole lines. It takes the part as a line of its own,
which goes unnoticed only when it reaches into the address and no record of another thread has that
address. Otherwise the part cannot be decoded, has too few fields for the one loop or for the other,
or is reported as a record (`run_cut`, with each `Outcome`).
-/

namespace AtomicityViolation

namespace Atom

open Lines (readLines universalNewlines)

/-- What is raised for a file. -/
inductive FileError where
  | unicodeDecodeError
  | indexError (e : IndexError)
  deriving DecidableEq, Repr

/-- What `atom.py` prints for a file of these bytes, which it opens as UTF-8 text. -/
def runFile (bytes : List UInt8) : Except FileError (List (List Char)) :=
  match Utf8.decode bytes with
  | none => .error .unicodeDecodeError
  | some text => (run text).mapError .indexError

/-! ## One more line in the loops -/

/-- The grouping loop on two lists of lines. -/
theorem collect_append (dic : Dic) (xs ys : List (List Char)) :
    collect dic (xs ++ ys) = collect dic xs >>= fun dic => collect dic ys := by
  induction xs generalizing dic with
  | nil => rfl
  | cons x xs ih =>
    rw [List.cons_append, collect, collect]
    simp only [bind_assoc]
    exact bind_congr fun addr => ih _

/-- The loop that sets `pr`, on two lists. -/
theorem compare_append (printed : List (List Char)) (t : List Char) (pr : Bool)
    (xs ys : List (List (List Char))) :
    compare printed t pr (xs ++ ys) =
      compare printed t pr xs >>= fun pr => compare printed t pr ys := by
  induction xs generalizing pr with
  | nil => rfl
  | cons x xs ih =>
    rw [List.cons_append, compare, compare]
    simp only [bind_assoc]
    exact bind_congr fun tid => ih _

/-- The loop that prints the records of a block, on two lists. -/
theorem printRecords_append (printed : List (List Char)) (xs ys : List (List (List Char))) :
    printRecords printed (xs ++ ys) =
      printRecords printed xs >>= fun printed => printRecords printed ys := by
  induction xs generalizing printed with
  | nil => rfl
  | cons x xs ih =>
    rw [List.cons_append, printRecords, printRecords]
    simp only [bind_assoc]
    exact bind_congr fun tid => bind_congr fun op => ih _

/-- The reporting loop on two dictionaries. -/
theorem report_append (printed : List (List Char)) (d d' : Dic) :
    report printed (d ++ d') = report printed d >>= fun printed => report printed d' := by
  induction d generalizing printed with
  | nil => rfl
  | cons e d ih =>
    obtain ⟨key, arr⟩ := e
    rw [List.cons_append, report, report]
    simp only [bind_assoc]
    refine bind_congr fun first => bind_congr fun first_thread => bind_congr fun pr => ?_
    split_ifs
    · simp only [bind_assoc]
      exact bind_congr fun printed' => ih _
    · exact ih _

/-! ## One more line in a group -/

variable {P : Type*} (fmt : PointerFormat P) [DecidableEq P]

/-- The records of an address have this thread id. -/
def Alone (rs : List (Record P)) (a tid : P) : Prop := ∀ r ∈ rs, r.addr = a → r.tid = tid

instance (rs : List (Record P)) (a tid : P) : Decidable (Alone rs a tid) :=
  inferInstanceAs (Decidable (∀ r ∈ rs, r.addr = a → r.tid = tid))

/-- The beginning of the block of an address: all of it but the dashes. -/
def blockRecords (rs : List (Record P)) (a : P) : List (List Char) :=
  ("address: [".toList ++ fmt.text a ++ "]".toList) :: (recordsOf rs a).map (entry fmt)

/-- The groups of addresses. -/
def groups (rs : List (Record P)) (as : List P) : Dic :=
  as.map fun a => (fmt.text a, (recordsOf rs a).map (columns fmt))

/-- An index that is there. -/
theorem index_eq_ok {α : Type*} {xs : List α} {i : ℕ} {x : α} (h : xs[i]? = some x)
    (printed : List (List Char)) : index xs i printed = .ok x := by
  rw [index, h]

variable {rs : List (Record P)} {a tid : P} {fields : List (List Char)}

omit [DecidableEq P] in
/-- Records of an address with distinct thread ids are not all of one. -/
theorem Shared.not_alone (h : Shared rs a) : ¬ Alone rs a tid := by
  obtain ⟨r, hr, r', hr', ha, ha', hne⟩ := h
  exact fun halone => hne ((halone r hr ha).trans (halone r' hr' ha').symm)

/-- The loop that sets `pr`, at a group with one more line. -/
theorem compare_joined {r : Record P} {rs' : List (Record P)} (hgroup : recordsOf rs a = r :: rs')
    (htid : fields[0]? = some (fmt.text tid)) (printed : List (List Char)) :
    compare printed (fmt.text r.tid) false ((recordsOf rs a).map (columns fmt) ++ [fields]) =
      .ok (!decide (Alone rs a tid)) := by
  have hmem : ∀ q, q ∈ r :: rs' ↔ q ∈ rs ∧ q.addr = a := fun q => by
    rw [← hgroup]
    simp [recordsOf]
  rw [compare_append, compare_columns]
  simp only [bind, Except.bind, compare, index_eq_ok htid, Bool.false_or]
  congr 1
  -- All thread ids are the first one exactly when all of them are that of the new line.
  rw [Bool.eq_iff_iff, hgroup]
  simp only [Bool.or_eq_true, List.any_eq_true, bne_iff_ne, fmt.injective.ne_iff, Bool.not_eq_true',
    decide_eq_false_iff_not]
  constructor
  · rintro (⟨q, hq, hne⟩ | hne) halone
    · exact hne ((halone q ((hmem q).mp hq).1 ((hmem q).mp hq).2).trans
        (halone r ((hmem r).mp List.mem_cons_self).1 ((hmem r).mp List.mem_cons_self).2).symm)
    · exact hne
        (halone r ((hmem r).mp List.mem_cons_self).1 ((hmem r).mp List.mem_cons_self).2).symm
  · intro hnot
    by_contra hall
    simp only [not_or, not_exists, not_and, not_not] at hall
    exact hnot fun q hq ha => (hall.1 q ((hmem q).mpr ⟨hq, ha⟩)).trans hall.2.symm

/-- The reporting loop at a group with one more line. The line is printed as a record when the group
has another thread id. -/
theorem report_joined (ha : a ∈ rs.map Record.addr) (htid : fields[0]? = some (fmt.text tid))
    (printed : List (List Char)) (d : Dic) :
    report printed ((fmt.text a, (recordsOf rs a).map (columns fmt) ++ [fields]) :: d) =
      if Alone rs a tid then report printed d
      else index fields 4 (printed ++ blockRecords fmt rs a) >>= fun op =>
        report (printed ++ blockRecords fmt rs a ++
          ["TID: ".toList ++ fmt.text tid ++ " OP: ".toList ++ op, dashes]) d := by
  obtain ⟨q, hq, hqa⟩ := List.mem_map.mp ha
  have hne : recordsOf rs a ≠ [] :=
    List.ne_nil_of_mem (List.mem_filter.mpr ⟨hq, by simpa using hqa⟩)
  obtain ⟨r, rs', hgroup⟩ := List.exists_cons_of_ne_nil hne
  have hfirst : index ((recordsOf rs a).map (columns fmt) ++ [fields]) 0 printed =
      .ok (columns fmt r) := by rw [hgroup]; rfl
  have hfirst_thread : index (columns fmt r) 0 printed = .ok (fmt.text r.tid) := rfl
  rw [report]
  simp only [hfirst, hfirst_thread, bind, Except.bind, compare_joined fmt hgroup htid]
  by_cases halone : Alone rs a tid
  · simp [halone]
  · simp only [halone, decide_false, Bool.not_false, if_true, if_false]
    have hprinted : printed ++ ["address: [".toList ++ fmt.text a ++ "]".toList] ++
        (recordsOf rs a).map (entry fmt) = printed ++ blockRecords fmt rs a := by
      rw [blockRecords, List.append_assoc, List.singleton_append]
    rw [printRecords_append, printRecords_columns, hprinted]
    simp only [bind, Except.bind, printRecords, index_eq_ok htid]
    cases index fields 4 (printed ++ blockRecords fmt rs a) with
    | error e => rfl
    | ok op => simp only [List.append_assoc, List.cons_append, List.nil_append]

/-! ## A part of a line behind whole lines -/

/-- The blocks of the shared ones of some addresses. -/
def blocks (rs : List (Record P)) (as : List P) : List (List Char) :=
  (as.filter (shared rs)).flatMap (block fmt rs)

/-- The addresses that first occur before `a` does. -/
def before (rs : List (Record P)) (a : P) : List P :=
  (rs.map Record.addr).eraseDups.takeWhile fun b => decide (b ≠ a)

/-- The addresses that first occur behind `a`. -/
def behind (rs : List (Record P)) (a : P) : List P :=
  ((rs.map Record.addr).eraseDups.dropWhile fun b => decide (b ≠ a)).tail

/-- What is printed when the loops come to a line too many in the group of `a`: the blocks before
that of `a`, and the beginning of its own. -/
def printedUpTo (rs : List (Record P)) (a : P) : List (List Char) :=
  blocks fmt rs (before rs a) ++ blockRecords fmt rs a

/-- The report with one more entry at the end of the block of `a`. -/
def reportWith (rs : List (Record P)) (a tid : P) (op : List Char) : List (List Char) :=
  printedUpTo fmt rs a ++ ["TID: ".toList ++ fmt.text tid ++ " OP: ".toList ++ op, dashes] ++
    blocks fmt rs (behind rs a)

/-- The address of a record stands between the ones before it and those behind it. -/
theorem addresses_eq (ha : a ∈ rs.map Record.addr) :
    (rs.map Record.addr).eraseDups = before rs a ++ a :: behind rs a := by
  obtain ⟨as, bs, has, hnot⟩ := List.eq_append_cons_of_mem (List.mem_eraseDups.mpr ha)
  have hpos : ∀ b ∈ as, decide (b ≠ a) = true := fun b hb =>
    decide_eq_true fun hba => hnot (hba ▸ hb)
  have hbefore : before rs a = as := by
    rw [before, has, List.takeWhile_append_of_pos hpos]
    simp
  have hbehind : behind rs a = bs := by
    rw [behind, has, List.dropWhile_append_of_pos hpos]
    simp
  rw [has, hbefore, hbehind]

/-- The reporting loop on groups of addresses of records. -/
theorem report_groups {as : List P} (has : as ⊆ rs.map Record.addr) (printed : List (List Char)) :
    report printed (groups fmt rs as) = .ok (printed ++ blocks fmt rs as) := by
  refine report_columns fmt rs printed as fun a ha => ?_
  obtain ⟨r, hr, rfl⟩ := List.mem_map.mp (has ha)
  exact List.ne_nil_of_mem (List.mem_filter.mpr ⟨hr, by simp⟩)

/-- The blocks of addresses around one. -/
theorem blocks_append_cons (as bs : List P) :
    blocks fmt rs (as ++ a :: bs) = blocks fmt rs as ++ blocks fmt rs [a] ++ blocks fmt rs bs := by
  rw [blocks, ← List.singleton_append, List.filter_append, List.filter_append, List.flatMap_append,
    List.flatMap_append, ← List.append_assoc]
  rfl

/-- The report of whole lines. -/
theorem report_whole (rs : List (Record P)) :
    report [] (dicOf fmt rs) = .ok (blocks fmt rs (rs.map Record.addr).eraseDups) :=
  report_groups fmt (fun _ => List.mem_eraseDups.mp) []

/-- The report of whole lines, at the address of a record. -/
theorem report_dicOf (ha : a ∈ rs.map Record.addr) :
    report [] (dicOf fmt rs) =
      .ok (blocks fmt rs (before rs a) ++ blocks fmt rs [a] ++ blocks fmt rs (behind rs a)) := by
  rw [report_whole, addresses_eq ha, blocks_append_cons]

/-- The reporting loop with a line more under the address of a record. -/
theorem report_add_of_mem (ha : a ∈ rs.map Record.addr) (htid : fields[0]? = some (fmt.text tid)) :
    report [] (Dict.add (fmt.text a) fields (dicOf fmt rs)) =
      if Alone rs a tid then report [] (dicOf fmt rs)
      else index fields 4 (printedUpTo fmt rs a) >>= fun op =>
        .ok (reportWith fmt rs a tid op) := by
  -- The groups before the address, its own, and those behind it.
  have hdic : dicOf fmt rs = groups fmt rs (before rs a) ++
      (fmt.text a, (recordsOf rs a).map (columns fmt)) :: groups fmt rs (behind rs a) := by
    rw [dicOf, addresses_eq ha]
    simp [groups]
  have hsub : before rs a ⊆ rs.map Record.addr ∧ behind rs a ⊆ rs.map Record.addr := by
    have hall : ∀ b ∈ before rs a ++ a :: behind rs a, b ∈ rs.map Record.addr := fun b hb =>
      List.mem_eraseDups.mp (addresses_eq ha ▸ hb)
    simp only [List.forall_mem_append, List.forall_mem_cons] at hall
    exact ⟨hall.1, hall.2.2⟩
  have hkeys : ∀ e ∈ groups fmt rs (before rs a), e.1 ≠ fmt.text a := by
    intro e he
    obtain ⟨b, hb, rfl⟩ := List.mem_map.mp he
    have hne := List.mem_takeWhile_imp (p := fun b => decide (b ≠ a)) hb
    exact fmt.injective.ne (of_decide_eq_true hne)
  rw [report_dicOf fmt ha, hdic, Dict.add_append_cons hkeys, report_append,
    report_groups fmt hsub.1]
  simp only [List.nil_append, bind, Except.bind, report_joined fmt ha htid]
  split_ifs with halone
  · -- The group is not reported, with the line or without.
    have hnot : shared rs a = false := by
      rw [Bool.eq_false_iff, ne_eq, shared_iff]
      exact fun h => h.not_alone halone
    rw [report_groups fmt hsub.2]
    simp [blocks, hnot]
  · -- The line is a record too many, or too short for one.
    cases hop : index fields 4 (blocks fmt rs (before rs a) ++ blockRecords fmt rs a) with
    | error e => simp [printedUpTo, hop]
    | ok op => simp [printedUpTo, hop, reportWith, report_groups fmt hsub.2]

/-- The reporting loop with a line more under an address that no record has. -/
theorem report_add_of_notMem {addr : List Char} (hnone : ∀ r ∈ rs, fmt.text r.addr ≠ addr)
    (htid : fields[0]? = some (fmt.text tid)) :
    report [] (Dict.add addr fields (dicOf fmt rs)) = report [] (dicOf fmt rs) := by
  have hkeys : ∀ e ∈ dicOf fmt rs, e.1 ≠ addr := by
    intro e he
    obtain ⟨b, hb, rfl⟩ := List.mem_map.mp he
    obtain ⟨r, hr, rfl⟩ := List.mem_map.mp (List.mem_eraseDups.mp hb)
    exact hnone r hr
  have hfirst : ∀ printed, index [fields] 0 printed = .ok fields := fun _ => rfl
  rw [Dict.add_of_notMem hkeys, report_append]
  -- A group of its own has one thread id.
  cases report [] (dicOf fmt rs) with
  | error e => rfl
  | ok printed => simp [bind, Except.bind, report, compare, hfirst, index_eq_ok htid]

omit [DecidableEq P] in
/-- A part of a line that has several fields has the whole first one. -/
theorem getElem?_part {next : Record P} {part : List Char} (hpart : part <+: fmt.line next)
    {addr : List Char} (haddr : (part.splitOn ',')[3]? = some addr) :
    (part.splitOn ',')[0]? = some (fmt.text next.tid) := by
  have hcomma : ',' ∈ part := by
    by_contra hnot
    rw [List.splitOn_eq_singleton hnot] at haddr
    cases haddr
  obtain ⟨first, rest, hsplit, hfirst⟩ := List.eq_append_cons_of_mem hcomma
  obtain ⟨behind, hline⟩ := hpart
  -- Both the part and the line start with a text without comma and a comma.
  have hpieces : (fmt.line next).splitOn ',' = first :: (rest ++ behind).splitOn ',' := by
    rw [← hline, hsplit, List.append_assoc, List.cons_append, List.splitOn_append_cons_self,
      List.splitOn_eq_singleton hfirst]
    rfl
  have htid : first = fmt.text next.tid := by
    rw [PointerFormat.line, List.splitOn_append_cons_self,
      List.splitOn_eq_singleton (fmt.clean _).1] at hpieces
    exact (List.cons.inj hpieces).1.symm
  rw [hsplit, List.splitOn_append_cons_self, List.splitOn_eq_singleton hfirst, htid]
  rfl

/-- A part of the next line behind the lines of records with clean names is one more line for both
loops. -/
theorem run_part {next : Record P} {part : List Char} (h : ∀ r ∈ rs, Clean r.file)
    (hnext : Clean next.file) (hpart : part <+: fmt.line next) (hnil : part ≠ [])
    (hne : part ≠ fmt.line next) :
    run (fmt.log rs ++ part) = index (part.splitOn ',') 3 [] >>= fun addr =>
      report [] (Dict.add addr (part.splitOn ',') (dicOf fmt rs)) := by
  have hbreak : ∀ r ∈ rs, '\n' ∉ r.file ∧ '\r' ∉ r.file := fun r hr => (h r hr).2
  -- The part has no line end, so it is read as one line.
  have hstem : part <+: stem fmt next := by
    rw [line_eq_stem] at hpart hne
    exact (List.prefix_concat_iff.mp hpart).resolve_left hne
  obtain ⟨hlf, hcr⟩ := stem_clean fmt hnext.2
  have hline : readLines (universalNewlines part) = [part] := by
    rw [Lines.universalNewlines_eq_self fun hc => hcr (hstem.subset hc),
      Lines.readLines_of_notMem (fun hn => hlf (hstem.subset hn)) hnil]
  rw [run, readLines_log_append fmt hbreak, hline, collect_append, collect_lines fmt h]
  simp only [bind, Except.bind, collect]
  cases index (part.splitOn ',') 3 [] with
  | error e => rfl
  | ok addr => rfl

/-! ## The bytes of a file -/

omit [DecidableEq P] in
/-- A log as a file. -/
theorem runFile_encode (text : List Char) :
    runFile (Utf8.encode text) = (run text).mapError .indexError := by
  rw [runFile, Utf8.decode_encode]

/-- A file of whole lines is reported. -/
theorem runFile_log (h : ∀ r ∈ rs, Clean r.file) :
    runFile (Utf8.encode (fmt.log rs)) = .ok (blocks fmt rs (rs.map Record.addr).eraseDups) := by
  rw [runFile_encode, run_log fmt h]
  rfl

/-- The end of a file goes unnoticed behind records: it can be decoded, it reaches into the address
of the next record, and the records with the address that it then has are of the same thread. -/
def Unnoticed (rs : List (Record P)) (next : Record P) (tail : List UInt8) : Prop :=
  ∃ part addr, Utf8.decode tail = some part ∧ (part.splitOn ',')[3]? = some addr ∧
    ∀ r ∈ rs, fmt.text r.addr = addr → r.tid = next.tid

/-- What `atom.py` makes of the end of a file behind records. -/
inductive Outcome (rs : List (Record P)) (next : Record P) (tail : List UInt8) :
    Except FileError (List (List Char)) → Prop
  /-- The end cannot be decoded. -/
  | undecodable : Utf8.decode tail = none → Outcome rs next tail (.error .unicodeDecodeError)
  /-- It does not reach the address, and the grouping loop raises an error. -/
  | unaddressed {part : List Char} : Utf8.decode tail = some part → (part.splitOn ',')[3]? = none →
      Outcome rs next tail (.error (.indexError ⟨[]⟩))
  /-- It goes unnoticed. -/
  | unnoticed : Unnoticed fmt rs next tail →
      Outcome rs next tail (runFile (Utf8.encode (fmt.log rs)))
  /-- It has the address of a record of another thread and no operation, and the reporting loop
  raises an error in the middle of a block. -/
  | unfinished {part : List Char} {a : P} : Utf8.decode tail = some part →
      (part.splitOn ',')[3]? = some (fmt.text a) → ¬ Alone rs a next.tid →
      (part.splitOn ',')[4]? = none →
      Outcome rs next tail (.error (.indexError ⟨printedUpTo fmt rs a⟩))
  /-- It has the address of a record of another thread and a part of its operation, and is reported
  as a record. -/
  | reported {part op : List Char} {a : P} : Utf8.decode tail = some part →
      (part.splitOn ',')[3]? = some (fmt.text a) → ¬ Alone rs a next.tid →
      (part.splitOn ',')[4]? = some op →
      Outcome rs next tail (.ok (reportWith fmt rs a next.tid op))

/-- What is left of the next line, behind a file of records with clean names. -/
theorem outcome_tail {next : Record P} {tail : List UInt8} (h : ∀ r ∈ rs, Clean r.file)
    (hnext : Clean next.file) (hpart : tail <+: Utf8.encode (fmt.line next)) (hnil : tail ≠ [])
    (hne : tail ≠ Utf8.encode (fmt.line next)) :
    Outcome fmt rs next tail (runFile (Utf8.encode (fmt.log rs) ++ tail)) := by
  rw [runFile, Utf8.decode_append]
  cases hdecode : Utf8.decode tail with
  | none => exact .undecodable hdecode
  | some part =>
    have hpart' : part <+: fmt.line next := by
      obtain ⟨behind, hline⟩ := hpart
      rw [← Utf8.encode_of_decode hdecode] at hline
      exact Utf8.prefix_of_encode hline
    have hnil' : part ≠ [] := by
      rintro rfl
      exact hnil (Utf8.encode_of_decode hdecode).symm
    have hne' : part ≠ fmt.line next := by
      rintro rfl
      exact hne (Utf8.encode_of_decode hdecode).symm
    have hwhole : runFile (Utf8.encode (fmt.log rs)) =
        (report [] (dicOf fmt rs)).mapError .indexError := by
      rw [runFile_log fmt h, report_whole]
      rfl
    simp only [Option.map_some, run_part fmt h hnext hpart' hnil' hne']
    cases haddr : (part.splitOn ',')[3]? with
    | none =>
      rw [index, haddr]
      exact .unaddressed hdecode haddr
    | some addr =>
      have htid := getElem?_part fmt hpart' haddr
      rw [index_eq_ok haddr]
      simp only [bind, Except.bind]
      by_cases hmem : ∃ r ∈ rs, fmt.text r.addr = addr
      · obtain ⟨r, hr, rfl⟩ := hmem
        rw [report_add_of_mem fmt (List.mem_map_of_mem hr) htid]
        split_ifs with halone
        · rw [← hwhole]
          refine .unnoticed ⟨part, _, hdecode, haddr, fun q hq hqa => ?_⟩
          exact halone q hq (fmt.injective hqa)
        · cases hop : (part.splitOn ',')[4]? with
          | none =>
            rw [index, hop]
            exact .unfinished hdecode haddr halone hop
          | some op =>
            rw [index_eq_ok hop]
            exact .reported hdecode haddr halone hop
      · -- No record has the address.
        have hnone : ∀ r ∈ rs, fmt.text r.addr ≠ addr := fun r hr ha => hmem ⟨r, hr, ha⟩
        rw [report_add_of_notMem fmt hnone htid, ← hwhole]
        exact .unnoticed ⟨part, addr, hdecode, haddr, fun r hr ha => absurd ha (hnone r hr)⟩

/-- The outcome is the report of the whole lines exactly when the end goes unnoticed. -/
theorem Outcome.eq_iff {next : Record P} {tail : List UInt8} (h : ∀ r ∈ rs, Clean r.file)
    {result : Except FileError (List (List Char))} (hout : Outcome fmt rs next tail result) :
    result = runFile (Utf8.encode (fmt.log rs)) ↔ Unnoticed fmt rs next tail := by
  have hwhole := runFile_log fmt h
  -- A record of another thread has the address, so the end is noticed.
  have hnoticed : ∀ {part : List Char} {a : P}, Utf8.decode tail = some part →
      (part.splitOn ',')[3]? = some (fmt.text a) → ¬ Alone rs a next.tid →
      ¬ Unnoticed fmt rs next tail := by
    rintro part a hdecode haddr hnot ⟨part', addr, hdecode', haddr', hall⟩
    obtain rfl := Option.some.inj (hdecode.symm.trans hdecode')
    obtain rfl := Option.some.inj (haddr.symm.trans haddr')
    exact hnot fun r hr ha => hall r hr (congrArg fmt.text ha)
  cases hout with
  | undecodable hdecode =>
    rw [hwhole]
    simp [Unnoticed, hdecode]
  | unaddressed hdecode haddr =>
    rw [hwhole]
    simp [Unnoticed, hdecode, haddr]
  | unnoticed h => exact iff_of_true rfl h
  | unfinished hdecode haddr hnot =>
    rw [hwhole]
    exact iff_of_false (by simp) (hnoticed hdecode haddr hnot)
  | @reported part op a hdecode haddr hnot =>
    refine iff_of_false (fun heq => ?_) (hnoticed hdecode haddr hnot)
    -- The report has an entry more than that of the whole lines.
    have ha : a ∈ rs.map Record.addr := by
      by_contra hmem
      exact hnot fun r hr hra => absurd (List.mem_map.mpr ⟨r, hr, hra⟩) hmem
    rw [hwhole, addresses_eq ha, blocks_append_cons] at heq
    have hlength := congrArg List.length (Except.ok.inj heq)
    have hle : (blocks fmt rs [a]).length ≤ (blockRecords fmt rs a).length + 1 := by
      cases hs : shared rs a <;> simp [blocks, block, blockRecords, hs]
    simp only [reportWith, printedUpTo, List.length_append, List.length_cons, List.length_nil]
      at hlength
    omega

/-- A log that was cut short. Any prefix of the bytes of a log of records with clean names is the
lines of the first records, and perhaps a part of the next line. Nothing is raised for the whole
lines. Where there is no part of a line the file is these lines; where there is one, the report
is that of the whole lines exactly when the part goes unnoticed, and otherwise one of the other
outcomes. -/
theorem run_cut {rs : List (Record P)} (h : ∀ r ∈ rs, Clean r.file) {bytes : List UInt8}
    (hbytes : bytes <+: Utf8.encode (fmt.log rs)) :
    ∃ done rest tail, rs = done ++ rest ∧ bytes = Utf8.encode (fmt.log done) ++ tail ∧
      (∃ out, runFile (Utf8.encode (fmt.log done)) = .ok out) ∧
      (tail = [] ∨ ∃ next rest', rest = next :: rest' ∧ tail ≠ [] ∧
        tail <+: Utf8.encode (fmt.line next) ∧ tail ≠ Utf8.encode (fmt.line next) ∧
        (runFile bytes = runFile (Utf8.encode (fmt.log done)) ↔ Unnoticed fmt done next tail) ∧
        Outcome fmt done next tail (runFile bytes)) := by
  have hlog : ∀ qs : List (Record P),
      Utf8.encode (fmt.log qs) = qs.flatMap fun r => Utf8.encode (fmt.line r) := fun qs => by
    rw [PointerFormat.log, Utf8.encode, List.flatMap_assoc]
    rfl
  rw [hlog] at hbytes
  obtain ⟨done, rest, tail, rfl, rfl, htail⟩ := Lines.prefix_flatMap _ hbytes
  obtain ⟨hdone, hrest⟩ := List.forall_mem_append.mp h
  refine ⟨done, rest, tail, rfl, by rw [hlog], ⟨_, runFile_log fmt hdone⟩, ?_⟩
  by_cases hnil : tail = []
  · exact .inl hnil
  · obtain ⟨next, rest', rfl, hpart, hne⟩ := htail.resolve_left hnil
    have hnext := (List.forall_mem_cons.mp hrest).1
    have hout := outcome_tail fmt hdone hnext hpart hnil hne
    rw [← hlog]
    exact .inr ⟨next, rest', rfl, hnil, hpart, hne, hout.eq_iff fmt hdone, hout⟩

/-- The log of two threads, cut in the last operation. -/
theorem run_cut_peersLog :
    ∃ done rest tail, peersLog = done ++ rest ∧
      Utf8.encode ((glibcPointer.log peersLog).take 69) =
        Utf8.encode (glibcPointer.log done) ++ tail ∧
      (∃ out, runFile (Utf8.encode (glibcPointer.log done)) = .ok out) ∧
      (tail = [] ∨ ∃ next rest', rest = next :: rest' ∧ tail ≠ [] ∧
        tail <+: Utf8.encode (glibcPointer.line next) ∧
        tail ≠ Utf8.encode (glibcPointer.line next) ∧
        (runFile (Utf8.encode ((glibcPointer.log peersLog).take 69)) =
            runFile (Utf8.encode (glibcPointer.log done)) ↔
          Unnoticed glibcPointer done next tail) ∧
        Outcome glibcPointer done next tail
          (runFile (Utf8.encode ((glibcPointer.log peersLog).take 69)))) :=
  run_cut glibcPointer (by decide) (Utf8.prefix_encode (List.take_prefix _ _))

/-- Parts of lines that are noticed. A line that is cut in its first field raises an `IndexError`,
as does one behind its address, in the middle of a block. One that is cut in its operation is
reported as a record. -/
theorem cut_noticed :
    (¬ ∀ (rs : List (Record ℕ)) (bytes : List UInt8), (∀ r ∈ rs, Clean r.file) →
      bytes <+: Utf8.encode (glibcPointer.log rs) → ∃ out, runFile bytes = .ok out) ∧
    runFile (Utf8.encode (glibcPointer.log (peersLog.take 2) ++ "0x2,87,peers,0x10".toList)) =
      .error (.indexError ⟨["address: [0x10]".toList, "TID: 0x1 OP: load\n".toList]⟩) ∧
    runFile (Utf8.encode (glibcPointer.log (peersLog.take 2))) = .ok [] ∧
    runFile (Utf8.encode (glibcPointer.log (peersLog.take 2) ++ "0x2,87,peers,0x10,lo".toList)) =
      .ok ["address: [0x10]".toList, "TID: 0x1 OP: load\n".toList, "TID: 0x2 OP: lo".toList,
        dashes] := by
  have hfirst : runFile (Utf8.encode ((glibcPointer.log peersLog).take 3)) =
      .error (.indexError ⟨[]⟩) := by
    rw [runFile_encode]
    decide +kernel
  refine ⟨fun h => ?_, ?_, ?_, ?_⟩
  · obtain ⟨out, hout⟩ := h peersLog (Utf8.encode ((glibcPointer.log peersLog).take 3)) (by decide)
      (Utf8.prefix_encode (List.take_prefix _ _))
    rw [hfirst] at hout
    cases hout
  all_goals
    rw [runFile_encode]
    decide +kernel

end Atom

end AtomicityViolation
