import Mathlib.Algebra.BigOperators.Group.List.Basic
import Mathlib.Algebra.GroupWithZero.Nat
import Mathlib.Data.Set.Function
import AtomicityViolation.Pass.Run
import AtomicityViolation.Report.Atom

/-!
# Reading the records back

`HelloWorld.cpp` passes the path of the source file to the probes, which print it between commas as
it is, and `atom.py` counts the fields of a line from the left. The log is read back as the thread
ids, addresses and operations that were written exactly when no path has a line break or a comma, up
to commas between which the address and the operation of the record happen to stand themselves
(`decode_iff`). `function.cpp` passes the mangled name of the function there, which has neither. The
log itself tells the records apart whether there are commas in the paths or not (`log_injOn`).
-/

namespace AtomicityViolation

namespace Atom

open Lines (readLines universalNewlines universalNewlines_append universalNewlines_eq_self
  universalNewlines_append_of_notMem notMem_universalNewlines count_le_length_readLines)

/-- The lines of a log, split at the commas. -/
def split (text : List Char) : List (List (List Char)) :=
  (readLines (universalNewlines text)).map fun line => line.splitOn ','

/-- What is read of a line: the fields 0, 3 and, up to the line end, 4. -/
def triple (log : List (List Char)) :
    Option (List Char) × Option (List Char) × Option (List Char) :=
  (log[0]?, log[3]?, (log[4]?).map fun op => op.takeWhile (· != '\n'))

/-- The thread ids, addresses and operations that are read from a log. -/
def decode (text : List Char) :
    List (Option (List Char) × Option (List Char) × Option (List Char)) :=
  (split text).map triple

variable {P : Type*} (fmt : PointerFormat P)

/-- The thread id, the address and the operation that were written for a record. -/
def written (r : Record P) : Option (List Char) × Option (List Char) × Option (List Char) :=
  (some (fmt.text r.tid), some (fmt.text r.addr), some r.op.text.toList)

/-- The texts that the commas of the path move into the fields 3 and 4 happen to be the address and
the operation of the record. -/
def Echoes (r : Record P) : Prop :=
  ∃ first rest, r.file.splitOn ',' ++ [fmt.text r.addr, r.op.text.toList] =
    first :: fmt.text r.addr :: r.op.text.toList :: rest

/-! ## Line breaks -/

/-- What stands in a line in front of the path. -/
def lead (r : Record P) : List Char := fmt.text r.tid ++ ',' :: (decimal r.line.toInt ++ [','])

/-- What stands in a line behind the path. -/
def trail (r : Record P) : List Char :=
  ',' :: (fmt.text r.addr ++ ',' :: (r.op.text.toList ++ ['\n']))

/-- The path in its line. -/
theorem line_eq_file (r : Record P) : fmt.line r = lead fmt r ++ (r.file ++ trail fmt r) := by
  simp [PointerFormat.line, lead, trail]

/-- The line feeds of a line are those of its path and the one at its end. -/
theorem count_line (r : Record P) :
    (universalNewlines (fmt.line r)).count '\n' = (universalNewlines r.file).count '\n' + 1 := by
  obtain ⟨-, htid, htid'⟩ := fmt.clean r.tid
  obtain ⟨-, hline, hline'⟩ := clean_decimal r.line.toInt
  obtain ⟨-, haddr, haddr'⟩ := fmt.clean r.addr
  obtain ⟨-, hop, hop'⟩ := r.op.clean_text
  have hlead : '\n' ∉ lead fmt r ∧ '\r' ∉ lead fmt r := by
    simp [lead, htid, htid', hline, hline']
  have htrail : '\r' ∉ trail fmt r := by simp [trail, haddr', hop']
  have hcount : (trail fmt r).count '\n' = 1 := by
    simp [trail, List.count_append, List.count_eq_zero.mpr haddr, List.count_eq_zero.mpr hop]
  have hhead : (trail fmt r).head? ≠ some '\n' := by simp [trail]
  have hfile : universalNewlines (r.file ++ trail fmt r) =
      universalNewlines r.file ++ trail fmt r := by
    rw [universalNewlines_append _ hhead, universalNewlines_eq_self htrail]
  rw [line_eq_file, universalNewlines_append_of_notMem hlead.2, hfile, List.count_append,
    List.count_append, List.count_eq_zero.mpr hlead.1, hcount, Nat.zero_add]

/-- A log is read as at least one line for each line feed in it. -/
theorem le_length_split (rs : List (Record P)) :
    (rs.map fun r => (universalNewlines r.file).count '\n' + 1).sum ≤
      (split (fmt.log rs)).length := by
  -- Line ends are read line by line, since no line starts with a line feed.
  have hread : universalNewlines (fmt.log rs) =
      rs.flatMap fun r => universalNewlines (fmt.line r) := by
    induction rs with
    | nil => rfl
    | cons r rs ih =>
      have hhead : (fmt.log rs).head? ≠ some '\n' := by
        cases rs with
        | nil => simp [PointerFormat.log]
        | cons r' rs =>
          have hclean := (fmt.clean r'.tid).2.1
          cases htid : fmt.text r'.tid with
          | nil => simp [PointerFormat.log, PointerFormat.line, htid]
          | cons c cs =>
            have hne : c ≠ '\n' := fun hc => hclean (by simp [htid, hc])
            simp [PointerFormat.log, PointerFormat.line, htid, hne]
      have hlog : fmt.log (r :: rs) = fmt.line r ++ fmt.log rs := by
        simp [PointerFormat.log]
      rw [hlog, universalNewlines_append _ hhead, ih, List.flatMap_cons]
  calc (rs.map fun r => (universalNewlines r.file).count '\n' + 1).sum
      = (rs.map fun r => (universalNewlines (fmt.line r)).count '\n').sum := by
        simp only [count_line]
    _ = (universalNewlines (fmt.log rs)).count '\n' := by
        rw [hread, List.count_flatMap]
        rfl
    _ ≤ (split (fmt.log rs)).length := by
        rw [split, List.length_map]
        exact count_le_length_readLines _

/-- If there are as many lines as records, no path has a line break. -/
theorem unbroken_of_length {rs : List (Record P)} (h : (split (fmt.log rs)).length = rs.length) :
    ∀ r ∈ rs, '\n' ∉ r.file ∧ '\r' ∉ r.file := by
  intro r hr
  have hle := le_length_split fmt rs
  have hsum : (rs.map fun r => (universalNewlines r.file).count '\n' + 1).sum =
      (rs.map fun r => (universalNewlines r.file).count '\n').sum + rs.length := by
    simp [List.sum_map_add]
  have hzero : (rs.map fun r => (universalNewlines r.file).count '\n').sum = 0 := by omega
  rw [← notMem_universalNewlines, ← List.count_eq_zero]
  exact List.sum_eq_zero_iff_forall_eq_nat.mp hzero _ (List.mem_map_of_mem hr)

/-! ## Commas -/

/-- A line without further line breaks, split at the commas. -/
theorem splitOn_line_eq (r : Record P) :
    (fmt.line r).splitOn ',' = fmt.text r.tid :: decimal r.line.toInt ::
      (r.file.splitOn ',' ++ [fmt.text r.addr, r.op.text.toList ++ ['\n']]) := by
  have hop : ',' ∉ r.op.text.toList ++ ['\n'] := by simpa using r.op.clean_text.1
  simp only [PointerFormat.line, List.splitOn_append_cons_self,
    List.splitOn_eq_singleton (fmt.clean _).1, List.splitOn_eq_singleton (clean_decimal _).1,
    List.splitOn_eq_singleton hop]
  simp

/-- The pieces of a text consist of characters of the text. -/
theorem mem_of_mem_splitOn {s piece : List Char} {c : Char} (h : piece ∈ s.splitOn ',')
    (hc : c ∈ piece) : c ∈ s := by
  have hpieces : ∀ ls : List (List Char), piece ∈ ls → c ∈ [','].intercalate ls := by
    intro ls hls
    induction ls with
    | nil => cases hls
    | cons l ls ih =>
      cases ls with
      | nil => simpa [List.mem_singleton.mp hls] using hc
      | cons l' ls =>
        rw [List.intercalate_cons_cons, List.mem_append, List.mem_append]
        rcases List.mem_cons.mp hls with rfl | hls
        · exact .inl (.inl hc)
        · exact .inr (ih hls)
  simpa using hpieces _ h

/-- A text without line feed is read up to the line end. -/
theorem takeWhile_eq_self {s : List Char} (h : '\n' ∉ s) : s.takeWhile (· != '\n') = s :=
  List.takeWhile_eq_self_iff.mpr fun c hc => by
    rw [bne_iff_ne]
    exact fun hn => h (hn ▸ hc)

/-- The operation is what stands in front of the line feed. -/
theorem takeWhile_op (op : Op) :
    (op.text.toList ++ ['\n']).takeWhile (· != '\n') = op.text.toList := by
  have hop : ∀ c ∈ op.text.toList, (c != '\n') = true := fun c hc => by
    rw [bne_iff_ne]
    exact fun hn => op.clean_text.2.1 (hn ▸ hc)
  simp [List.takeWhile_append_of_pos hop]

/-- A line whose path has no line break is read back as its record exactly when the path has no
comma or echoes the record. -/
theorem triple_line_iff {r : Record P} (h : '\n' ∉ r.file) :
    triple ((fmt.line r).splitOn ',') = written fmt r ↔ ',' ∉ r.file ∨ Echoes fmt r := by
  rw [splitOn_line_eq]
  by_cases hcomma : ',' ∈ r.file
  · -- There are two pieces at least, and no line feed in them.
    obtain ⟨first, tail, hfile, hfirst⟩ := List.eq_append_cons_of_mem hcomma
    obtain ⟨second, rest, htail⟩ := List.exists_cons_of_ne_nil (List.splitOn_ne_nil ',' tail)
    have hsplit : r.file.splitOn ',' = first :: second :: rest := by
      rw [hfile, List.splitOn_append_cons_self, List.splitOn_eq_singleton hfirst, htail]
      rfl
    have hpieces : ∀ piece ∈ r.file.splitOn ',', '\n' ∉ piece := fun piece hpiece hn =>
      h (mem_of_mem_splitOn hpiece hn)
    simp only [hcomma, not_true_eq_false, false_or, Echoes, hsplit] at hpieces ⊢
    cases rest with
    | nil =>
      simp [triple, written, takeWhile_eq_self (fmt.clean r.addr).2.1]
    | cons third rest =>
      have hthird : '\n' ∉ third := hpieces third (by simp)
      simp [triple, written, takeWhile_eq_self hthird]
  · simp only [hcomma, not_false_eq_true, true_or, iff_true, List.splitOn_eq_singleton hcomma]
    simp [triple, written, takeWhile_op]

/-! ## The log -/

/-- The log is read back as the thread ids, addresses and operations that were written, one for each
record and in their order, exactly when no path has a line break, and none a comma unless it echoes
its record. -/
theorem decode_iff (rs : List (Record P)) :
    decode (fmt.log rs) = rs.map (written fmt) ↔
      ∀ r ∈ rs, ('\n' ∉ r.file ∧ '\r' ∉ r.file) ∧ (',' ∉ r.file ∨ Echoes fmt r) := by
  -- Without line breaks in the paths the lines are those of the records.
  have hlines : (∀ r ∈ rs, '\n' ∉ r.file ∧ '\r' ∉ r.file) →
      decode (fmt.log rs) = rs.map fun r => triple ((fmt.line r).splitOn ',') := by
    intro h
    simp only [decode, split, readLines_log fmt h, List.map_map]
    rfl
  constructor
  · intro h
    have hlength : (split (fmt.log rs)).length = rs.length := by
      simpa [decode] using congrArg List.length h
    have hbreak := unbroken_of_length fmt hlength
    rw [hlines hbreak, List.map_inj_left] at h
    exact fun r hr => ⟨hbreak r hr, (triple_line_iff fmt (hbreak r hr).1).mp (h r hr)⟩
  · intro h
    rw [hlines fun r hr => (h r hr).1, List.map_inj_left]
    exact fun r hr => (triple_line_iff fmt (h r hr).1.1).mpr (h r hr).2

/-! ## Nothing is lost in the log -/

/-- A line tells its record: the first two fields and the last two have no comma, so the path is
what stands between them. -/
theorem line_injective : Function.Injective fmt.line := by
  intro r r' h
  have hsplit := congrArg (List.splitOn ',') h
  rw [splitOn_line_eq, splitOn_line_eq] at hsplit
  obtain ⟨htid, hline, hrest⟩ : fmt.text r.tid = fmt.text r'.tid ∧
      decimal r.line.toInt = decimal r'.line.toInt ∧ _ = _ := by
    simpa only [List.cons.injEq] using hsplit
  obtain ⟨hfile, hlast⟩ := List.append_inj' hrest rfl
  obtain ⟨haddr, hop⟩ : fmt.text r.addr = fmt.text r'.addr ∧
      r.op.text.toList ++ ['\n'] = r'.op.text.toList ++ ['\n'] := by
    simpa only [List.cons.injEq, and_true] using hlast
  have hfile' : r.file = r'.file := by simpa using congrArg [','].intercalate hfile
  have hop' := Op.text_injective (String.toList_inj.mp (List.append_cancel_right hop))
  obtain ⟨tid, line, file, addr, op⟩ := r
  obtain ⟨tid', line', file', addr', op'⟩ := r'
  have hline' : line = line' := BitVec.eq_of_toInt_eq (decimal_injective hline)
  exact congr (congr (congr (congr (congrArg Record.mk (fmt.injective htid)) hline') hfile')
    (fmt.injective haddr)) hop'

/-- The log loses nothing, commas in the paths or not: records whose paths have no line feed can be
told from the text that the probes print for them. -/
theorem log_injOn : Set.InjOn fmt.log {rs | ∀ r ∈ rs, '\n' ∉ r.file} := by
  intro rs hrs rs' hrs' h
  have hread : ∀ {qs : List (Record P)}, (∀ r ∈ qs, '\n' ∉ r.file) →
      readLines (fmt.log qs) = qs.map fmt.line := by
    intro qs hqs
    have hstem : ∀ l ∈ qs.map (stem fmt), '\n' ∉ l := by
      intro l hl
      obtain ⟨r, hr, rfl⟩ := List.mem_map.mp hl
      simp [stem, PointerFormat.fields, List.intercalate_cons_cons, (fmt.clean r.tid).2.1,
        (clean_decimal r.line.toInt).2.1, hqs r hr, (fmt.clean r.addr).2.1, r.op.clean_text.2.1]
    have hlines : fmt.line = fun r => stem fmt r ++ ['\n'] := funext (line_eq_stem fmt)
    have hlog : fmt.log qs = (qs.map (stem fmt)).flatMap fun l => l ++ ['\n'] := by
      rw [PointerFormat.log, List.flatMap_map, hlines]
    rw [hlog, Lines.readLines_flatMap hstem, List.map_map, hlines]
    rfl
  exact List.map_injective_iff.mpr (line_injective fmt) (by rw [← hread hrs, h, hread hrs'])

/-- A function of a source file under a directory with a comma. -/
def commaFunction : Function := ⟨"_ZN4grin3run17h0f1e2d3c4b5a6978E", "/src/a,b", "main.rs", []⟩

/-- A store in it. -/
def commaRecord : Record ℕ := ⟨1, 7, (Source.helloWorldCpp.file commaFunction).toList, 16, .store⟩

/-- A path with a comma: the record is read back with the end of the path as its address and the
address as its operation. So not every path that `HelloWorld.cpp` passes is read back. -/
theorem decode_comma :
    decode (glibcPointer.log [commaRecord]) =
      [(some "0x1".toList, some "b/main.rs".toList, some "0x10".toList)] ∧
    ¬ ∀ rs : List (Record ℕ), (∀ r ∈ rs, ∃ F, r.file = (Source.helloWorldCpp.file F).toList) →
      decode (glibcPointer.log rs) = rs.map (written glibcPointer) := by
  have hread : decode (glibcPointer.log [commaRecord]) =
      [(some "0x1".toList, some "b/main.rs".toList, some "0x10".toList)] := by decide +kernel
  refine ⟨hread, fun h => ?_⟩
  have hback := h [commaRecord] fun r hr => ⟨commaFunction, by rw [List.mem_singleton.mp hr]; rfl⟩
  rw [hread] at hback
  exact absurd hback (by decide +kernel)

end Atom

end AtomicityViolation
