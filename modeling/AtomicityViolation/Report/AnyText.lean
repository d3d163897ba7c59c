import AtomicityViolation.Report.Truncated
import AtomicityViolation.Report.Decode

/-!
# The report of any text

What `atom.py` does with a text that need not be a log. It goes through exactly when each line has
an address and each line under an address that lines with different first fields have has an
operation, and then it prints the blocks of these addresses. Otherwise it raises an `IndexError`,
before it prints anything or in the middle of the block of the first line without an operation
(`run_iff`). When a text is put behind whole lines, the report of these only grows (`run_grows`).
-/

namespace AtomicityViolation

namespace Atom

open Lines (readLines universalNewlines)

/-! ## What is printed -/

/-- The lines of an address, in their order. -/
def linesOf (logs : List (List (List Char))) (addr : List Char) : List (List (List Char)) :=
  logs.filter fun log => decide (log[3]? = some addr)

/-- The addresses, in the order in which each occurs first. -/
def addresses (logs : List (List (List Char))) : List (List Char) :=
  Dict.firsts (logs.filterMap fun log => log[3]?)

/-- Lines with different first fields have the address. -/
def Contended (logs : List (List (List Char))) (addr : List Char) : Prop :=
  ∃ log ∈ logs, ∃ log' ∈ logs, log[3]? = some addr ∧ log'[3]? = some addr ∧ log[0]? ≠ log'[0]?

instance (logs : List (List (List Char))) (addr : List Char) : Decidable (Contended logs addr) :=
  inferInstanceAs (Decidable (∃ log ∈ logs, ∃ log' ∈ logs, _))

/-- The addresses that are reported. -/
def contended (logs : List (List (List Char))) : List (List Char) :=
  (addresses logs).filter fun addr => decide (Contended logs addr)

/-- The first line of a block. -/
def heading (addr : List Char) : List Char := "address: [".toList ++ addr ++ "]".toList

/-- The line of a block for a line of the text. -/
def rendered (log : List (List Char)) : List Char :=
  "TID: ".toList ++ log.getD 0 [] ++ " OP: ".toList ++ log.getD 4 []

/-- The block of an address. -/
def blockOf (logs : List (List (List Char))) (addr : List Char) : List (List Char) :=
  heading addr :: (linesOf logs addr).map rendered ++ [dashes]

/-- What is needed of the lines: an address, and an operation where the address is reported. -/
structure Complete (logs : List (List (List Char))) : Prop where
  address : ∀ log ∈ logs, 4 ≤ log.length
  operation : ∀ addr ∈ contended logs, ∀ log ∈ linesOf logs addr, 5 ≤ log.length

/-- What was printed when a line was too short. -/
inductive Breaks (logs : List (List (List Char))) : List (List Char) → Prop
  | address {log : List (List Char)} : log ∈ logs → log.length < 4 → Breaks logs []
  | operation {done rest : List (List Char)} {addr : List Char}
      {before behind : List (List (List Char))} {log : List (List Char)} :
      (∀ log ∈ logs, 4 ≤ log.length) → contended logs = done ++ addr :: rest →
      (∀ addr ∈ done, ∀ log ∈ linesOf logs addr, 5 ≤ log.length) →
      linesOf logs addr = before ++ log :: behind → (∀ log ∈ before, 5 ≤ log.length) →
      log.length < 5 →
      Breaks logs (done.flatMap (blockOf logs) ++ heading addr :: before.map rendered)

/-! ## The loops -/

/-- An index that is not there. -/
theorem index_eq_error {α : Type*} {xs : List α} {i : ℕ} (h : xs.length ≤ i)
    (printed : List (List Char)) : index xs i printed = .error ⟨printed⟩ := by
  rw [index, List.getElem?_eq_none h]

/-- A field that a line has. -/
theorem getElem?_field {log : List (List Char)} {i : ℕ} (h : i < log.length) :
    log[i]? = some (log.getD i []) := by
  rw [List.getD_eq_getElem?_getD, List.getElem?_eq_getElem h, Option.getD_some]

/-- An index within the bounds. -/
theorem index_getD {log : List (List Char)} {i : ℕ} (h : i < log.length)
    (printed : List (List Char)) : index log i printed = .ok (log.getD i []) :=
  index_eq_ok (getElem?_field h) printed

/-- The grouping loop, where all lines have an address. -/
theorem collect_complete {ls : List (List Char)} (dic : Dic)
    (h : ∀ l ∈ ls, 4 ≤ (l.splitOn ',').length) :
    collect dic ls = .ok ((ls.map fun l => l.splitOn ',').foldl
      (fun dic log => Dict.add (log.getD 3 []) log dic) dic) := by
  induction ls generalizing dic with
  | nil => rfl
  | cons l ls ih =>
    obtain ⟨hl, hls⟩ := List.forall_mem_cons.mp h
    rw [collect, index_getD hl]
    exact ih _ hls

/-- The grouping loop, where a line has no address. -/
theorem collect_short {ls : List (List Char)} (dic : Dic) {l : List Char} (hl : l ∈ ls)
    (h : (l.splitOn ',').length < 4) : collect dic ls = .error ⟨[]⟩ := by
  induction ls generalizing dic with
  | nil => cases hl
  | cons l' ls ih =>
    rw [collect]
    by_cases hshort : (l'.splitOn ',').length < 4
    · rw [index_eq_error (by omega)]
      rfl
    · have hne : l ≠ l' := by
        rintro rfl
        exact hshort h
      rw [index_getD (by omega)]
      exact ih _ ((List.mem_cons.mp hl).resolve_left hne)

/-- The loop that sets `pr`. -/
theorem compare_eq (printed : List (List Char)) (first : List Char) (pr : Bool)
    {arr : List (List (List Char))} (h : ∀ log ∈ arr, 0 < log.length) :
    compare printed first pr arr = .ok (pr || arr.any fun log => log.getD 0 [] != first) := by
  induction arr generalizing pr with
  | nil => simp [compare]
  | cons log arr ih =>
    obtain ⟨hlog, harr⟩ := List.forall_mem_cons.mp h
    rw [compare, index_getD hlog]
    simp only [bind, Except.bind, ih _ harr, List.any_cons, Bool.or_assoc]

/-- The loop that prints the records of a block, where all lines have an operation. -/
theorem printRecords_complete (printed : List (List Char)) {arr : List (List (List Char))}
    (h : ∀ log ∈ arr, 5 ≤ log.length) :
    printRecords printed arr = .ok (printed ++ arr.map rendered) := by
  induction arr generalizing printed with
  | nil => simp [printRecords]
  | cons log arr ih =>
    obtain ⟨hlog, harr⟩ := List.forall_mem_cons.mp h
    rw [printRecords, index_getD (by omega), index_getD (by omega)]
    simp only [bind, Except.bind]
    exact (ih _ harr).trans (by rw [List.append_assoc]; rfl)

/-- The loop that prints the records of a block, where a line has no operation. -/
theorem printRecords_short (printed : List (List Char)) {before behind : List (List (List Char))}
    {log : List (List Char)} (hbefore : ∀ log ∈ before, 5 ≤ log.length) (hlog : log.length = 4) :
    printRecords printed (before ++ log :: behind) = .error ⟨printed ++ before.map rendered⟩ := by
  rw [printRecords_append, printRecords_complete _ hbefore]
  simp only [bind, Except.bind, printRecords]
  rw [index_getD (by omega), index_eq_error (by omega)]

/-! ## The groups -/

variable {logs : List (List (List Char))}

/-- The dictionary, where all lines have an address. -/
theorem group_lines (h : ∀ log ∈ logs, 4 ≤ log.length) :
    Dict.group (fun log : List (List Char) => log.getD 3 []) logs =
      (addresses logs).map fun addr => (addr, linesOf logs addr) := by
  have hkeys : logs.map (fun log => log.getD 3 []) = logs.filterMap fun log => log[3]? := by
    rw [← List.filterMap_eq_map]
    exact List.filterMap_congr fun log hlog => (getElem?_field (h log hlog)).symm
  rw [Dict.group_eq, hkeys, addresses, Dict.firsts]
  refine List.map_congr_left fun addr _ => congrArg (Prod.mk addr) ?_
  refine List.filter_congr fun log hlog => ?_
  simp only [getElem?_field (h log hlog), Option.some.injEq]

/-- An address has a line. -/
theorem linesOf_ne_nil {addr : List Char} (h : addr ∈ addresses logs) : linesOf logs addr ≠ [] := by
  obtain ⟨log, hlog, haddr⟩ := List.mem_filterMap.mp (Dict.mem_firsts.mp h)
  exact List.ne_nil_of_mem (List.mem_filter.mpr ⟨hlog, by simpa using haddr⟩)

/-- The lines of an address are among the lines. -/
theorem mem_linesOf {log : List (List Char)} {addr : List Char} :
    log ∈ linesOf logs addr ↔ log ∈ logs ∧ log[3]? = some addr := by
  rw [linesOf, List.mem_filter, decide_eq_true_iff]

/-- What the loop that sets `pr` finds out. -/
theorem any_ne_iff (h : ∀ log ∈ logs, 4 ≤ log.length) {addr : List Char}
    {first : List (List Char)} {arr : List (List (List Char))}
    (harr : linesOf logs addr = first :: arr) :
    ((first :: arr).any fun log => log.getD 0 [] != first.getD 0 []) =
      decide (Contended logs addr) := by
  have hmem : ∀ log, log ∈ first :: arr ↔ log ∈ logs ∧ log[3]? = some addr := fun log => by
    rw [← harr, mem_linesOf]
  have hzero : ∀ log ∈ logs, log[0]? = some (log.getD 0 []) := fun log hlog =>
    getElem?_field (Nat.lt_of_lt_of_le (by decide) (h log hlog))
  obtain ⟨hfirst, hfirstAddr⟩ := (hmem first).mp List.mem_cons_self
  rw [Bool.eq_iff_iff, List.any_eq_true, decide_eq_true_iff]
  constructor
  · rintro ⟨log, hlog, hne⟩
    obtain ⟨hmemlog, haddr⟩ := (hmem log).mp hlog
    refine ⟨log, hmemlog, first, hfirst, haddr, hfirstAddr, ?_⟩
    rw [hzero log hmemlog, hzero first hfirst]
    simpa using hne
  · rintro ⟨log, hlog, log', hlog', haddr, haddr', hne⟩
    rw [hzero log hlog, hzero log' hlog', ne_eq, Option.some.injEq] at hne
    -- One of two different ids differs from the first one.
    by_cases hsame : log.getD 0 [] = first.getD 0 []
    · exact ⟨log', (hmem log').mpr ⟨hlog', haddr'⟩, by
        simpa using fun he => hne (hsame.trans he.symm)⟩
    · exact ⟨log, (hmem log).mpr ⟨hlog, haddr⟩, by simpa using hsame⟩

/-- The reporting loop at a group. -/
theorem report_group (h : ∀ log ∈ logs, 4 ≤ log.length) {addr : List Char}
    (haddr : linesOf logs addr ≠ []) (printed : List (List Char)) (dic : Dic) :
    report printed ((addr, linesOf logs addr) :: dic) =
      if Contended logs addr then
        printRecords (printed ++ [heading addr]) (linesOf logs addr) >>= fun printed =>
          report (printed ++ [dashes]) dic
      else report printed dic := by
  obtain ⟨first, arr, harr⟩ := List.exists_cons_of_ne_nil haddr
  have hlength : ∀ log ∈ linesOf logs addr, 0 < log.length := fun log hlog =>
    Nat.lt_of_lt_of_le (by decide) (h log (mem_linesOf.mp hlog).1)
  have hhead : (linesOf logs addr)[0]? = some first := by rw [harr, List.getElem?_cons_zero]
  have hzero : ∀ printed, index first 0 printed = .ok (first.getD 0 []) :=
    index_getD (hlength first (by rw [harr]; exact List.mem_cons_self))
  have hcompare : compare printed (first.getD 0 []) false (linesOf logs addr) =
      .ok (decide (Contended logs addr)) := by
    rw [compare_eq _ _ _ hlength, Bool.false_or, harr, any_ne_iff h harr]
  rw [report]
  simp only [index_eq_ok hhead, hzero, hcompare, bind, Except.bind, decide_eq_true_eq]
  rfl

/-- The reporting loop on groups whose lines have the operations that are needed. -/
theorem report_complete (h : ∀ log ∈ logs, 4 ≤ log.length) {addrs : List (List Char)}
    (haddrs : ∀ addr ∈ addrs, linesOf logs addr ≠ [])
    (hlong : ∀ addr ∈ addrs, Contended logs addr → ∀ log ∈ linesOf logs addr, 5 ≤ log.length)
    (printed : List (List Char)) :
    report printed (addrs.map fun addr => (addr, linesOf logs addr)) =
      .ok (printed ++
        (addrs.filter fun addr => decide (Contended logs addr)).flatMap (blockOf logs)) := by
  induction addrs generalizing printed with
  | nil => simp [report]
  | cons addr addrs ih =>
    obtain ⟨haddr, haddrs⟩ := List.forall_mem_cons.mp haddrs
    obtain ⟨hfirst, hlong⟩ := List.forall_mem_cons.mp hlong
    rw [List.map_cons, report_group h haddr]
    split_ifs with hcontended
    · rw [printRecords_complete _ (hfirst hcontended)]
      simp only [bind, Except.bind]
      rw [ih haddrs hlong, List.filter_cons_of_pos (by simpa using hcontended), List.flatMap_cons,
        blockOf]
      simp only [List.append_assoc, List.cons_append, List.nil_append]
    · rw [ih haddrs hlong, List.filter_cons_of_neg (by simpa using hcontended)]

/-! ## Any text -/

variable {text : List Char}

/-- The report, where all lines have an address. -/
theorem run_eq_report (h : ∀ log ∈ split text, 4 ≤ log.length) :
    run text = report [] ((addresses (split text)).map fun addr =>
      (addr, linesOf (split text) addr)) := by
  have hlines : ∀ l ∈ readLines (universalNewlines text), 4 ≤ (l.splitOn ',').length := fun l hl =>
    h _ (List.mem_map_of_mem hl)
  rw [run, collect_complete [] hlines, ← group_lines h]
  rfl

/-- What is printed for a text whose lines have what is needed. -/
theorem run_complete (h : Complete (split text)) :
    run text = .ok ((contended (split text)).flatMap (blockOf (split text))) := by
  have hlong : ∀ addr ∈ addresses (split text), Contended (split text) addr →
      ∀ log ∈ linesOf (split text) addr, 5 ≤ log.length := fun addr haddr hcontended =>
    h.operation addr (List.mem_filter.mpr ⟨haddr, by simpa using hcontended⟩)
  rw [run_eq_report h.address,
    report_complete h.address (fun _ => linesOf_ne_nil) hlong, List.nil_append, contended]

/-- What is raised for a text with a line that is too short. -/
theorem run_breaks {printed : List (List Char)} (h : Breaks (split text) printed) :
    run text = .error ⟨printed⟩ := by
  cases h with
  | address hlog hlength =>
    obtain ⟨l, hl, rfl⟩ := List.mem_map.mp hlog
    rw [run, collect_short [] hl hlength]
    rfl
  | @operation done rest addr before behind log haddress hcontended hdone hlines hbefore hlog =>
    -- The addresses in front of this one, and those behind it.
    obtain ⟨as, bs, haddrs, hfront, hback⟩ := List.filter_eq_append_iff.mp hcontended
    obtain ⟨as', bs', rfl, hquiet, haddr, -⟩ := List.filter_eq_cons_iff.mp hback
    rw [decide_eq_true_iff] at haddr
    have hsome : ∀ a ∈ as ++ as', linesOf (split text) a ≠ [] := fun a ha =>
      linesOf_ne_nil (by rw [haddrs, ← List.append_assoc]; exact List.mem_append_left _ ha)
    have hlong : ∀ a ∈ as ++ as', Contended (split text) a →
        ∀ log ∈ linesOf (split text) a, 5 ≤ log.length := by
      intro a ha hcont
      rcases List.mem_append.mp ha with ha | ha
      · exact hdone a (hfront ▸ List.mem_filter.mpr ⟨ha, by simpa using hcont⟩)
      · exact absurd (by simpa using hcont) (hquiet a ha)
    have hblocks : (as ++ as').filter (fun a => decide (Contended (split text) a)) = done := by
      rw [List.filter_append, hfront, List.filter_eq_nil_iff.mpr hquiet, List.append_nil]
    have hnil : linesOf (split text) addr ≠ [] := by
      rw [hlines]
      simp
    have hfour : log.length = 4 := by
      have hmem : log ∈ linesOf (split text) addr := by
        rw [hlines]
        simp
      have hle := haddress log (mem_linesOf.mp hmem).1
      omega
    rw [run_eq_report haddress, haddrs, ← List.append_assoc, List.map_append, report_append,
      report_complete haddress hsome hlong, hblocks, List.map_cons]
    simp only [bind, Except.bind]
    rw [report_group haddress hnil, if_pos haddr, hlines, printRecords_short _ hbefore hfour]
    simp only [bind, Except.bind, List.nil_append, List.append_assoc, List.cons_append]

/-- The first element of which a property does not hold. -/
theorem forall_or_first {α : Type*} (p : α → Prop) [DecidablePred p] (xs : List α) :
    (∀ x ∈ xs, p x) ∨ ∃ ys x zs, xs = ys ++ x :: zs ∧ (∀ y ∈ ys, p y) ∧ ¬ p x := by
  cases hfind : xs.find? fun x => decide (¬ p x) with
  | none => exact .inl fun x hx => by simpa using List.find?_eq_none.mp hfind x hx
  | some x =>
    obtain ⟨hx, ys, zs, hxs, hys⟩ := List.find?_eq_some_iff_append.mp hfind
    exact .inr ⟨ys, x, zs, hxs, fun y hy => by simpa using hys y hy, by simpa using hx⟩

/-- The lines have what is needed, or there is a first one that is too short. -/
theorem complete_or_breaks (logs : List (List (List Char))) :
    Complete logs ∨ ∃ printed, Breaks logs printed := by
  by_cases haddress : ∀ log ∈ logs, 4 ≤ log.length
  · rcases forall_or_first (fun addr => ∀ log ∈ linesOf logs addr, 5 ≤ log.length)
      (contended logs) with hall | ⟨done, addr, rest, hcontended, hdone, haddr⟩
    · exact .inl ⟨haddress, hall⟩
    · obtain ⟨before, log, behind, hlines, hbefore, hlog⟩ :=
        (forall_or_first (fun log => 5 ≤ log.length) (linesOf logs addr)).resolve_left haddr
      exact .inr ⟨_, .operation haddress hcontended hdone hlines hbefore (by omega)⟩
  · simp only [not_forall, not_le] at haddress
    obtain ⟨log, hlog, hlength⟩ := haddress
    exact .inr ⟨[], .address hlog hlength⟩

/-- What `atom.py` does with any text. It goes through exactly when each line has an address and
each line of a contended address has an operation, and then it prints the blocks of the contended
addresses, in the order in which each occurs first. Otherwise a line is too short, and an
`IndexError` is raised: before anything is printed if a line has no address, else in the block of
the first contended address with a line without operation, in front of this line. -/
theorem run_iff (text : List Char) :
    (∀ out, run text = .ok out ↔
      Complete (split text) ∧ out = (contended (split text)).flatMap (blockOf (split text))) ∧
    ∀ e, run text = .error e ↔ Breaks (split text) e.printed := by
  rcases complete_or_breaks (split text) with hcomplete | ⟨printed, hbreaks⟩
  · have hrun := run_complete hcomplete
    refine ⟨fun out => ⟨fun h => ?_, fun h => ?_⟩, fun e => ⟨fun h => ?_, fun h => ?_⟩⟩
    · rw [hrun, Except.ok.injEq] at h
      exact ⟨hcomplete, h.symm⟩
    · rw [hrun, h.2]
    · rw [hrun] at h
      cases h
    · rw [run_breaks h]
  · have hrun := run_breaks hbreaks
    refine ⟨fun out => ⟨fun h => ?_, fun h => ?_⟩, fun e => ⟨fun h => ?_, fun h => ?_⟩⟩
    · rw [hrun] at h
      cases h
    · rw [run_complete h.1, h.2]
    · rw [hrun, Except.error.injEq] at h
      exact h ▸ hbreaks
    · rw [run_breaks h]

/-! ## Texts that grow -/

/-- The lines of whole lines and of what stands behind them. -/
theorem split_append {s : List Char} (h : Lines.Whole s) (t : List Char) :
    split (s ++ t) = split s ++ split t := by
  have hcr : s.getLast? ≠ some '\r' := by
    rcases h with rfl | h
    · simp
    · simp [h]
  rw [split, Lines.universalNewlines_append_of_getLast hcr,
    Lines.readLines_append_of_whole h.universalNewlines, List.map_append]
  rfl

/-- The lines of an address in two lists. -/
theorem linesOf_append (logs logs' : List (List (List Char))) (addr : List Char) :
    linesOf (logs ++ logs') addr = linesOf logs addr ++ linesOf logs' addr :=
  List.filter_append ..

/-- An address stays contended. -/
theorem Contended.append {addr : List Char} (h : Contended logs addr)
    (logs' : List (List (List Char))) : Contended (logs ++ logs') addr := by
  obtain ⟨log, hlog, log', hlog', hrest⟩ := h
  exact ⟨log, List.mem_append_left _ hlog, log', List.mem_append_left _ hlog', hrest⟩

/-- The contended addresses stay in their order. -/
theorem contended_append (logs logs' : List (List (List Char))) :
    (contended logs).Sublist (contended (logs ++ logs')) := by
  have hfront : addresses logs <+: addresses (logs ++ logs') := by
    rw [addresses, addresses, List.filterMap_append]
    exact Dict.firsts_prefix ..
  refine .trans (List.monotone_filter_right _ fun addr haddr => ?_)
    (hfront.sublist.filter fun addr => decide (Contended (logs ++ logs') addr))
  rw [decide_eq_true_iff] at haddr ⊢
  exact haddr.append logs'

/-- A text whose lines have what is needed starts with one. -/
theorem Complete.of_append {logs' : List (List (List Char))} (h : Complete (logs ++ logs')) :
    Complete logs where
  address log hlog := h.address log (List.mem_append_left _ hlog)
  operation addr haddr log hlog :=
    h.operation addr ((contended_append logs logs').subset haddr) log
      (by rw [linesOf_append]; exact List.mem_append_left _ hlog)

/-- The report of a text that grows. When `atom.py` goes through for whole lines and what stands
behind them, it goes through for the whole lines, too. The addresses that it reports of these are
reported of all of it, in the same order, and perhaps others between them, and the records of each
stand in front of those that were added. -/
theorem run_grows {s t : List Char} {out : List (List Char)} (hs : Lines.Whole s)
    (hrun : run (s ++ t) = .ok out) :
    ∃ reported reported' : List (List Char), reported.Sublist reported' ∧
      run s = .ok (reported.flatMap fun addr =>
        heading addr :: (linesOf (split s) addr).map rendered ++ [dashes]) ∧
      out = reported'.flatMap fun addr =>
        heading addr :: ((linesOf (split s) addr).map rendered ++
          (linesOf (split t) addr).map rendered) ++ [dashes] := by
  obtain ⟨hcomplete, hout⟩ := ((run_iff (s ++ t)).1 out).mp hrun
  rw [split_append hs] at hcomplete hout
  refine ⟨contended (split s), _, contended_append _ (split t),
    run_complete hcomplete.of_append, hout.trans ?_⟩
  refine congrArg (fun f => List.flatMap f _) (funext fun addr => ?_)
  rw [blockOf, linesOf_append, List.map_append]

/-- The log of two threads, of which the second one has just written its first line. -/
theorem run_grows_peersLog :
    ∃ reported reported' : List (List Char), reported.Sublist reported' ∧
      run (glibcPointer.log (peersLog.take 2)) = .ok (reported.flatMap fun addr =>
        heading addr :: (linesOf (split (glibcPointer.log (peersLog.take 2))) addr).map rendered ++
          [dashes]) ∧
      ["address: [0x10]".toList, "TID: 0x1 OP: load\n".toList, "TID: 0x2 OP: load\n".toList,
          dashes] = reported'.flatMap fun addr =>
        heading addr :: ((linesOf (split (glibcPointer.log (peersLog.take 2))) addr).map rendered ++
          (linesOf (split (glibcPointer.log (peersLog.drop 2))) addr).map rendered) ++ [dashes] :=
  run_grows (by decide) (by decide +kernel)

end Atom

end AtomicityViolation
