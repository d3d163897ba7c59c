import Mathlib.Data.List.Basic
import Mathlib.Data.List.Infix

/-!
# Reading the lines of a text

The lines that a file opened in text mode yields: a carriage return, alone or before a line feed, is
read as a line feed (`universalNewlines`), and a line reaches up to and including the next line feed
or the end of the text (`readLines`). A text of lines that are each ended by a line feed is read
back as these lines (`readLines_flatMap`).
-/

namespace Lines

/-- Every line end is read as a line feed. -/
def universalNewlines : List Char → List Char
  | [] => []
  | '\r' :: '\n' :: cs => '\n' :: universalNewlines cs
  | '\r' :: cs => '\n' :: universalNewlines cs
  | c :: cs => c :: universalNewlines cs

/-- The lines of a text, each with the line feed that ends it. -/
def readLines : List Char → List (List Char)
  | [] => []
  | c :: cs =>
    if c = '\n' then ['\n'] :: readLines cs
    else
      match readLines cs with
      | [] => [[c]]
      | l :: ls => (c :: l) :: ls

/-- A character other than a carriage return is kept. -/
theorem universalNewlines_cons {c : Char} (h : c ≠ '\r') (cs : List Char) :
    universalNewlines (c :: cs) = c :: universalNewlines cs :=
  universalNewlines.eq_4 c cs (fun _ hc => absurd hc h) h

/-- A text without carriage returns is read as it is, whatever stands behind it. -/
theorem universalNewlines_append_of_notMem {s : List Char} (h : '\r' ∉ s) (t : List Char) :
    universalNewlines (s ++ t) = s ++ universalNewlines t := by
  induction s with
  | nil => rfl
  | cons c cs ih =>
    obtain ⟨hc, hcs⟩ := List.ne_and_not_mem_of_not_mem_cons h
    rw [List.cons_append, universalNewlines_cons (Ne.symm hc), ih hcs, List.cons_append]

/-- A text without carriage returns is read as it is. -/
theorem universalNewlines_eq_self {s : List Char} (h : '\r' ∉ s) : universalNewlines s = s := by
  simpa [universalNewlines] using universalNewlines_append_of_notMem h []

/-- A carriage return and what stands behind it. -/
theorem universalNewlines_cr {cs : List Char} (h : cs.head? ≠ some '\n') :
    universalNewlines ('\r' :: cs) = '\n' :: universalNewlines cs := by
  cases cs with
  | nil => rfl
  | cons c cs => exact universalNewlines.eq_3 _ fun _ hc => h (by simp [(List.cons.inj hc).1])

/-- Line ends are read on each side of a place that is not in front of a line feed. -/
theorem universalNewlines_append (s : List Char) {t : List Char} (h : t.head? ≠ some '\n') :
    universalNewlines (s ++ t) = universalNewlines s ++ universalNewlines t := by
  fun_induction universalNewlines s with
  | case1 => rfl
  | case2 cs ih => rw [List.cons_append, List.cons_append, universalNewlines, ih]; rfl
  | case3 cs hcs ih =>
    -- What stands behind the carriage return is no line feed, in `s` or in `t`.
    have hhead : (cs ++ t).head? ≠ some '\n' := by
      cases cs with
      | nil => exact h
      | cons c cs => exact fun hc => hcs cs (by rw [Option.some.inj hc])
    rw [List.cons_append, universalNewlines_cr hhead, ih]
    rfl
  | case4 c cs _ hc ih =>
    rw [List.cons_append, universalNewlines_cons hc, ih]
    rfl

/-- Line ends are read on each side of a place that is not behind a carriage return. -/
theorem universalNewlines_append_of_getLast {s : List Char} (h : s.getLast? ≠ some '\r')
    (t : List Char) : universalNewlines (s ++ t) = universalNewlines s ++ universalNewlines t := by
  fun_induction universalNewlines s with
  | case1 => rfl
  | case2 cs ih =>
    have hcs : cs.getLast? ≠ some '\r' := by
      cases cs with
      | nil => simp
      | cons c cs => simpa using h
    rw [List.cons_append, List.cons_append, universalNewlines, ih hcs]
    rfl
  | case3 cs hcs ih =>
    -- The carriage return is not the last character, and what stands behind it is no line feed.
    cases cs with
    | nil => simp at h
    | cons c cs =>
      have hhead : (c :: cs ++ t).head? ≠ some '\n' := fun hc => hcs cs (by
        rw [List.cons_append, List.head?_cons] at hc
        rw [Option.some.inj hc])
      rw [List.cons_append, universalNewlines_cr hhead, ih (by simpa using h)]
      rfl
  | case4 c cs _ hc ih =>
    have hcs : cs.getLast? ≠ some '\r' := by
      cases cs with
      | nil => simp
      | cons c cs => simpa using h
    rw [List.cons_append, universalNewlines_cons hc, ih hcs]
    rfl

/-- A text without line feed after the line ends were read had no line end. -/
theorem notMem_universalNewlines {s : List Char} :
    '\n' ∉ universalNewlines s ↔ '\n' ∉ s ∧ '\r' ∉ s := by
  fun_induction universalNewlines s with
  | case1 => simp
  | case2 cs ih => simp
  | case3 cs _ ih => simp
  | case4 c cs _ hc ih =>
    simp only [List.mem_cons, not_or, ih]
    have hne : '\r' ≠ c := fun h => hc h.symm
    tauto

/-- A line, and the rest of the text. -/
theorem readLines_append {s : List Char} (h : '\n' ∉ s) (t : List Char) :
    readLines (s ++ '\n' :: t) = (s ++ ['\n']) :: readLines t := by
  induction s with
  | nil => simp [readLines]
  | cons c cs ih =>
    obtain ⟨hc, hcs⟩ := List.ne_and_not_mem_of_not_mem_cons h
    rw [List.cons_append, readLines, if_neg (Ne.symm hc), ih hcs]
    rfl

/-- A text is of whole lines. -/
def Whole (s : List Char) : Prop := s = [] ∨ s.getLast? = some '\n'

instance (s : List Char) : Decidable (Whole s) :=
  inferInstanceAs (Decidable (s = [] ∨ s.getLast? = some '\n'))

/-- A text of whole lines without its first character. -/
theorem Whole.tail {c : Char} {cs : List Char} (h : Whole (c :: cs)) :
    (cs = [] → c = '\n') ∧ Whole cs := by
  rcases h with h | h
  · cases h
  · cases cs with
    | nil => exact ⟨fun _ => by simpa using h, .inl rfl⟩
    | cons c' cs => exact ⟨by simp, .inr (by simpa using h)⟩

/-- Whole lines are whole lines after the line ends were read. -/
theorem Whole.universalNewlines {s : List Char} (h : Whole s) : Whole (universalNewlines s) := by
  have hcons : ∀ {c : Char} {cs : List Char}, Whole cs → (cs = [] → c = '\n') →
      Whole (c :: cs) := by
    rintro c cs (rfl | hlast) hc
    · exact .inr (by rw [hc rfl]; rfl)
    · exact .inr (by rw [List.getLast?_cons, hlast, Option.getD_some])
  fun_induction Lines.universalNewlines s with
  | case1 => exact h
  | case2 cs ih => exact hcons (ih h.tail.2.tail.2) fun _ => rfl
  | case3 cs hcs ih => exact hcons (ih h.tail.2) fun _ => rfl
  | case4 c cs hcs hc ih =>
    -- Only the empty text is read as the empty text.
    refine hcons (ih h.tail.2) fun hnil => h.tail.1 ?_
    unfold Lines.universalNewlines at hnil
    split at hnil
    next => rfl
    all_goals cases hnil

/-- A text has a line unless it is empty. -/
theorem readLines_ne_nil {s : List Char} (h : s ≠ []) : readLines s ≠ [] := by
  cases s with
  | nil => exact absurd rfl h
  | cons c cs =>
    rw [readLines]
    split_ifs
    · simp
    · split <;> simp

/-- The lines of whole lines and of what stands behind them. -/
theorem readLines_append_of_whole {s : List Char} (h : Whole s) (t : List Char) :
    readLines (s ++ t) = readLines s ++ readLines t := by
  induction s with
  | nil => rfl
  | cons c cs ih =>
    obtain ⟨hnil, hcs⟩ := h.tail
    rw [List.cons_append, readLines, readLines, ih hcs]
    split_ifs with hc
    · rfl
    · obtain ⟨l, ls, hl⟩ := List.exists_cons_of_ne_nil (readLines_ne_nil fun he => hc (hnil he))
      rw [hl, List.cons_append]
      rfl

/-- There is a line for each line feed. -/
theorem count_le_length_readLines (s : List Char) : s.count '\n' ≤ (readLines s).length := by
  induction s with
  | nil => exact Nat.zero_le _
  | cons c cs ih =>
    rw [readLines]
    split_ifs with hc
    · simpa [hc] using ih
    · rw [List.count_cons_of_ne hc]
      split
      next hnil => exact Nat.le_trans ih (by simp [hnil])
      next l ls hcons => simpa [hcons] using ih

/-- A text without line feed is one line. -/
theorem readLines_of_notMem {s : List Char} (h : '\n' ∉ s) (hs : s ≠ []) : readLines s = [s] := by
  induction s with
  | nil => exact absurd rfl hs
  | cons c cs ih =>
    obtain ⟨hc, hcs⟩ := List.ne_and_not_mem_of_not_mem_cons h
    rw [readLines, if_neg (Ne.symm hc)]
    cases cs with
    | nil => rfl
    | cons c' cs => rw [ih hcs (List.cons_ne_nil _ _)]

/-- Lines that are each ended by a line feed are read back, and then the rest of the text. -/
theorem readLines_flatMap_append {ls : List (List Char)} (h : ∀ l ∈ ls, '\n' ∉ l) (t : List Char) :
    readLines ((ls.flatMap fun l => l ++ ['\n']) ++ t) =
      (ls.map fun l => l ++ ['\n']) ++ readLines t := by
  induction ls with
  | nil => rfl
  | cons l ls ih =>
    obtain ⟨hl, hls⟩ := List.forall_mem_cons.mp h
    rw [List.flatMap_cons, List.append_assoc, List.append_assoc, List.singleton_append,
      readLines_append hl, ih hls, List.map_cons, List.cons_append]

/-- Lines that are each ended by a line feed are read back. -/
theorem readLines_flatMap {ls : List (List Char)} (h : ∀ l ∈ ls, '\n' ∉ l) :
    readLines (ls.flatMap fun l => l ++ ['\n']) = ls.map fun l => l ++ ['\n'] := by
  simpa [readLines] using readLines_flatMap_append h []

/-- A prefix of pieces one behind the other is some of the pieces and a part of the next. -/
theorem prefix_flatMap {α β : Type*} (f : α → List β) {bs : List β} {xs : List α}
    (h : bs <+: xs.flatMap f) :
    ∃ ys zs tail, xs = ys ++ zs ∧ bs = ys.flatMap f ++ tail ∧
      (tail = [] ∨ ∃ x zs', zs = x :: zs' ∧ tail <+: f x ∧ tail ≠ f x) := by
  induction xs generalizing bs with
  | nil => exact ⟨[], [], [], rfl, List.prefix_nil.mp h, .inl rfl⟩
  | cons x xs ih =>
    rw [List.flatMap_cons] at h
    -- The prefix ends in the first piece, or has it whole.
    by_cases hwhole : f x <+: bs
    · obtain ⟨bs', rfl⟩ := hwhole
      obtain ⟨ys, zs, tail, rfl, rfl, hend⟩ := ih ((List.prefix_append_right_inj _).mp h)
      exact ⟨x :: ys, zs, tail, rfl, by simp, hend⟩
    · have hpart : bs <+: f x :=
        (List.prefix_or_prefix_of_prefix h (List.prefix_append _ _)).resolve_right hwhole
      have hne : bs ≠ f x := fun he => hwhole (he ▸ List.prefix_rfl)
      exact ⟨[], x :: xs, bs, rfl, rfl, .inr ⟨x, xs, rfl, hpart, hne⟩⟩

end Lines
