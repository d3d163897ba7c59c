import Mathlib.Data.Int.Notation
import Mathlib.Data.List.Nodup
import Mathlib.Data.Nat.Init
import Mathlib.Order.Basic
import AtomicityViolation.Op
import AtomicityViolation.Ir.Syntax

/-!
# The records of the log

`_probe_` and `_probe_lock_` of `lib/inttrace.c` print the same line: the thread, the line number,
the name they were given as `file`, the address and the operation, with commas between them
(`PointerFormat.line`). What `%p` prints is left to a `PointerFormat`, and `glibcPointer` is the one
of glibc. The name is the text that `%s` prints.
-/

namespace AtomicityViolation

/-- What a probe records. Threads are recorded by the value of `pthread_self()`, which is printed as
a pointer. -/
structure Record (P : Type*) where
  tid : P
  line : Line
  file : List Char
  addr : P
  op : Op
  deriving DecidableEq

/-- The text has no comma and no line break. -/
def Clean (s : List Char) : Prop := ',' ∉ s ∧ '\n' ∉ s ∧ '\r' ∉ s

instance (s : List Char) : Decidable (Clean s) := inferInstanceAs (Decidable (_ ∧ _))

/-- What `%p` prints: distinct pointers as distinct texts without comma or line break. -/
structure PointerFormat (P : Type*) where
  /-- The text of a pointer. -/
  text : P → List Char
  /-- Distinct pointers have distinct texts. -/
  injective : Function.Injective text
  /-- The text has no comma and no line break. -/
  clean : ∀ p, Clean (text p)

/-- What `%d` prints. -/
def decimal (i : ℤ) : List Char :=
  if i < 0 then '-' :: Nat.toDigits 10 i.natAbs else Nat.toDigits 10 i.natAbs

namespace PointerFormat

variable {P : Type*} (fmt : PointerFormat P)

/-- The fields of a line. The line number is passed as an `int`. -/
def fields (r : Record P) : List (List Char) :=
  [fmt.text r.tid, decimal r.line.toInt, r.file, fmt.text r.addr, r.op.text.toList]

/-- The line that a probe prints: `"%p,%d,%s,%p,%s\n"`. -/
def line (r : Record P) : List Char :=
  fmt.text r.tid ++ ',' :: (decimal r.line.toInt ++ ',' :: (r.file ++ ',' ::
    (fmt.text r.addr ++ ',' :: (r.op.text.toList ++ ['\n']))))

/-- The log after the records were written one after another. -/
def log (rs : List (Record P)) : List Char := rs.flatMap fmt.line

end PointerFormat

/-! ## The fields are clean -/

/-- Clean texts, one after the other. -/
theorem Clean.append {s t : List Char} (hs : Clean s) (ht : Clean t) : Clean (s ++ t) := by
  simp only [Clean, List.mem_append, not_or] at *
  exact ⟨⟨hs.1, ht.1⟩, ⟨hs.2.1, ht.2.1⟩, hs.2.2, ht.2.2⟩

/-- The digits of a number in a base up to 16 are clean. -/
theorem clean_toDigits {b : ℕ} (hb : 1 < b) (hb' : b ≤ 16) (n : ℕ) : Clean (Nat.toDigits b n) := by
  have hdigit : ∀ d < 16, Clean [Nat.digitChar d] := by decide
  induction n using Nat.strong_induction_on with
  | _ n ih =>
    rw [Nat.toDigits_eq_if hb]
    split_ifs with hn
    · exact hdigit n (by omega)
    · have hmod := Nat.mod_lt n (by omega : 0 < b)
      exact (ih _ (Nat.div_lt_self (by omega) hb)).append (hdigit _ (by omega))

/-- What `%d` prints is clean. -/
theorem clean_decimal (i : ℤ) : Clean (decimal i) := by
  have hdigits := clean_toDigits (by decide : 1 < 10) (by decide) i.natAbs
  unfold decimal
  split_ifs
  · exact Clean.append (by decide : Clean ['-']) hdigits
  · exact hdigits

/-- The operations are clean. -/
theorem Op.clean_text (op : Op) : Clean op.text.toList := by
  cases op <;> decide

/-! ## The fields tell what was printed -/

/-- What `%d` prints tells the number. -/
theorem decimal_injective : Function.Injective decimal := by
  have hnat : ∀ {m n : ℕ}, Nat.toDigits 10 m = Nat.toDigits 10 n → m = n := fun {m n} h => by
    rw [← Nat.ofDigitChars_ten_toDigits (n := m), h, Nat.ofDigitChars_ten_toDigits]
  -- No digit is a minus sign.
  have hsign : ∀ {n : ℕ} {cs : List Char}, '-' :: cs ≠ Nat.toDigits 10 n := fun {n cs} h => by
    have hdigit := Nat.isDigit_of_mem_toDigits (by decide) (by decide)
      (h ▸ List.mem_cons_self : '-' ∈ Nat.toDigits 10 n)
    exact absurd hdigit (by decide)
  intro i j h
  unfold decimal at h
  split_ifs at h with hi hj hj
  · have hnatAbs := hnat (List.cons.inj h).2
    omega
  · exact absurd h hsign
  · exact absurd h.symm hsign
  · have hnatAbs := hnat h
    omega

/-- Distinct operations have distinct texts. -/
theorem Op.text_injective : Function.Injective Op.text := by
  let ops : List Op := [.store, .load, .lock, .unlock, .invokeReadLock, .invokeReadUnlock,
    .invokeWriteLock, .invokeWriteUnlock, .callReadLock, .callReadUnlock, .callWriteLock,
    .callWriteUnlock, .callAtomicLoad, .callAtomicStore, .readLock, .readUnlock, .writeLock,
    .writeUnlock]
  have hnodup : (ops.map Op.text).Nodup := by decide
  have hops : ∀ op, op ∈ ops := by rintro ⟨⟩ <;> decide
  exact fun a b h => List.inj_on_of_nodup_map hnodup (hops a) (hops b) h

/-! ## `%p` of glibc -/

/-- Numbers with the same hexadecimal digits are the same. -/
theorem toDigits_injective : Function.Injective (Nat.toDigits 16) := by
  have hdigit : ∀ d < 16, ∀ e < 16, Nat.digitChar d = Nat.digitChar e → d = e := by decide
  intro m
  induction m using Nat.strong_induction_on with
  | _ m ih =>
    intro n h
    rw [Nat.toDigits_eq_if (b := 16) (n := m) (by decide),
      Nat.toDigits_eq_if (b := 16) (n := n) (by decide)] at h
    split_ifs at h with hm hn hn
    · exact hdigit m hm n hn (List.singleton_inj.mp h)
    · have := congrArg List.length h
      simp only [List.length_append, List.length_singleton] at this
      have hpos : 0 < (Nat.toDigits 16 (n / 16)).length := Nat.length_toDigits_pos
      omega
    · have := congrArg List.length h
      simp only [List.length_append, List.length_singleton] at this
      have hpos : 0 < (Nat.toDigits 16 (m / 16)).length := Nat.length_toDigits_pos
      omega
    · obtain ⟨hhigh, hlow⟩ := List.append_inj' h rfl
      have hdiv := ih _ (Nat.div_lt_self (by omega) (by decide)) hhigh
      have hmod := hdigit _ (Nat.mod_lt _ (by decide)) _ (Nat.mod_lt _ (by decide))
        (List.singleton_inj.mp hlow)
      omega

/-- What glibc prints for a pointer. -/
def pointerText (n : ℕ) : List Char :=
  if n = 0 then "(nil)".toList else '0' :: 'x' :: Nat.toDigits 16 n

/-- The pointers of glibc. -/
def glibcPointer : PointerFormat ℕ where
  text := pointerText
  injective m n h := by
    unfold pointerText at h
    split_ifs at h with hm hn hn
    · rw [hm, hn]
    · simp at h
    · simp at h
    · simp only [List.cons.injEq, true_and] at h
      exact toDigits_injective h
  clean n := by
    unfold pointerText
    split_ifs
    · decide
    · exact Clean.append (by decide : Clean ['0', 'x'])
        (clean_toDigits (by decide) (by decide) n)

end AtomicityViolation
