import Mathlib.Data.Set.Insert
import AtomicityViolation.Ir.Syntax
import AtomicityViolation.Library.Weave

/-!
# Rules of LLVM's verifier

`opt` verifies a module after the passes. Of the rules of the verifier these are the ones that a
pass can break that inserts instructions (`Verified`): an identity is given once, a block starts
with its PHIs and its landing pad and ends with its only terminator, a register is defined on every
path to where it is read, with the type with which it is read, and the operands have the types that
the instruction asks for. Instructions that are plain, read what the instruction beside them reads
or what stands before them among the insertions, and are put at the right side of it, break none of
them (`Verified.woven`).
-/

namespace AtomicityViolation

open Weave (Woven)

/-- A register with the type of what it holds. -/
abbrev Reg := ℕ × Ty

/-- What the rules take from the rest of the module. -/
structure Context where
  /-- The blocks that a terminator names, by its name and its operands. -/
  targets : String → List Value → List ℕ
  /-- The types of the parameters of a function. -/
  signature : String → Option (List Ty)

/-! ## Registers -/

/-- The registers a value reads, with the type of the value. -/
def Value.uses : Value → List Reg
  | .const _ _ => []
  | .reg id ty => [(id, ty)]

/-- The registers the called operand reads. -/
def Callee.uses : Callee → List Reg
  | .indirect target => target.uses
  | _ => []

/-- What an instruction reads where it stands. A PHI reads its values before. -/
def Opcode.uses : Opcode → List Reg
  | .store val ptr => val.uses ++ ptr.uses
  | .load ptr => ptr.uses
  | .call callee args => callee.uses ++ args.flatMap Value.uses
  | .invoke callee args _ _ => callee.uses ++ args.flatMap Value.uses
  | .bitcast val => val.uses
  | .structGep ptr => ptr.uses
  | .phi _ => []
  | .other _ operands => operands.flatMap Value.uses

/-- What a PHI reads at the end of the block from which the control comes. -/
def Opcode.incoming (prev : ℕ) : Opcode → List Reg
  | .phi incoming => (incoming.filter fun p => decide (p.1 = prev)).flatMap fun p => p.2.uses
  | _ => []

/-- The register that an instruction defines. -/
def Inst.result (I : Inst) : Reg := (I.id, I.ty)

/-- The result is defined in block `k`, when the control goes there. That of an invoke is defined
where it goes when the call returns. -/
def Inst.definesIn (k : ℕ) (I : Inst) : Bool :=
  match I.op with
  | .invoke _ _ normal _ => normal == k
  | _ => true

/-- The instructions can be executed when the registers in `ds` are defined, and those in `entry`
were when the control came from block `prev`. -/
def Supplied (entry : Set Reg) (prev : Option ℕ) : Set Reg → Block → Prop
  | _, [] => True
  | ds, I :: B => (∀ r ∈ I.op.uses, r ∈ ds) ∧
      (∀ p, prev = some p → ∀ r ∈ I.op.incoming p, r ∈ entry) ∧
      Supplied entry prev (insert I.result ds) B

/-! ## Blocks -/

/-- The terminators besides the invoke. -/
def terminators : List String :=
  ["ret", "br", "switch", "indirectbr", "resume", "unreachable", "callbr", "catchswitch",
    "catchret", "cleanupret"]

/-- The instruction ends a block. -/
def Inst.isTerminator (I : Inst) : Bool :=
  match I.op with
  | .invoke _ _ _ _ => true
  | .other name _ => terminators.contains name
  | _ => false

/-- The block has one terminator, its last instruction. -/
def Ended (B : Block) : Prop :=
  B.getLast?.any Inst.isTerminator = true ∧ ∀ I ∈ B.dropLast, I.isTerminator = false

instance (B : Block) : Decidable (Ended B) :=
  inferInstanceAs (Decidable (_ ∧ ∀ I ∈ B.dropLast, I.isTerminator = false))

/-- The blocks to which a terminator can go. -/
def Inst.successors (C : Context) (I : Inst) : List ℕ :=
  match I.op with
  | .invoke _ _ normal unwind => [normal, unwind]
  | .other name operands => C.targets name operands
  | _ => []

/-- Where in a block an instruction may stand: first PHIs, then a landing pad, then the others. -/
def Inst.rank (I : Inst) : ℕ :=
  match I.op with
  | .phi _ => 0
  | .other name _ => if name = "landingpad" then 1 else 2
  | _ => 2

/-- The first instruction may stand before the second one. -/
def Inst.MayPrecede (J I : Inst) : Prop := J.rank < I.rank ∨ J.rank = I.rank ∧ I.rank ≠ 1

instance (J I : Inst) : Decidable (J.MayPrecede I) :=
  inferInstanceAs (Decidable (J.rank < I.rank ∨ J.rank = I.rank ∧ I.rank ≠ 1))

/-- A path from the entry block leads from block `prev` to block `k`, and the registers in `ds` are
defined on it. -/
inductive Available (C : Context) (args : List Reg) (blocks : List Block) :
    Option ℕ → ℕ → Set Reg → Prop
  | entry : Available C args blocks none 0 {r | r ∈ args}
  | edge {prev : Option ℕ} {k t : ℕ} {ds : Set Reg} {B : Block} {T : Inst} :
      Available C args blocks prev k ds → blocks[k]? = some B → B.getLast? = some T →
      t ∈ T.successors C →
      Available C args blocks (some k) t (ds ∪ {r | ∃ I ∈ B, I.definesIn t = true ∧ I.result = r})

/-! ## Types -/

/-- The type is that of a pointer. -/
def Ty.isPtr : Ty → Bool
  | .ptr _ => true
  | _ => false

/-- The operands have the types that the instruction asks for. -/
def Inst.typed (C : Context) (I : Inst) : Bool :=
  match I.op with
  | .store val ptr => decide (ptr.ty = .ptr val.ty)
  | .load ptr => decide (ptr.ty = .ptr I.ty)
  | .bitcast val => val.ty.isPtr == I.ty.isPtr
  | .structGep ptr =>
    match ptr.ty with
    | .ptr (.struct first _) => decide (I.ty = .ptr first)
    | _ => false
  | .call (.direct f) args | .invoke (.direct f) args _ _ =>
    (C.signature f).all fun tys => decide (args.map Value.ty = tys)
  | _ => true

/-! ## The rules -/

/-- The rules for a function with these arguments. -/
structure Verified (C : Context) (args : List Reg) (blocks : List Block) : Prop where
  /-- An identity is given once. -/
  distinct : (args.map Prod.fst ++ blocks.flatten.map Inst.id).Nodup
  /-- The entry block has no PHI and no landing pad. -/
  entry : ∀ B, blocks[0]? = some B → ∀ I ∈ B, I.rank = 2
  /-- PHIs stand first, then a landing pad. -/
  headed : ∀ B ∈ blocks, B.Pairwise Inst.MayPrecede
  /-- A terminator stands last, and nowhere else. -/
  ended : ∀ B ∈ blocks, Ended B
  /-- What is read is defined on every path. -/
  supplied : ∀ prev k ds B, Available C args blocks prev k ds → blocks[k]? = some B →
    Supplied ds prev ds B
  /-- The operands have the right types. -/
  typed : ∀ B ∈ blocks, ∀ I ∈ B, I.typed C = true

/-! ## Instructions that are supplied -/

variable {entry entry' ds ds' : Set Reg} {prev : Option ℕ} {B B' : Block}

/-- The registers that instructions define. -/
def results (B : Block) : Set Reg := {r | ∃ I ∈ B, I.result = r}

/-- More registers may be defined. -/
theorem Supplied.mono (h : Supplied entry prev ds B) (hentry : entry ⊆ entry') (hds : ds ⊆ ds') :
    Supplied entry' prev ds' B := by
  induction B generalizing ds ds' with
  | nil => trivial
  | cons I B ih =>
    obtain ⟨huses, hincoming, hrest⟩ := h
    exact ⟨fun r hr => hds (huses r hr), fun p hp r hr => hentry (hincoming p hp r hr),
      ih hrest (Set.insert_subset_insert hds)⟩

/-- Instructions are supplied behind others when they are with the results of these. -/
theorem supplied_append_iff (B B' : Block) :
    Supplied entry prev ds (B ++ B') ↔
      Supplied entry prev ds B ∧ Supplied entry prev (ds ∪ results B) B' := by
  induction B generalizing ds with
  | nil => simp [Supplied, results]
  | cons I B ih =>
    have hresults : insert I.result ds ∪ results B = ds ∪ results (I :: B) := by
      ext r
      simp only [results, Set.mem_union, Set.mem_insert_iff, Set.mem_ofPred_eq, List.mem_cons,
        exists_eq_or_imp]
      tauto
    rw [List.cons_append, Supplied, Supplied, ih, hresults]
    tauto

/-- The arguments are defined on every path. -/
theorem Available.args_subset {C : Context} {args : List Reg} {blocks : List Block} {k : ℕ}
    (h : Available C args blocks prev k ds) : {r | r ∈ args} ⊆ ds := by
  induction h with
  | entry => exact subset_rfl
  | edge _ _ _ _ ih => exact fun r hr => .inl (ih hr)

/-! ## Insertions -/

/-- The instruction is none of those that stand first or last in a block. -/
def Inst.Plain (I : Inst) : Prop := I.rank = 2 ∧ I.isTerminator = false

/-- The runs may be put around an instruction. -/
structure Insertable (C : Context) (I : Inst) (pre post : List Inst) : Prop where
  /-- Nothing stands beside what stands first in a block. -/
  head : I.rank ≠ 2 → pre = [] ∧ post = []
  /-- Nothing stands behind what stands last. -/
  last : I.isTerminator = true → post = []
  /-- The insertions stand neither first nor last. -/
  plain : ∀ J ∈ pre ++ post, J.Plain
  /-- They have what they read when the instruction has what it reads. -/
  supplied : ∀ entry prev ds, (∀ r ∈ I.op.uses, r ∈ ds) →
    Supplied entry prev ds pre ∧ Supplied entry prev ds post
  /-- Their operands have the right types. -/
  typed : ∀ J ∈ pre ++ post, J.typed C = true

/-- Nothing may be put anywhere. -/
theorem Insertable.nil (C : Context) (I : Inst) : Insertable C I [] [] where
  head _ := ⟨rfl, rfl⟩
  last _ := rfl
  plain := by simp
  supplied _ _ _ _ := ⟨trivial, trivial⟩
  typed := by simp

variable {C : Context} {args : List Reg} {blocks blocks' : List Block}

/-- An instruction may stand at one of the three places. -/
theorem Inst.rank_le (I : Inst) : I.rank ≤ 2 := by
  unfold Inst.rank
  split
  · decide
  · split_ifs <;> decide
  · exact le_rfl

/-- The order of a block is kept. -/
theorem headed_woven (h : Woven (Insertable C) B B') (hB : B.Pairwise Inst.MayPrecede) :
    B'.Pairwise Inst.MayPrecede := by
  have hall : ∀ L : List Inst, (∀ I ∈ L, I.rank = 2) → L.Pairwise Inst.MayPrecede := fun L hL =>
    List.pairwise_of_forall_mem_list fun J hJ I hI =>
      .inr ⟨(hL J hJ).trans (hL I hI).symm, by rw [hL I hI]; decide⟩
  induction h with
  | nil => exact .nil
  | @cons x pre post xs ys hx hrest ih =>
    obtain ⟨hfirst, hxs⟩ := List.pairwise_cons.mp hB
    by_cases hrank : x.rank = 2
    · -- Behind an instruction that is not at the head there is none that is.
      refine hall _ ?_
      have hxs2 : ∀ I ∈ xs, I.rank = 2 := fun I hI => by
        have hle := I.rank_le
        rcases hfirst I hI with hlt | ⟨heq, -⟩ <;> omega
      have hys : ∀ I ∈ ys, I.rank = 2 := hrest.forall_mem hxs2 fun y _ pre post hy J hJ =>
        (hy.plain J hJ).1
      have hins := List.forall_mem_append.mp hx.plain
      simp only [List.forall_mem_append, List.forall_mem_cons]
      exact ⟨fun J hJ => (hins.1 J hJ).1, hrank, fun J hJ => (hins.2 J hJ).1, hys⟩
    · obtain ⟨rfl, rfl⟩ := hx.head hrank
      refine List.pairwise_cons.mpr ⟨?_, ih hxs⟩
      refine hrest.forall_mem hfirst fun y _ pre post hy J hJ => .inl ?_
      have hle := x.rank_le
      have hJ2 := (hy.plain J hJ).1
      omega

/-- A block keeps its terminator. -/
theorem Ended.woven (hB : Ended B) (h : Woven (Insertable C) B B') :
    B'.getLast? = B.getLast? ∧ Ended B' := by
  obtain ⟨hlast, hbody⟩ := hB
  obtain ⟨T, hT, hterm⟩ := (Option.any_eq_true ..).mp hlast
  obtain ⟨body, rfl⟩ := List.getLast?_eq_some_iff.mp hT
  rw [List.dropLast_concat] at hbody
  obtain ⟨us, vs, rfl, hus, hvs⟩ := h.append_inv
  have hus' : ∀ I ∈ us, I.isTerminator = false := hus.forall_mem hbody fun y _ pre post hy J hJ =>
    (hy.plain J hJ).2
  cases hvs with
  | @cons _ pre post _ ys hx hrest =>
    cases hrest
    obtain rfl : post = [] := hx.last hterm
    have hend : us ++ (pre ++ T :: ([] ++ [])) = (us ++ pre) ++ [T] := by simp
    rw [hend, Ended, List.getLast?_concat, List.getLast?_concat, List.dropLast_concat]
    refine ⟨rfl, by simpa using hterm, List.forall_mem_append.mpr ⟨hus', fun J hJ => ?_⟩⟩
    exact (hx.plain J (List.mem_append_left _ hJ)).2

/-- Instructions stay supplied. -/
theorem supplied_woven (h : Woven (Insertable C) B B') (hB : Supplied entry prev ds B)
    (hentry : entry ⊆ entry') (hds : ds ⊆ ds') : Supplied entry' prev ds' B' := by
  induction h generalizing ds ds' with
  | nil => trivial
  | @cons x pre post xs ys hx _ ih =>
    obtain ⟨huses, hincoming, hrest⟩ := hB
    have huses' : ∀ r ∈ x.op.uses, r ∈ ds' := fun r hr => hds (huses r hr)
    obtain ⟨hpre, hpost⟩ := hx.supplied entry' prev ds' huses'
    -- What was defined stays so behind each of the insertions.
    refine (supplied_append_iff _ _).mpr ⟨hpre, fun r hr => .inl (huses' r hr),
      fun p hp r hr => hentry (hincoming p hp r hr), (supplied_append_iff _ _).mpr ⟨?_, ?_⟩⟩
    · exact hpost.mono subset_rfl fun r hr => .inr (.inl hr)
    · refine ih hrest ?_
      rintro r (rfl | hr)
      · exact .inl (.inl rfl)
      · exact .inl (.inr (.inl (hds hr)))

/-- A path through the new blocks leads through the old ones, and less is defined on it. -/
theorem Available.of_woven (h : List.Forall₂ (Woven (Insertable C)) blocks blocks')
    (hended : ∀ B ∈ blocks, Ended B) {k : ℕ}
    (hds : Available C args blocks' prev k ds') :
    ∃ ds ⊆ ds', Available C args blocks prev k ds := by
  induction hds with
  | entry => exact ⟨_, subset_rfl, .entry⟩
  | @edge prev k t ds' B' T' _ hB' hT' ht ih =>
    obtain ⟨ds, hsub, hds⟩ := ih
    obtain ⟨hlen, hget⟩ := List.forall₂_iff_get.mp h
    obtain ⟨hk, rfl⟩ := List.getElem?_eq_some_iff.mp hB'
    have hB : blocks[k]? = some blocks[k] := List.getElem?_eq_getElem (hlen ▸ hk)
    have hwoven : Woven (Insertable C) blocks[k] blocks'[k] := hget k (hlen ▸ hk) hk
    have hlast := ((hended _ (List.mem_of_getElem? hB)).woven hwoven).1
    refine ⟨_, ?_, hds.edge hB (hlast ▸ hT') ht⟩
    refine Set.union_subset_union hsub ?_
    rintro r ⟨I, hI, hdefines, rfl⟩
    exact ⟨I, hwoven.subset hI, hdefines, rfl⟩

/-- What a pass that inserts leaves is accepted if the function was, when the insertions may stand
where they are put and have identities of their own. -/
theorem Verified.woven (hverified : Verified C args blocks)
    (h : List.Forall₂ (Woven (Insertable C)) blocks blocks')
    (hdistinct : (args.map Prod.fst ++ blocks'.flatten.map Inst.id).Nodup) :
    Verified C args blocks' where
  distinct := hdistinct
  entry B' hB' := by
    obtain ⟨hlen, hget⟩ := List.forall₂_iff_get.mp h
    obtain ⟨hk, rfl⟩ := List.getElem?_eq_some_iff.mp hB'
    have hB : blocks[0]? = some blocks[0] := List.getElem?_eq_getElem (hlen ▸ hk)
    exact (hget 0 (hlen ▸ hk) hk).forall_mem (hverified.entry _ hB) fun _ _ _ _ hy J hJ =>
      (hy.plain J hJ).1
  headed := Weave.forall_of_forall₂ h (fun _ _ hwoven hB => headed_woven hwoven hB) hverified.headed
  ended := Weave.forall_of_forall₂ h (fun _ _ hwoven hB => (hB.woven hwoven).2) hverified.ended
  supplied prev k ds' B' hds' hB' := by
    obtain ⟨ds, hsub, hds⟩ := hds'.of_woven h hverified.ended
    obtain ⟨hlen, hget⟩ := List.forall₂_iff_get.mp h
    obtain ⟨hk, rfl⟩ := List.getElem?_eq_some_iff.mp hB'
    have hB : blocks[k]? = some blocks[k] := List.getElem?_eq_getElem (hlen ▸ hk)
    exact supplied_woven (hget k (hlen ▸ hk) hk) (hverified.supplied _ _ _ _ hds hB) hsub hsub
  typed := Weave.forall_of_forall₂ h (fun _ _ hwoven hB => hwoven.forall_mem hB
    fun _ _ _ _ hy => hy.typed) hverified.typed

end AtomicityViolation
