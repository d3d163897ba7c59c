import AtomicityViolation.Library.Simulation
import AtomicityViolation.Ir.Semantics
import AtomicityViolation.Pass.Coverage

/-!
# The walk preserves the program

Erasing what the walk inserted gives back the body (`Source.erase_blocks`). The insertions compute
addresses, load guards and call probes, all in registers that the original instructions do not read,
so a run of the instrumented body is a run of the original one with silent steps put in
(`Source.simulates_erased`). In the other direction the insertions have to be executable, which they
are when the guards at the unlock sites are in valid memory (`Source.simulates_woven`).
-/

namespace AtomicityViolation

open Weave (Woven)
open Cursor (reached unreached)
open Transition (Run Simulates)

/-- The instruction was there before identities from `n` on were given out. -/
def Inst.old (n : ℕ) (I : Inst) : Bool := decide (I.id < n)

/-- The kinds of instructions that the walk inserts. -/
inductive Inst.Inserted (I : Inst) : Prop
  | load {ptr : Value} : I.op = .load ptr → I.Inserted
  | bitcast {val : Value} : I.op = .bitcast val → I.Inserted
  | structGep {ptr : Value} : I.op = .structGep ptr → I.Inserted
  | probe {f : String} {args : List Value} : isProbe f = true → I.op = .call (.direct f) args →
      I.Inserted

/-! ## Erasing the insertions -/

/-- A cast consists of bitcasts. -/
theorem CastOf.inserted {v addr : Value} {cast : List Inst} (h : CastOf v cast addr) :
    ∀ J ∈ cast, J.Inserted := by
  intro J hJ
  obtain ⟨w, hop⟩ := h.bitcast J hJ
  exact .bitcast hop

/-- The computation of a lock's address consists of loads and of field addresses. -/
theorem RouteOf.inserted {args : List Value} {r : Route} {insts : List Inst} {lock : Value}
    (h : RouteOf args r insts lock) : ∀ J ∈ insts, J.Inserted := by
  cases h with
  | argument => simp
  | guardValue _ hop => simpa using .load hop
  | @guardField var lockPtr J K gep _ hJ _ hgep hK _ =>
    have hgep' : ∀ G ∈ gep, G.Inserted := by
      cases hgep with
      | folded => simp
      | inst _ hop => simpa using .structGep hop
    simp only [List.forall_mem_cons, List.forall_mem_append, List.not_mem_nil, false_implies,
      implies_true, and_true]
    exact ⟨.load hJ, hgep', .load hK⟩

/-- What is put around an instruction is of those kinds. -/
theorem Shape.inserted {src : Source} {file : String} {I : Inst} {pre post : List Inst}
    (h : Shape src file I pre post) : ∀ J ∈ pre ++ post, J.Inserted := by
  cases h with
  | store _ hcast hprobe | load _ hcast hprobe =>
    simp only [List.append_nil, List.nil_append, List.forall_mem_append, List.forall_mem_singleton]
    exact ⟨hcast.inserted, .probe (by decide) hprobe⟩
  | lock _ hroute hcast hprobe =>
    simp only [List.append_nil, List.forall_mem_append, List.forall_mem_singleton]
    exact ⟨hroute.inserted, hcast.inserted, .probe (by decide) hprobe⟩
  | other => simp

/-- What stands around an instruction of an instrumented body: what the walk puts there, or nothing,
where it does not come to. -/
def Around (src : Source) (file : String) (n : ℕ) (I : Inst) (pre post : List Inst) : Prop :=
  Laid src file n I pre post ∨ pre = [] ∧ post = []

variable {src : Source} {file : String} {n : ℕ}

/-- A block that was swept is woven. -/
theorem SweptTo.woven {B B' : Block}
    (h : Cursor.SweptTo src.leaves (Laid src file n) B B') : Woven (Around src file n) B B' := by
  obtain ⟨zs, rfl, hwoven⟩ := h
  have hreached : Woven (Around src file n) (reached src.leaves B) zs :=
    hwoven.mono fun _ _ _ _ hlaid => .inl hlaid
  have hrest : Woven (Around src file n) (unreached src.leaves B) (unreached src.leaves B) :=
    Woven.refl fun _ _ => .inr ⟨rfl, rfl⟩
  have hjoin := hreached.append hrest
  rwa [Cursor.reached_append_unreached] at hjoin

/-- What stands around an instruction is new and of the kinds that the walk inserts. -/
theorem Around.new {I : Inst} {pre post : List Inst} (h : Around src file n I pre post) :
    ∀ J ∈ pre ++ post, n ≤ J.id ∧ J.Inserted := by
  rcases h with ⟨hshape, hnew⟩ | ⟨rfl, rfl⟩
  · exact fun J hJ => ⟨hnew J hJ, hshape.inserted J hJ⟩
  · simp

/-- The old instructions of a woven block are the block. -/
theorem woven_filter_old {B B' : Block} (h : Woven (Around src file n) B B')
    (hB : ∀ I ∈ B, I.Below n) : B'.filter (Inst.old n) = B := by
  refine h.filter_eq (fun I hI => ?_) fun I _ pre post haround J hJ => ?_
  · simpa [Inst.old] using (hB I hI).1
  · have hid := (haround.new J hJ).1
    simpa [Inst.old] using hid

/-- The blocks after the walk are the original ones with insertions. -/
theorem Source.Walks.woven {blocks : List Block} {out : ℕ × List Block}
    (h : src.Walks file n blocks out) : List.Forall₂ (Woven (Around src file n)) blocks out.2 :=
  h.sweptTo.imp fun _ _ => SweptTo.woven

/-- Erasing what the walk inserted gives back the body. -/
theorem Source.erase_blocks {F : Body} {out : ℕ × List Block}
    (h : src.Walks file F.next F.blocks out) :
    out.2.map (List.filter (Inst.old F.next)) = F.blocks := by
  have hboth := (List.forall₂_and_left _ _).mpr ⟨F.below, h.woven⟩
  rw [← List.forall₂_eq_eq_eq, List.forall₂_map_left_iff]
  exact hboth.flip.imp fun B' B hB => woven_filter_old hB.2 hB.1

/-! ## Runs of the instrumented body are runs of the original -/

variable {V M : Type*} {m : Machine V M} {blocks blocks' : List Block}

/-- The element of one list at the position of an element of a list that it is related to. -/
theorem exists_getElem_left {α β : Type*} {R : α → β → Prop} {as : List α} {bs : List β}
    (h : List.Forall₂ R as bs) {i : ℕ} {b : β} (hb : bs[i]? = some b) :
    ∃ a, as[i]? = some a ∧ R a b := by
  obtain ⟨hi, rfl⟩ := List.getElem?_eq_some_iff.mp hb
  have hi' : i < as.length := h.length_eq ▸ hi
  exact ⟨as[i], List.getElem?_eq_getElem hi', h.get hi' hi⟩

/-- The same from the other list. -/
theorem exists_getElem_right {α β : Type*} {R : α → β → Prop} {as : List α} {bs : List β}
    (h : List.Forall₂ R as bs) {i : ℕ} {a : α} (ha : as[i]? = some a) :
    ∃ b, bs[i]? = some b ∧ R a b :=
  exists_getElem_left h.flip ha

/-- A state of the original body and one of the instrumented body at the same place: the memories
are the same, the registers of the original agree, and the code differs by insertions. -/
inductive Matches (n : ℕ) : State V M → State V M → Prop
  | running {cur : ℕ} {code code' : Block} {σ τ : Frame V M} : σ.Agree n τ →
      code'.filter (Inst.old n) = code → Matches n (.running cur code σ) (.running cur code' τ)
  | done (v : Option V) (mem : M) : Matches n (.done v mem) (.done v mem)

/-- The instructions of an instrumented body: old ones, and inserted ones that are new. -/
def Inst.Clean (n : ℕ) (J : Inst) : Prop := J.Below n ∨ n ≤ J.id ∧ J.Inserted

/-- The code that remains consists of such instructions. -/
def State.Clean (n : ℕ) : State V M → Prop
  | .running _ code _ => ∀ J ∈ code, J.Clean n
  | .done _ _ => True

/-- What a step of the original body shows: the step of an old instruction. -/
def Event.visible (n : ℕ) (e : Event V M) : Bool := decide (e.id < n)

/-- The instructions of a woven block. -/
theorem woven_clean {B B' : Block} (h : Woven (Around src file n) B B')
    (hB : ∀ I ∈ B, I.Below n) : ∀ J ∈ B', J.Clean n :=
  h.forall_mem (fun I hI => .inl (hB I hI)) fun _ _ _ _ haround J hJ => .inr (haround.new J hJ)

/-- An inserted instruction leaves the memory as it is and goes on to the next one. -/
theorem Machine.Exec.of_inserted {σ : Frame V M} {J : Inst} {c : Option (Called V M)}
    {o : Outcome V M} (h : m.Exec σ J c o) (hJ : J.Inserted) : ∃ v, o = .next v σ.mem := by
  -- What is not a load, a bitcast or a field address is the call of a probe.
  have hother : ∀ op, J.op = op → (∀ ptr, op ≠ .load ptr) → (∀ v, op ≠ .bitcast v) →
      (∀ ptr, op ≠ .structGep ptr) → ∃ f args, isProbe f = true ∧ op = .call (.direct f) args := by
    rintro _ rfl h₁ h₂ h₃
    cases hJ with
    | load hop => exact absurd hop (h₁ _)
    | bitcast hop => exact absurd hop (h₂ _)
    | structGep hop => exact absurd hop (h₃ _)
    | probe hf hop => exact ⟨_, _, hf, hop⟩
  cases h with
  | load | bitcast | structGep => exact ⟨_, rfl⟩
  | store hop | phi hop | invokeReturned hop | invokeUnwound hop | other hop =>
    obtain ⟨f, args, -, hcall⟩ := hother _ hop (by simp) (by simp) (by simp)
    cases hcall
  | callReturned hop hres =>
    obtain ⟨f, args, hf, hcall⟩ := hother _ hop (by simp) (by simp) (by simp)
    cases hcall
    -- Probe calls return and leave the memory as it is.
    obtain ⟨v, hv⟩ := m.probe_silent _ _ _ _ hf hres
    cases hv
    exact ⟨_, rfl⟩
  | callUnwound hop hres =>
    obtain ⟨f, args, hf, hcall⟩ := hother _ hop (by simp) (by simp) (by simp)
    cases hcall
    obtain ⟨v, hv⟩ := m.probe_silent _ _ _ _ hf hres
    cases hv

/-- At an old instruction the original body stands at the same one, and at an inserted one it stands
before what follows. -/
theorem Matches.head {s : State V M} {cur : ℕ} {I : Inst} {code : Block} {τ : Frame V M}
    (h : Matches n s (.running cur (I :: code) τ)) (hI : I.Clean n) :
    ∃ σ : Frame V M, σ.Agree n τ ∧
      (I.Below n ∧ s = .running cur (I :: code.filter (Inst.old n)) σ ∨
        n ≤ I.id ∧ I.Inserted ∧ s = .running cur (code.filter (Inst.old n)) σ) := by
  cases h with
  | @running _ _ _ σ _ hagree hcode =>
    subst hcode
    refine ⟨σ, hagree, hI.imp (fun hold => ⟨hold, ?_⟩) fun hnew => ⟨hnew.1, hnew.2, ?_⟩⟩
    · have hkept : Inst.old n I = true := by simp [Inst.old, hold.1]
      rw [List.filter_cons_of_pos hkept]
    · have herased : ¬ Inst.old n I = true := by simpa [Inst.old] using hnew.1
      rw [List.filter_cons_of_neg herased]

/-- Every step of the instrumented body is a step of the original one or a silent step. -/
theorem simulates_erased
    (hblocks : List.Forall₂ (fun B B' => B'.filter (Inst.old n) = B ∧ ∀ J ∈ B', J.Clean n)
      blocks blocks') :
    Simulates (m.Step blocks') (m.Step blocks) (Option.guard (Event.visible n)) some
      fun t s => Matches n s t ∧ t.Clean n := by
  rintro t s e t' ⟨hmatch, hclean⟩ hstep
  cases hstep with
  | @next cur I code τ c v mem hexec =>
    obtain ⟨hI, hrest⟩ := List.forall_mem_cons.mp hclean
    obtain ⟨σ, hagree, ⟨hI, rfl⟩ | ⟨hnew, hins, rfl⟩⟩ := hmatch.head hI
    · refine ⟨[_], _, .single (.next (hexec.congr hagree.symm hI.2)), ?_,
        .running ⟨hagree.regs.set _ _, hagree.entry, hagree.prev, rfl⟩ rfl, hrest⟩
      simp [Option.guard, Event.visible, hI.1]
    · -- The original body stays where it is: the result of `I` is a register it does not read.
      obtain ⟨w, hw⟩ := hexec.of_inserted hins
      simp only [Outcome.next.injEq] at hw
      obtain ⟨rfl, rfl⟩ := hw
      refine ⟨[], _, .nil _, ?_,
        .running ⟨hagree.regs.set_right hnew _, hagree.entry, hagree.prev, hagree.mem⟩ rfl, hrest⟩
      simp [Option.guard, Event.visible, hnew]
  | @jump cur k I code B' τ c v mem hexec hB' =>
    obtain ⟨hI, -⟩ := List.forall_mem_cons.mp hclean
    obtain ⟨σ, hagree, ⟨hI, rfl⟩ | ⟨-, hins, -⟩⟩ := hmatch.head hI
    · obtain ⟨B, hB, hfilter, hclean'⟩ := exists_getElem_left hblocks hB'
      refine ⟨[_], _, .single (.jump (hexec.congr hagree.symm hI.2) hB), ?_,
        .running ⟨hagree.regs.set _ _, hagree.regs.set _ _, rfl, rfl⟩ hfilter, hclean'⟩
      simp [Option.guard, Event.visible, hI.1]
    · -- An inserted instruction does not leave its block.
      obtain ⟨w, hw⟩ := hexec.of_inserted hins
      cases hw
  | @exit cur I code τ c v mem hexec =>
    obtain ⟨hI, -⟩ := List.forall_mem_cons.mp hclean
    obtain ⟨σ, hagree, ⟨hI, rfl⟩ | ⟨-, hins, -⟩⟩ := hmatch.head hI
    · refine ⟨[_], _, .single (.exit (hexec.congr hagree.symm hI.2)), ?_, .done _ _, trivial⟩
      simp [Option.guard, Event.visible, hI.1]
    · obtain ⟨w, hw⟩ := hexec.of_inserted hins
      cases hw

/-! ## Runs of the original body are runs of the instrumented one -/

/-- The address of field 0 of what `var` points to. -/
def Machine.fieldAddress (m : Machine V M) (regs : ℕ → V) (var : Value) : V :=
  match var with
  | .const c ty => m.const (.structGep c) (.ptr ty.elementType.field0)
  | .reg id ty => m.field0 (.ptr ty.elementType.field0) (regs id)

/-- The guard that a route reads through `var` is in valid memory. -/
def Machine.GuardValid (m : Machine V M) (σ : Frame V M) (var : Value) : Route → Prop
  | .argument _ => True
  | .guardValue => ∃ v, m.load var.ty.elementType (m.eval σ.regs var) σ.mem = some v
  | .guardField => (∃ v, m.load var.ty.elementType (m.eval σ.regs var) σ.mem = some v) ∧
      ∃ v, m.load var.ty.elementType.field0 (m.fieldAddress σ.regs var) σ.mem = some v

/-- At a site, the guard that the walk reads is in valid memory. -/
def Machine.GuardsValid (m : Machine V M) (src : Source) : State V M → Prop
  | .running _ (I :: _) σ => ∀ s, src.site I = some s → ∀ var, s.args[0]? = some var →
      m.GuardValid σ var s.arm.route
  | _ => True

/-- From the frame `τ` the code is passed over to `τ'` in new steps, whatever follows it. -/
structure Machine.Skips (m : Machine V M) (blocks : List Block) (n : ℕ) (code : Block)
    (τ τ' : Frame V M) : Prop where
  /-- The steps. -/
  run : ∀ cur rest, ∃ es, Run (m.Step blocks) (.running cur (code ++ rest) τ) es
    (.running cur rest τ') ∧ ∀ e ∈ es, n ≤ e.id
  /-- What the original instructions read is as it was. -/
  agree : τ.Agree n τ'

/-- A site reads the registers of its arguments. -/
theorem site_regs {I : Inst} {s : Site} (h : src.site I = some s) :
    ∀ i ∈ s.args.flatMap Value.regs, i ∈ I.op.regs := by
  have hop : ∀ arms arms', site arms arms' I = some s →
      ∀ i ∈ s.args.flatMap Value.regs, i ∈ I.op.regs := by
    intro arms arms' hs i hi
    unfold site at hs
    split at hs
    next callee args normal unwind loc hop _ =>
      obtain ⟨a, -, rfl⟩ := Option.map_eq_some_iff.mp hs
      rw [hop]
      exact List.mem_append_right _ hi
    next callee args loc hop _ =>
      obtain ⟨a, -, rfl⟩ := Option.map_eq_some_iff.mp hs
      rw [hop]
      exact List.mem_append_right _ hi
    next => cases hs
  cases src <;> exact hop _ _ h

namespace Machine

variable {τ τ' τ'' : Frame V M} {code code' : Block}

/-- No code is passed over at once. -/
theorem Skips.nil (τ : Frame V M) : m.Skips blocks n [] τ τ :=
  ⟨fun _ _ => ⟨[], .nil _, by simp⟩, ⟨fun _ _ => rfl, fun _ _ => rfl, rfl, rfl⟩⟩

/-- Code is passed over piece by piece. -/
theorem Skips.append (h : m.Skips blocks n code τ τ') (h' : m.Skips blocks n code' τ' τ'') :
    m.Skips blocks n (code ++ code') τ τ'' := by
  refine ⟨fun cur rest => ?_, h.agree.trans h'.agree⟩
  obtain ⟨es, hes, hnew⟩ := h.run cur (code' ++ rest)
  obtain ⟨es', hes', hnew'⟩ := h'.run cur rest
  refine ⟨es ++ es', ?_, fun e he => (List.mem_append.mp he).elim (hnew e) (hnew' e)⟩
  rw [List.append_assoc]
  exact hes.append hes'

/-- A new instruction that leaves the memory as it is. -/
theorem Skips.single {J : Inst} {c : Option (Called V M)} {v : Option V} (hJ : n ≤ J.id)
    (h : m.Exec τ J c (.next v τ.mem)) :
    m.Skips blocks n [J] τ { τ with regs := setResult τ.regs J.id v } := by
  have hself : AgreeBelow n τ.regs τ.regs := fun _ _ => rfl
  refine ⟨fun cur rest => ⟨[_], .single (.next h), by simpa using hJ⟩, ?_⟩
  exact ⟨hself.set_right hJ v, fun _ _ => rfl, rfl, rfl⟩

/-- A cast can always be executed. -/
theorem skips_cast {v addr : Value} {cast : List Inst} (h : CastOf v cast addr)
    (hnew : ∀ J ∈ cast, n ≤ J.id) (τ : Frame V M) : ∃ τ', m.Skips blocks n cast τ τ' := by
  cases h with
  | same | folded => exact ⟨τ, .nil τ⟩
  | inst hop => exact ⟨_, .single (hnew _ List.mem_cons_self) (.bitcast hop)⟩

/-- So can a cast and the call of a probe. -/
theorem skips_probe {v addr addr' : Value} {cast : List Inst} {probe : Inst} {f file : String}
    {loc : Line} {op : Op} (hcast : CastOf v cast addr) (hprobe : probe.Probes f loc file op addr')
    (hf : isProbe f = true) (hnew : ∀ J ∈ cast ++ [probe], n ≤ J.id) (τ : Frame V M) :
    ∃ τ', m.Skips blocks n (cast ++ [probe]) τ τ' := by
  obtain ⟨hcastNew, hprobeNew⟩ := List.forall_mem_append.mp hnew
  obtain ⟨τ₁, h₁⟩ : ∃ τ₁, m.Skips blocks n cast τ τ₁ := skips_cast hcast hcastNew τ
  obtain ⟨v, hv⟩ := m.probe_returns f ((probeArgs loc file op.text addr').map (m.eval τ₁.regs))
    τ₁.mem hf
  exact ⟨_, h₁.append (.single (hprobeNew _ List.mem_cons_self) (.callReturned hprobe hv))⟩

/-- The computation of a lock's address can be executed where the guard is in valid memory. -/
theorem skips_route {args : List Value} {r : Route} {insts : List Inst} {lock : Value}
    (h : RouteOf args r insts lock) (hnew : ∀ J ∈ insts, n ≤ J.id)
    (hargs : ∀ i ∈ args.flatMap Value.regs, i < n) {σ : Frame V M} (hagree : σ.Agree n τ)
    (hvalid : ∀ var, args[0]? = some var → m.GuardValid σ var r) :
    ∃ τ', m.Skips blocks n insts τ τ' := by
  have hregs : ∀ {var}, args[0]? = some var → ∀ i ∈ var.regs, i < n := fun hvar i hi =>
    hargs i (List.mem_flatMap.mpr ⟨_, List.mem_of_getElem? hvar, hi⟩)
  cases h with
  | argument => exact ⟨τ, .nil τ⟩
  | @guardValue var J hvar hop hty =>
    obtain ⟨v, hv⟩ := hvalid var hvar
    rw [eval_congr hagree.regs (hregs hvar), hagree.mem, ← hty] at hv
    exact ⟨_, .single (hnew _ List.mem_cons_self) (.load hop hv)⟩
  | @guardField var lockPtr J K gep hvar hJ hJty hgep hK hKty =>
    obtain ⟨⟨v, hv⟩, w, hw⟩ := hvalid var hvar
    have hJnew := hnew J List.mem_cons_self
    have hKnew := hnew K (by simp)
    rw [eval_congr hagree.regs (hregs hvar), hagree.mem, ← hJty] at hv
    -- The guard is loaded into a new register, so the argument is what it was.
    have hload : m.Skips blocks n [J] τ _ := .single hJnew (.load hJ hv)
    have hagree₁ := hagree.trans hload.agree
    generalize { τ with regs := setResult τ.regs J.id (some v) } = τ₁ at hload hagree₁
    rw [hagree₁.mem, ← hKty] at hw
    cases hgep with
    | folded hc =>
      subst hc
      exact ⟨_, hload.append (.single hKnew (.load hK hw))⟩
    | @inst id ty G hreg hG hGty =>
      subst hreg
      -- The address of the field is that of the same register in the original.
      have hid : σ.regs id = τ₁.regs id := hagree₁.regs id (hregs hvar id List.mem_cons_self)
      have hGnew := hnew G (by simp)
      have hgep : m.Skips blocks n [G] τ₁ _ := .single hGnew (.structGep hG)
      refine ⟨_, hload.append (hgep.append (.single hKnew (.load (v := w) hK ?_)))⟩
      simpa [eval, setResult, fieldAddress, Value.ty, hid, hGty] using hw

/-- What stands behind an instruction can be executed in any frame. -/
theorem skips_post {I : Inst} {pre post : List Inst} (h : Around src file n I pre post)
    (τ : Frame V M) : ∃ τ', m.Skips blocks n post τ τ' := by
  rcases h with ⟨hshape, hnew⟩ | ⟨-, rfl⟩
  · cases hshape with
    | load _ hcast hprobe => exact skips_probe hcast hprobe (by decide) hnew τ
    | store | lock | other => exact ⟨τ, .nil τ⟩
  · exact ⟨τ, .nil τ⟩

/-- What stands before an instruction can be executed where the guard of a site is in valid
memory. -/
theorem skips_pre {I : Inst} {pre post : List Inst} (h : Around src file n I pre post)
    (hI : I.Below n) {σ : Frame V M} (hagree : σ.Agree n τ)
    (hvalid : ∀ s, src.site I = some s → ∀ var, s.args[0]? = some var →
      m.GuardValid σ var s.arm.route) : ∃ τ', m.Skips blocks n pre τ τ' := by
  rcases h with ⟨hshape, hnew⟩ | ⟨rfl, -⟩
  · cases hshape with
    | store _ hcast hprobe =>
      rw [List.append_nil] at hnew
      exact skips_probe hcast hprobe (by decide) hnew τ
    | @lock s lock addr route cast probe hsite hroute hcast hprobe =>
      rw [List.append_nil, List.forall_mem_append] at hnew
      have hargs : ∀ i ∈ s.args.flatMap Value.regs, i < n := fun i hi =>
        hI.2 i (site_regs hsite i hi)
      obtain ⟨τ₁, h₁⟩ : ∃ τ₁, m.Skips blocks n route τ τ₁ :=
        skips_route hroute hnew.1 hargs hagree (hvalid s hsite)
      obtain ⟨τ₂, h₂⟩ : ∃ τ₂, m.Skips blocks n (cast ++ [probe]) τ₁ τ₂ :=
        skips_probe hcast hprobe (by decide) hnew.2 τ₁
      exact ⟨τ₂, h₁.append h₂⟩
    | load | other => exact ⟨τ, .nil τ⟩
  · exact ⟨τ, .nil τ⟩

end Machine

/-- A state of the original body and one of the instrumented body that are at the same instruction,
but for what stood behind the one before it. -/
inductive Aligned (m : Machine V M) (src : Source) (file : String) (n : ℕ) (blocks' : List Block) :
    State V M → State V M → Prop
  | running {cur : ℕ} {code behind rest : Block} {σ τ : Frame V M} : σ.Agree n τ →
      (∀ I ∈ code, I.Below n) → (∀ J ∈ behind, n ≤ J.id) →
      (∀ τ, ∃ τ', m.Skips blocks' n behind τ τ') → Woven (Around src file n) code rest →
      Aligned m src file n blocks' (.running cur code σ) (.running cur (behind ++ rest) τ)
  | done (v : Option V) (mem : M) : Aligned m src file n blocks' (.done v mem) (.done v mem)

/-- Woven blocks that are entered are aligned. -/
theorem Aligned.enter {B B' : Block} {prev cur : ℕ} {r r' : ℕ → V} {mem : M}
    (hr : AgreeBelow n r r') (hbelow : ∀ I ∈ B, I.Below n) (h : Woven (Around src file n) B B') :
    Aligned m src file n blocks' (.enter B prev cur r mem) (.enter B' prev cur r' mem) :=
  @Aligned.running V M m src file n blocks' cur B [] B' ⟨r, r, prev, mem⟩ ⟨r', r', prev, mem⟩
    ⟨hr, hr, rfl, rfl⟩ hbelow (List.forall_mem_nil _) (fun τ => ⟨τ, .nil τ⟩) h

/-- Aligned states match. -/
theorem Aligned.matches {s t : State V M} (h : Aligned m src file n blocks' s t) :
    Matches n s t := by
  cases h with
  | done v mem => exact .done v mem
  | @running cur code behind rest σ τ hagree hbelow hbehind hskips hwoven =>
    refine .running hagree ?_
    have hnil : behind.filter (Inst.old n) = [] := by
      simpa [Inst.old] using hbehind
    rw [List.filter_append, hnil, woven_filter_old hwoven hbelow, List.nil_append]

/-- New steps are silent. -/
theorem filterMap_guard_new {es : List (Event V M)} (h : ∀ e ∈ es, n ≤ e.id) :
    es.filterMap (Option.guard (Event.visible n)) = [] := by
  rw [List.filterMap_eq_filter, List.filter_eq_nil_iff]
  intro e he
  simpa [Event.visible] using h e he

/-- Every step of the original body from a state in which the guards are valid is a step of the
instrumented one, with silent steps before it. -/
theorem simulates_woven
    (hblocks : List.Forall₂ (fun B B' => (∀ I ∈ B, I.Below n) ∧ Woven (Around src file n) B B')
      blocks blocks') :
    Simulates (fun s e s' => m.Step blocks s e s' ∧ m.GuardsValid src s) (m.Step blocks') some
      (Option.guard (Event.visible n)) (Aligned m src file n blocks') := by
  rintro s t e s' halign ⟨hstep, hvalid⟩
  cases halign with
  | done => cases hstep
  | @running cur code behind rest σ τ hagree hbelow hbehind hskips hwoven =>
    cases hwoven with
    | nil => cases hstep
    | @cons I pre post code ys haround hwoven =>
      obtain ⟨hI, hcode⟩ := List.forall_mem_cons.mp hbelow
      -- What stood behind the instruction before and what stands before this one is passed over.
      obtain ⟨τ₁, h₁⟩ := hskips τ
      obtain ⟨τ₂, h₂⟩ : ∃ τ₂, m.Skips blocks' n pre τ₁ τ₂ :=
        Machine.skips_pre haround hI (hagree.trans h₁.agree) hvalid
      have hskip := h₁.append h₂
      have hagree₂ := hagree.trans hskip.agree
      obtain ⟨es, hes, hnew⟩ := hskip.run cur (I :: (post ++ ys))
      rw [List.append_assoc] at hes
      have hpost : ∀ J ∈ post, n ≤ J.id := fun J hJ =>
        (haround.new J (List.mem_append_right _ hJ)).1
      -- The silent steps before `I`, and then `I` itself.
      have hview : ∀ {e : Event V M}, e.id = I.id →
          (es ++ [e]).filterMap (Option.guard (Event.visible n)) = (some e).toList := by
        intro e he
        rw [List.filterMap_append, filterMap_guard_new hnew]
        simp [Option.guard, Event.visible, he, hI.1]
      cases hstep with
      | next hexec =>
        refine ⟨_, _, hes.append (.single (.next (hexec.congr hagree₂ hI.2))), hview rfl, ?_⟩
        -- What stands behind `I` is left for the next step.
        exact .running ⟨hagree₂.regs.set _ _, hagree₂.entry, hagree₂.prev, rfl⟩ hcode hpost
          (Machine.skips_post haround) hwoven
      | @jump _ k _ _ B _ _ _ _ hexec hB =>
        obtain ⟨B', hB', hbelow', hwoven'⟩ := exists_getElem_right hblocks hB
        refine ⟨_, _, hes.append (.single (.jump (hexec.congr hagree₂ hI.2) hB')), hview rfl, ?_⟩
        exact .enter (hagree₂.regs.set _ _) hbelow' hwoven'
      | exit hexec =>
        exact ⟨_, _, hes.append (.single (.exit (hexec.congr hagree₂ hI.2))), hview rfl, .done _ _⟩

/-! ## Preservation -/

/-- Inserted instructions alone are executed only as long as there is code in the block. -/
theorem silent_length_le {cur : ℕ} {code : Block} {τ : Frame V M} {t : State V M}
    {es : List (Event V M)} (hclean : (State.running cur code τ).Clean n)
    (hrun : Run (m.Step blocks) (.running cur code τ) es t) (hnew : ∀ e ∈ es, n ≤ e.id) :
    es.length ≤ code.length := by
  induction code generalizing τ es with
  | nil =>
    cases hrun with
    | nil => exact le_rfl
    | cons hstep _ => cases hstep
  | cons I code ih =>
    cases hrun with
    | nil => exact Nat.zero_le _
    | cons hstep hrest =>
      obtain ⟨hI, hcode⟩ := List.forall_mem_cons.mp hclean
      obtain ⟨hid, hrestNew⟩ := List.forall_mem_cons.mp hnew
      -- The step is new, so the instruction is not an old one.
      have hins : I.Inserted := by
        rcases hI with hI | ⟨-, hins⟩
        · have := hI.1
          cases hstep <;> simp only at hid <;> omega
        · exact hins
      cases hstep with
      | next hexec => exact Nat.succ_le_succ (ih hcode hrest hrestNew)
      | jump hexec _ | exit hexec =>
        obtain ⟨v, hv⟩ := hexec.of_inserted hins
        cases hv

/-- The walk preserves the program. Erasing what it inserted gives back the body. From the start of
any block, with any registers and memory: a run of the original body, in whose states the guards at
the unlock sites are in valid memory, is a run of the instrumented one, and every run of the
instrumented body is one of the original. The two make the same calls, take the same branches and
leave the same memories at the original instructions, and end in states that match. Inserted
instructions alone are only executed up to the end of the block. -/
theorem Source.walk_preserves (m : Machine V M) (src : Source) (file : String) (F : Body)
    (out : ℕ × List Block) (h : src.Walks file F.next F.blocks out) :
    out.2.map (List.filter (Inst.old F.next)) = F.blocks ∧
    ∀ (k prev : ℕ) (regs : ℕ → V) (mem : M) (B B' : Block), F.blocks[k]? = some B →
      out.2[k]? = some B' →
      (∀ es s, Run (fun s e s' => m.Step F.blocks s e s' ∧ m.GuardsValid src s)
          (.enter B prev k regs mem) es s →
        ∃ es' t, Run (m.Step out.2) (.enter B' prev k regs mem) es' t ∧
          es'.filter (Event.visible F.next) = es ∧ Matches F.next s t) ∧
      (∀ es' t, Run (m.Step out.2) (.enter B' prev k regs mem) es' t →
        ∃ es s, Run (m.Step F.blocks) (.enter B prev k regs mem) es s ∧
          es'.filter (Event.visible F.next) = es ∧ Matches F.next s t) ∧
      ∀ es' cur code τ silent t, Run (m.Step out.2) (.enter B' prev k regs mem) es'
          (.running cur code τ) → Run (m.Step out.2) (.running cur code τ) silent t →
        (∀ e ∈ silent, F.next ≤ e.id) → silent.length ≤ code.length := by
  refine ⟨Source.erase_blocks h, fun k prev regs mem B B' hB hB' => ?_⟩
  have hwoven := (List.forall₂_and_left _ _).mpr ⟨F.below, h.woven⟩
  -- The two bodies stand at the start of the same block.
  obtain ⟨B₁, hB₁, hbelow, hw⟩ := exists_getElem_right hwoven hB
  obtain rfl : B' = B₁ := Option.some.inj (hB'.symm.trans hB₁)
  have hstart : Aligned m src file F.next out.2 (.enter B prev k regs mem)
      (.enter B' prev k regs mem) := .enter (fun _ _ => rfl) hbelow hw
  have hback := simulates_erased (m := m) (hwoven.imp fun B B' hBB' =>
    And.intro (woven_filter_old hBB'.2 hBB'.1) (woven_clean hBB'.2 hBB'.1))
  have hmatch := And.intro hstart.matches (woven_clean hw hbelow)
  refine ⟨fun es s hrun => ?_, fun es' t hrun => ?_,
    fun es' cur code τ silent t hrun hsilent hnew => ?_⟩
  · obtain ⟨es', t, hrun', hview, halign⟩ := (simulates_woven hwoven).run hstart hrun
    refine ⟨es', t, hrun', ?_, halign.matches⟩
    rwa [List.filterMap_eq_filter, List.filterMap_some] at hview
  · obtain ⟨es, s, hrun', hview, hmatch', -⟩ := hback.run hmatch hrun
    refine ⟨es, s, hrun', ?_, hmatch'⟩
    rw [List.filterMap_eq_filter, List.filterMap_some] at hview
    exact hview.symm
  · obtain ⟨-, -, -, -, -, hclean⟩ := hback.run hmatch hrun
    exact silent_length_le hclean hsilent hnew

/-- Words in a flat memory, whose addresses are valid where it has a word. All calls return and
leave the memory as it is, and `ret`, which returns 0, is the only instruction of its own. -/
def flatMachine : Machine ℕ (ℕ → Option ℕ) where
  const c _ :=
    match c with
    | .int value => value.toNat
    | _ => 0
  cast _ v := v
  field0 _ v := v
  load _ addr mem := mem addr
  store v addr mem := (mem addr).map fun _ => Function.update mem addr (some v)
  call _ _ mem r := r = .returned 0 mem
  other name _ _ mem o := name = "ret" ∧ o = .exit (some 0) mem
  probe_returns _ _ _ _ := ⟨0, rfl⟩
  probe_silent _ _ _ _ _ h := ⟨0, h⟩

/-- The name of `drop_in_place` of an `RwLockWriteGuard`. -/
def dropWriteGuard : String :=
  "_ZN4core3ptr67drop_in_place$LT$std..sync..rwlock..RwLockWriteGuard$LT$u64$GT$$GT$17hE"

/-- A pointer to a guard. -/
def guardPtr : Value := .reg 0 (.ptr (.struct (.ptr (.int 64)) .void))

/-- `*p = 1; drop(guard);` of a guard of an `RwLock` and what it guards. -/
def releaseBody : Body where
  blocks :=
    [[⟨2, .void, .store (.const (.int 1) (.int 64)) (.reg 1 (.ptr (.int 64))), some 8⟩,
      ⟨3, .void, .call (.direct dropWriteGuard) [guardPtr], some 9⟩,
      ⟨4, .void, .other "ret" [], some 10⟩]]
  next := 5
  below := by decide

/-- The guard is at the address 16 and has the address 48 of the lock; what it guards is at 32. -/
def releaseRegs : ℕ → ℕ := fun r => if r = 0 then 16 else 32

/-- The memory before `releaseBody`. -/
def releaseMem : ℕ → Option ℕ
  | 16 => some 48
  | 32 => some 0
  | _ => none

/-- The memory after the store. -/
def releasedMem : ℕ → Option ℕ := Function.update releaseMem 32 (some 1)

/-- What `releaseBody` does: it stores, it drops the guard, and it returns. -/
def releaseRun : List (Event ℕ (ℕ → Option ℕ)) :=
  [⟨2, none, none, releasedMem⟩,
    ⟨3, some ⟨.function dropWriteGuard, [16], .returned 0 releasedMem⟩, none, releasedMem⟩,
    ⟨4, none, none, releasedMem⟩]

/-- The operation at the drop. -/
theorem site_release : Source.helloWorldCpp.site
    ⟨3, .void, .call (.direct dropWriteGuard) [guardPtr], some 9⟩ =
      some ⟨⟨"drop_in_place$LT$std..sync..rwlock..RwLockWriteGuard", .guardField,
        .callWriteUnlock⟩, 9, [guardPtr]⟩ := by
  decide +kernel

/-- The guards are in valid memory in this run. -/
theorem run_release {B : Block} (hB : releaseBody.blocks[0]? = some B) :
    Run (fun s e s' => flatMachine.Step releaseBody.blocks s e s' ∧
        flatMachine.GuardsValid .helloWorldCpp s)
      (.enter B 0 0 releaseRegs releaseMem) releaseRun (.done (some 0) releasedMem) := by
  obtain rfl := Option.some.inj hB
  refine .cons ⟨.next (.store rfl rfl), fun s hs => by cases hs⟩
    (.cons ⟨.next (.returned_direct rfl rfl rfl), fun s hs var hvar => ?_⟩
      (.single ⟨.exit (.other rfl ⟨rfl, rfl⟩), fun s hs => by cases hs⟩))
  -- The drop reads the guard, and the address of the lock in it.
  rw [site_release, Option.some.injEq] at hs
  subst hs
  obtain rfl := Option.some.inj hvar
  exact ⟨⟨48, rfl⟩, 48, rfl⟩

/-- `HelloWorld.cpp` instruments `releaseBody`. -/
theorem walks_release :
    ∃ out, Source.helloWorldCpp.Walks "/src/lock.rs" 5 releaseBody.blocks out := by
  have hreached : ∀ B ∈ releaseBody.blocks, ∀ I ∈ reached Source.helloWorldCpp.leaves B,
      I.indirect = false ∧ ∀ s, Source.helloWorldCpp.site I = some s → s.hasOperand = true := by
    decide +kernel
  exact (Source.walks_iff .helloWorldCpp "/src/lock.rs" 5 releaseBody.blocks).mpr
    fun B hB I hI => ⟨fun _ => (hreached B hB I hI).1, (hreached B hB I hI).2⟩

/-- `releaseBody` on this machine, instrumented by `HelloWorld.cpp`: the run of the original is one
of the instrumented body, and all runs of that are runs of the original. -/
theorem Source.walk_preserves_releaseBody : ∃ out : ℕ × List Block,
    Source.helloWorldCpp.Walks "/src/lock.rs" 5 releaseBody.blocks out ∧
    out.2.map (List.filter (Inst.old 5)) = releaseBody.blocks ∧
    ∀ B B' : Block, releaseBody.blocks[0]? = some B → out.2[0]? = some B' →
      (∃ es' t, Run (flatMachine.Step out.2) (.enter B' 0 0 releaseRegs releaseMem) es' t ∧
        es'.filter (Event.visible 5) = releaseRun ∧ Matches 5 (.done (some 0) releasedMem) t) ∧
      ∀ es' t, Run (flatMachine.Step out.2) (.enter B' 0 0 releaseRegs releaseMem) es' t →
        ∃ es s,
          Run (flatMachine.Step releaseBody.blocks) (.enter B 0 0 releaseRegs releaseMem) es s ∧
          es'.filter (Event.visible 5) = es ∧ Matches 5 s t := by
  obtain ⟨out, hout⟩ := walks_release
  obtain ⟨herase, hruns⟩ :=
    Source.walk_preserves flatMachine .helloWorldCpp "/src/lock.rs" releaseBody out hout
  refine ⟨out, hout, herase, fun B B' hB hB' => ?_⟩
  obtain ⟨hforth, hback, -⟩ := hruns 0 0 releaseRegs releaseMem B B' hB hB'
  exact ⟨hforth _ _ (run_release hB), hback⟩

end AtomicityViolation
