import AtomicityViolation.Pass.Shown

/-!
# The instrumented body records

The instrumented body does what the recorder does. What it shows, at the original instructions and
by its probes, is what the recorder shows (`simulates_recorder`), and the other way round
(`recorder_simulates`), so the two have the same runs (`Source.walk_records`).
-/

namespace AtomicityViolation

open Cursor (SweptTo)
open Transition (Run Simulates)

variable {V M : Type*} {m : Machine V M} {n : ℕ} {src : Source} {file : String} {I : Inst}
  {pre post : List Inst} {σ τ : Frame V M} {blocks blocks' : List Block}

/-! ## Runs of the instrumented body are runs of the recorder -/

/-- An instruction of the original body: its identity and what it reads are below `n`, and a load
does not read its own result. -/
structure Inst.Proper (n : ℕ) (I : Inst) : Prop where
  /-- It is old. -/
  below : I.Below n
  /-- Only a PHI can read its own result. -/
  load : ∀ ptr, I.op = .load ptr → I.id ∉ ptr.regs

/-- An instruction that was inserted. -/
def Inst.New (n : ℕ) (J : Inst) : Prop := n ≤ J.id ∧ J.Inserted

/-- What follows an instruction that the walk came to: what was put behind it, and then the rest of
the block, instrumented unless the walk left the block there. -/
def Follows (src : Source) (file : String) (n : ℕ) (I : Inst) (code post ys : Block) : Prop :=
  ∃ pre, Laid src file n I pre post ∧
    (src.leaves I = true ∧ ys = code ∨
      src.leaves I = false ∧ SweptTo src.leaves (Laid src file n) code ys)

/-- A state of the instrumented body and the recorder are at the same place. -/
inductive Position (m : Machine V M) (src : Source) (file : String) (n : ℕ) :
    State V M → State V M × Watch V → Prop
  /-- In the code before an instruction, of which `behind` is left. -/
  | before {cur : ℕ} {I : Inst} {code behind post ys : Block} {σ τ : Frame V M} {w : Watch V}
      {due : Bool} : σ.Agree n τ → (∀ J ∈ I :: code, J.Proper n) → (∀ J ∈ behind, J.New n) →
      m.Yields (m.Keeps src σ I) (fun r => (m.announcement src file σ I).map m.passed = some r) due
        behind τ →
      (w = .ready ∧ due = src.announces I ∨ w = .told ∧ due = false) →
      Follows src file n I code post ys →
      Position m src file n (.running cur (behind ++ I :: (post ++ ys)) τ)
        (.running cur (I :: code) σ, w)
  /-- In the code behind an instruction, of which `behind` is left. -/
  | after {cur : ℕ} {code behind ys : Block} {σ τ : Frame V M} {w : Watch V} {due : Bool} :
      σ.Agree n τ → (∀ J ∈ code, J.Proper n) → (∀ J ∈ behind, J.New n) →
      m.Yields (fun _ => True) (fun r => ∃ call, w = .owes call ∧ m.passed call = r) due behind
        τ →
      (due = false → w = .ready) →
      SweptTo src.leaves (Laid src file n) code ys →
      Position m src file n (.running cur (behind ++ ys) τ) (.running cur code σ, w)
  /-- Where nothing was inserted, since the walk had left the block. -/
  | away {cur : ℕ} {code : Block} {σ τ : Frame V M} : σ.Agree n τ → (∀ J ∈ code, J.Proper n) →
      Position m src file n (.running cur code τ) (.running cur code σ, .away)
  | done (v : Option V) (mem : M) (w : Watch V) :
      Position m src file n (.done v mem) (.done v mem, w)

/-- At the start of a block. -/
theorem Position.enter {B B' : Block} {prev cur : ℕ} {r r' : ℕ → V} {mem : M}
    (hr : AgreeBelow n r r') (hB : ∀ I ∈ B, I.Proper n)
    (h : SweptTo src.leaves (Laid src file n) B B') :
    Position m src file n (.enter B' prev cur r' mem) (.enter B prev cur r mem, .ready) :=
  @Position.after V M m src file n cur B [] B' ⟨r, r, prev, mem⟩ ⟨r', r', prev, mem⟩ .ready false
    ⟨hr, hr, rfl, rfl⟩ hB (List.forall_mem_nil _) rfl (fun _ => rfl) h

/-- What stands before an instruction is new. -/
theorem Laid.new_pre (h : Laid src file n I pre post) : ∀ J ∈ pre, J.New n := fun J hJ =>
  Around.new (.inl h) J (List.mem_append_left _ hJ)

/-- What stands behind it is new. -/
theorem Laid.new_post (h : Laid src file n I pre post) : ∀ J ∈ post, J.New n := fun J hJ =>
  Around.new (.inl h) J (List.mem_append_right _ hJ)

/-- New instructions are erased. -/
theorem filter_old_new {code : Block} (h : ∀ J ∈ code, J.New n) :
    code.filter (Inst.old n) = [] := by
  simpa [Inst.old] using fun J hJ => (h J hJ).1

/-- Old ones are not. -/
theorem filter_old_proper {code : Block} (h : ∀ J ∈ code, J.Proper n) :
    code.filter (Inst.old n) = code :=
  List.filter_eq_self.mpr fun J hJ => by simpa [Inst.old] using (h J hJ).below.1

/-- Without the insertions, a swept block is the original one. -/
theorem filter_old_swept {code ys : Block} (hcode : ∀ J ∈ code, J.Proper n)
    (h : SweptTo src.leaves (Laid src file n) code ys) : ys.filter (Inst.old n) = code :=
  woven_filter_old (SweptTo.woven h) fun J hJ => (hcode J hJ).below

/-- Without the insertions, what follows an instruction is what follows it in the original. -/
theorem Follows.filter_old {code post ys : Block} (h : Follows src file n I code post ys)
    (hcode : ∀ J ∈ code, J.Proper n) : (post ++ ys).filter (Inst.old n) = code := by
  obtain ⟨pre, hlaid, hys⟩ := h
  rw [List.filter_append, filter_old_new hlaid.new_post, List.nil_append]
  rcases hys with ⟨-, rfl⟩ | ⟨-, hswept⟩
  · exact filter_old_proper hcode
  · exact filter_old_swept hcode hswept

/-- The recorder and the instrumented body are at the same place of the original. -/
theorem Position.matches {t : State V M} {p : State V M × Watch V}
    (h : Position m src file n t p) : Matches n p.1 t := by
  cases h with
  | @before _ I _ _ _ _ _ _ _ _ hagree hcode hnew _ _ hfollows =>
    obtain ⟨hI, hcode⟩ := List.forall_mem_cons.mp hcode
    refine .running hagree ?_
    have hold : Inst.old n I = true := by simpa [Inst.old] using hI.below.1
    rw [List.filter_append, filter_old_new hnew, List.filter_cons_of_pos hold,
      hfollows.filter_old hcode, List.nil_append]
  | after hagree hcode hnew _ _ hswept =>
    refine .running hagree ?_
    rw [List.filter_append, filter_old_new hnew, filter_old_swept hcode hswept, List.nil_append]
  | away hagree hcode => exact .running hagree (filter_old_proper hcode)
  | done v mem w => exact .done v mem

/-- Frames stay in agreement when an instruction is executed in both. -/
theorem Frame.Agree.set (h : σ.Agree n τ) (id : ℕ) (v : Option V) (mem : M) :
    Frame.Agree n { σ with regs := setResult σ.regs id v, mem }
      { τ with regs := setResult τ.regs id v, mem } :=
  ⟨h.regs.set _ _, h.entry, h.prev, rfl⟩

/-- Two bodies leave an instruction in the same way: they stay in their blocks, enter blocks that
are related, or leave the function. -/
inductive Lands (n : ℕ) (X : Block → Block → Prop) (cur id : ℕ) (code code' : Block)
    (σ τ : Frame V M) : Event V M → State V M → State V M → Prop
  | stay {c : Option (Called V M)} (v : Option V) (mem : M) :
      Lands n X cur id code code' σ τ ⟨id, c, none, mem⟩
        (.running cur code { σ with regs := setResult σ.regs id v, mem })
        (.running cur code' { τ with regs := setResult τ.regs id v, mem })
  | enter {c : Option (Called V M)} {k : ℕ} {B B' : Block} (v : Option V) (mem : M) : X B B' →
      Lands n X cur id code code' σ τ ⟨id, c, some k, mem⟩
        (.enter B cur k (setResult σ.regs id v) mem) (.enter B' cur k (setResult τ.regs id v) mem)
  | done {c : Option (Called V M)} (v : Option V) (mem : M) :
      Lands n X cur id code code' σ τ ⟨id, c, none, mem⟩ (.done v mem) (.done v mem)

/-- The other way round. -/
theorem Lands.flip {X : Block → Block → Prop} {cur id : ℕ} {code code' : Block} {e : Event V M}
    {s t : State V M} (h : Lands n (flip X) cur id code code' σ τ e s t) :
    Lands n X cur id code' code τ σ e t s := by
  cases h with
  | stay v mem => exact .stay v mem
  | enter v mem hX => exact .enter v mem hX
  | done v mem => exact .done v mem

/-- What is shown of an old instruction is its step. -/
theorem Lands.observe {X : Block → Block → Prop} {cur : ℕ} {code code' : Block} {e : Event V M}
    {s t : State V M} (hI : I.Below n) (h : Lands n X cur I.id code code' σ τ e s t) :
    e.observe n = some (.inl e) := by
  cases h <;> rw [Event.observe, if_pos hI.1]

/-- An old instruction is executed in the same way in frames that agree, whatever follows it. -/
theorem Machine.Step.transfer {X : Block → Block → Prop} {cur : ℕ} {code code' : Block}
    {e : Event V M} {s : State V M} (hI : I.Below n) (hagree : σ.Agree n τ)
    (hblocks : ∀ (k : ℕ) B, blocks[k]? = some B → ∃ B', blocks'[k]? = some B' ∧ X B B')
    (hstep : m.Step blocks (.running cur (I :: code) σ) e s) :
    ∃ t, m.Step blocks' (.running cur (I :: code') τ) e t ∧
      Lands n X cur I.id code code' σ τ e s t := by
  cases hstep with
  | next hexec => exact ⟨_, .next (hexec.congr hagree hI.2), .stay _ _⟩
  | @jump _ k _ _ B _ _ _ _ hexec hB =>
    obtain ⟨B', hB', hX⟩ := hblocks k B hB
    exact ⟨_, .jump (hexec.congr hagree hI.2) hB', .enter _ _ hX⟩
  | exit hexec => exact ⟨_, .exit (hexec.congr hagree hI.2), .done _ _⟩

/-- What the recorder does after an instruction, and what follows it in the instrumented body: the
uninstrumented rest of the block where the walk left it, nothing if nothing is due, and else code
that shows the call. -/
theorem Follows.watchAfter (hm : m.NoopCast) {code ys : Block} {w : Watch V} (hI : I.Proper n)
    (hagree : σ.Agree n τ) (hw : w = .ready ∨ w = .told)
    (hfollows : Follows src file n I code post ys) (v : Option V) (mem : M) :
    m.watchAfter src file σ I w = .away ∧ post ++ ys = code ∨
    m.watchAfter src file σ I w = .ready ∧ post = [] ∧
      SweptTo src.leaves (Laid src file n) code ys ∨
    ∃ call, m.watchAfter src file σ I w = .owes call ∧ (∀ J ∈ post, J.New n) ∧
      m.Yields (fun _ => True) (m.passed call = ·) true post
        { τ with regs := setResult τ.regs I.id v, mem } ∧
      (∀ (blocks : List Block) τ, ∃ τ', m.Skips blocks n post τ τ') ∧
      SweptTo src.leaves (Laid src file n) code ys := by
  obtain ⟨pre, hlaid, ⟨hleaves, rfl⟩ | ⟨hleaves, hswept⟩⟩ := hfollows
  · -- The walk left the block here, at a call, so nothing stands behind the instruction.
    rw [hlaid.post_of_leaves hleaves, List.nil_append]
    rcases hw with rfl | rfl <;> simp [Machine.watchAfter, hleaves]
  · have hafter : m.watchAfter src file σ I w = .ofReport (m.report file σ I) := by
      rcases hw with rfl | rfl <;> simp [Machine.watchAfter, hleaves]
    rw [hafter]
    have hyields := hlaid.yields_post hm hI.below hI.load hagree v mem
    cases hreport : m.report file σ I with
    | none => exact .inr (.inl ⟨rfl, hlaid.post_of_not_load fun ptr loc hacc => by
        simp [Machine.report, hacc] at hreport, hswept⟩)
    | some call =>
      rw [hreport] at hyields
      exact .inr (.inr ⟨call, rfl, hlaid.new_post, by simpa using hyields,
        fun _ => Machine.skips_post (.inl hlaid), hswept⟩)

/-- Behind an instruction that was executed. -/
theorem Position.behind_inst (hm : m.NoopCast) {cur : ℕ} {code ys : Block} {w : Watch V}
    (hcode : ∀ J ∈ I :: code, J.Proper n) (hagree : σ.Agree n τ) (hw : w = .ready ∨ w = .told)
    (hfollows : Follows src file n I code post ys) (v : Option V) (mem : M) :
    Position m src file n
      (.running cur (post ++ ys) { τ with regs := setResult τ.regs I.id v, mem })
      (.running cur code { σ with regs := setResult σ.regs I.id v, mem },
        m.watchAfter src file σ I w) := by
  obtain ⟨hI, hcode⟩ := List.forall_mem_cons.mp hcode
  have hagree' := hagree.set I.id v mem
  rcases hfollows.watchAfter hm hI hagree hw v mem with ⟨hafter, hys⟩ | ⟨hafter, rfl, hswept⟩ |
      ⟨call, hafter, hnew, hyields, -, hswept⟩
  · rw [hafter, hys]
    exact .away hagree' hcode
  · rw [hafter]
    exact @Position.after _ _ _ _ _ _ _ _ [] _ _ _ _ false hagree' hcode
      (List.forall_mem_nil _) rfl (fun _ => rfl) hswept
  · rw [hafter]
    exact @Position.after _ _ _ _ _ _ _ _ post _ _ _ _ true hagree' hcode hnew
      (by simpa using hyields) (by simp) hswept

/-- The control is at an instruction that the recorder can execute: `rest` follows it in the
instrumented body. -/
def AtInst (src : Source) (file : String) (n : ℕ) (I : Inst) (code rest : Block) (w : Watch V) :
    Prop :=
  w.Executes src I ∧
    (w = .away ∧ rest = code ∨ (w = .ready ∨ w = .told) ∧
      ∃ post ys, rest = post ++ ys ∧ Follows src file n I code post ys)

/-- The recorder and the instrumented body are at the same place behind the instruction. -/
theorem AtInst.position (hm : m.NoopCast) {cur : ℕ} {code rest : Block} {w : Watch V}
    (h : AtInst src file n I code rest w) (hcode : ∀ J ∈ I :: code, J.Proper n)
    (hagree : σ.Agree n τ) (v : Option V) (mem : M) :
    Position m src file n (.running cur rest { τ with regs := setResult τ.regs I.id v, mem })
      (.running cur code { σ with regs := setResult σ.regs I.id v, mem },
        m.watchAfter src file σ I w) := by
  obtain ⟨-, ⟨rfl, rfl⟩ | ⟨hw, post, ys, rfl, hfollows⟩⟩ := h
  · exact .away (hagree.set I.id v mem) fun J hJ => hcode J (List.mem_cons_of_mem _ hJ)
  · exact .behind_inst hm hcode hagree hw hfollows v mem

/-- The blocks of the original body and of the instrumented one. -/
def SweptBlock (src : Source) (file : String) (n : ℕ) (B B' : Block) : Prop :=
  (∀ I ∈ B, I.Proper n) ∧ SweptTo src.leaves (Laid src file n) B B'

/-- Where the control goes after an instruction, the recorder and the instrumented body are at the
same place, if they are so where it stays in the block. -/
theorem Lands.position {cur : ℕ} {code rest : Block} {w : Watch V} {e : Event V M}
    {s t : State V M} (hagree : σ.Agree n τ)
    (hrest : ∀ v mem, Position m src file n
      (.running cur rest { τ with regs := setResult τ.regs I.id v, mem })
      (.running cur code { σ with regs := setResult σ.regs I.id v, mem }, w))
    (h : Lands n (SweptBlock src file n) cur I.id code rest σ τ e s t) :
    Position m src file n t (s, if e.branch.isSome then .ready else w) := by
  cases h with
  | stay v mem => exact hrest v mem
  | enter v mem hB => exact .enter (hagree.regs.set _ _) hB.1 hB.2
  | done v mem => exact .done _ _ _

/-- An instruction that one machine executes in the instrumented body, it executes in the recorder.
Afterwards the two are at the same place for any machine that is the same otherwise. -/
theorem AtInst.recorder_exec {m' : Machine V M} (hm : m.NoopCast)
    (hblocks : List.Forall₂ (SweptBlock src file n) blocks blocks') {cur : ℕ} {code rest : Block}
    {w : Watch V} {e : Event V M} {t : State V M} (h : AtInst src file n I code rest w)
    (hcode : ∀ J ∈ I :: code, J.Proper n) (hagree : σ.Agree n τ)
    (hsame : m'.watchAfter src file σ I w = m.watchAfter src file σ I w)
    (hstep : m'.Step blocks' (.running cur (I :: rest) τ) e t) :
    ∃ p, m'.Recorder src file blocks (.running cur (I :: code) σ, w) (.inl e) p ∧
      e.observe n = some (.inl e) ∧ Position m src file n t p := by
  have hI := (hcode I List.mem_cons_self).below
  obtain ⟨s, hs, hlands⟩ := hstep.transfer hI hagree.symm
    fun k B' hB' => exists_getElem_left hblocks hB'
  refine ⟨_, .exec hs h.1, hlands.observe hI, ?_⟩
  rw [hsame]
  exact hlands.flip.position hagree fun v mem => h.position hm hcode hagree v mem

/-- A step of the instrumented body in the code before an instruction, or at the instruction. -/
theorem Position.step_before (hm : m.NoopCast)
    (hblocks : List.Forall₂ (SweptBlock src file n) blocks blocks')
    {cur : ℕ} {code behind ys : Block} {w : Watch V} {due : Bool} {e : Event V M} {t : State V M}
    (hagree : σ.Agree n τ) (hcode : ∀ J ∈ I :: code, J.Proper n) (hnew : ∀ J ∈ behind, J.New n)
    (hyields : m.Yields (m.Keeps src σ I)
      (fun r => (m.announcement src file σ I).map m.passed = some r) due behind τ)
    (hw : w = .ready ∧ due = src.announces I ∨ w = .told ∧ due = false)
    (hfollows : Follows src file n I code post ys)
    (hstep : m.Step blocks' (.running cur (behind ++ I :: (post ++ ys)) τ) e t) :
    ∃ os p, Run (m.Recorder src file blocks) (.running cur (I :: code) σ, w) os p ∧
      os.filterMap (fun o => some (m.shown o)) = (e.observe n).toList ∧
      Position m src file n t p := by
  cases behind with
  | nil =>
    -- All that is due was shown, so the recorder can execute the instruction as well.
    have hdue : due = false := hyields
    have hexec : w.Executes src I := by
      rcases hw with ⟨rfl, hw⟩ | ⟨rfl, -⟩
      · exact hw.symm.trans hdue
      · trivial
    have hat : AtInst src file n I code (post ++ ys) w :=
      ⟨hexec, .inr ⟨hw.imp And.left And.left, post, ys, rfl, hfollows⟩⟩
    obtain ⟨p, hp, hview, hpos⟩ := hat.recorder_exec hm hblocks hcode hagree rfl hstep
    exact ⟨[.inl e], p, .single hp, by rw [hview]; rfl, hpos⟩
  | cons J behind =>
    obtain ⟨hJ, hbehind⟩ := List.forall_mem_cons.mp hnew
    obtain ⟨τ', rfl, hagree', ⟨hview, hrest⟩ | ⟨_, hview, rfl, hcall, hrest⟩⟩ :=
      hyields.step (hagree.mem ▸ m.keeps_self src σ I) hJ.1 hagree hstep
    · exact ⟨[], _, .nil _, by rw [hview]; rfl,
        .before hagree' hcode hbehind hrest hw hfollows⟩
    · -- The probe was called, and the recorder makes the same call.
      obtain rfl : w = .ready := by
        rcases hw with ⟨hw, -⟩ | ⟨-, hw⟩
        · exact hw
        · cases hw
      obtain ⟨call, hann, rfl⟩ := Option.map_eq_some_iff.mp hcall
      exact ⟨[.inr call], _, .single (.announce hann), by rw [hview]; rfl,
        .before hagree' hcode hbehind hrest (.inr ⟨rfl, rfl⟩) hfollows⟩

/-- Every step of the instrumented body is a step of the recorder that shows the same, or shows
nothing. -/
theorem simulates_recorder (hm : m.NoopCast)
    (hblocks : List.Forall₂ (SweptBlock src file n) blocks blocks') :
    Simulates (m.Step blocks') (m.Recorder src file blocks) (Event.observe n)
      (fun o => some (m.shown o)) (Position m src file n) := by
  intro t p e t' hpos hstep
  cases hpos with
  | done v mem w => cases hstep
  | before hagree hcode hnew hyields hw hfollows =>
    exact Position.step_before hm hblocks hagree hcode hnew hyields hw hfollows hstep
  | @away cur code σ τ hagree hcode =>
    cases code with
    | nil => cases hstep
    | cons I code =>
      have hat : AtInst src file n I code code (.away : Watch V) := ⟨trivial, .inl ⟨rfl, rfl⟩⟩
      obtain ⟨p, hp, hview, hpos⟩ := hat.recorder_exec hm hblocks hcode hagree rfl hstep
      exact ⟨[.inl e], p, .single hp, by rw [hview]; rfl, hpos⟩
  | @after cur code behind ys σ τ w due hagree hcode hnew hyields hdue hswept =>
    cases behind with
    | cons J behind =>
      obtain ⟨hJ, hbehind⟩ := List.forall_mem_cons.mp hnew
      obtain ⟨τ', rfl, hagree', ⟨hview, hrest⟩ | ⟨_, hview, rfl, ⟨call, rfl, rfl⟩, hrest⟩⟩ :=
        hyields.step trivial hJ.1 hagree hstep
      · exact ⟨[], _, .nil _, by rw [hview]; rfl,
          .after hagree' hcode hbehind hrest hdue hswept⟩
      · exact ⟨[.inr call], _, .single .report, by rw [hview]; rfl,
          .after hagree' hcode hbehind (hrest.imp (fun _ => id) (by simp) τ'.mem) (fun _ => rfl)
            hswept⟩
    | nil =>
      -- The code behind the instruction is at its end, and that before the next one starts.
      obtain rfl : w = .ready := hdue hyields
      cases code with
      | nil =>
        rw [hswept.nil_inv] at hstep
        cases hstep
      | cons I code =>
        obtain ⟨pre, post, zs, rfl, hlaid, hzs⟩ := hswept.cons_inv
        have hI := hcode I List.mem_cons_self
        exact Position.step_before hm hblocks hagree hcode hlaid.new_pre
          (hlaid.yields_pre hm hI.below hagree) (.inl ⟨rfl, rfl⟩) ⟨pre, hlaid, hzs⟩ hstep

/-! ## Runs of the recorder are runs of the instrumented body -/

/-- What is announced before an instruction is due before it. -/
theorem announces_of_announcement {call : ProbeCall V}
    (h : m.announcement src file σ I = some call) : src.announces I = true := by
  unfold Machine.announcement at h
  unfold Source.announces
  split at h
  next => rfl
  next =>
    obtain ⟨s, hs, -⟩ := Option.bind_eq_some_iff.mp h
    exact Option.isSome_iff_exists.mpr ⟨s, hs⟩

/-- Where an announcement can be made, the guard of a site is in valid memory. -/
theorem guardValid_of_announcement {call : ProbeCall V}
    (h : m.announcement src file σ I = some call) :
    ∀ s, src.site I = some s → ∀ var, s.args[0]? = some var → m.GuardValid σ var s.arm.route := by
  intro s hs var hvar
  have hlock : ∃ lock, m.lockAddress σ s.args s.arm.route = some lock := by
    simp only [Machine.announcement, access_of_site hs, hs, Option.bind_some,
      Option.map_eq_some_iff] at h
    exact h.imp fun _ => And.left
  obtain ⟨lock, hlock⟩ := hlock
  cases hroute : s.arm.route with
  | argument i => trivial
  | guardValue =>
    rw [hroute, Machine.lockAddress, hvar, Option.bind_some] at hlock
    exact ⟨lock, hlock⟩
  | guardField =>
    rw [hroute, Machine.lockAddress, hvar, Option.bind_some, Option.bind_eq_some_iff] at hlock
    exact ⟨hlock.imp fun _ => And.left, lock, hlock.choose_spec.2⟩

/-- Nothing stands before an instruction that is not announced. -/
theorem Laid.pre_of_not_announces (h : Laid src file n I pre post)
    (hann : src.announces I = false) : pre = [] := by
  cases h.1 with
  | load | other => rfl
  | store hacc => simp [Source.announces, hacc] at hann
  | lock hsite => simp [Source.announces, access_of_site hsite, hsite] at hann

/-- The recorder and the instrumented body are at the same place, with nothing in between that the
recorder has passed. -/
inductive Poised (m : Machine V M) (src : Source) (file : String) (n : ℕ) (blocks' : List Block) :
    State V M × Watch V → State V M → Prop
  /-- In front of what stands before the next instruction. -/
  | ready {cur : ℕ} {code ys : Block} {σ τ : Frame V M} : σ.Agree n τ → (∀ J ∈ code, J.Proper n) →
      SweptTo src.leaves (Laid src file n) code ys →
      Poised m src file n blocks' (.running cur code σ, .ready) (.running cur ys τ)
  /-- In front of the next instruction, which was recorded. -/
  | told {cur : ℕ} {I : Inst} {code post ys : Block} {σ τ : Frame V M} : σ.Agree n τ →
      (∀ J ∈ I :: code, J.Proper n) → Follows src file n I code post ys →
      Poised m src file n blocks' (.running cur (I :: code) σ, .told)
        (.running cur (I :: (post ++ ys)) τ)
  /-- Behind a load, in front of what stands behind it. -/
  | owes {cur : ℕ} {code post ys : Block} {σ τ : Frame V M} {call : ProbeCall V} :
      σ.Agree n τ → (∀ J ∈ code, J.Proper n) → (∀ J ∈ post, J.New n) →
      m.Yields (fun _ => True) (m.passed call = ·) true post τ →
      (∀ τ, ∃ τ', m.Skips blocks' n post τ τ') → SweptTo src.leaves (Laid src file n) code ys →
      Poised m src file n blocks' (.running cur code σ, .owes call) (.running cur (post ++ ys) τ)
  /-- Where nothing was inserted, since the walk had left the block. -/
  | away {cur : ℕ} {code : Block} {σ τ : Frame V M} : σ.Agree n τ → (∀ J ∈ code, J.Proper n) →
      Poised m src file n blocks' (.running cur code σ, .away) (.running cur code τ)
  | done (v : Option V) (mem : M) (w : Watch V) :
      Poised m src file n blocks' (.done v mem, w) (.done v mem)

/-- Poised states are at the same place. -/
theorem Poised.matches {p : State V M × Watch V} {t : State V M}
    (h : Poised m src file n blocks' p t) : Matches n p.1 t := by
  cases h with
  | ready hagree hcode hswept => exact .running hagree (filter_old_swept hcode hswept)
  | @told _ I _ _ _ _ _ hagree hcode hfollows =>
    obtain ⟨hI, hcode⟩ := List.forall_mem_cons.mp hcode
    have hold : Inst.old n I = true := by simpa [Inst.old] using hI.below.1
    refine .running hagree ?_
    rw [List.filter_cons_of_pos hold, hfollows.filter_old hcode]
  | owes hagree hcode hnew _ _ hswept =>
    refine .running hagree ?_
    rw [List.filter_append, filter_old_new hnew, filter_old_swept hcode hswept, List.nil_append]
  | away hagree hcode => exact .running hagree (filter_old_proper hcode)
  | done v mem w => exact .done v mem

/-- Behind an instruction that was executed. -/
theorem Poised.behind_inst (hm : m.NoopCast) {cur : ℕ} {code ys : Block} {w : Watch V}
    (hcode : ∀ J ∈ I :: code, J.Proper n) (hagree : σ.Agree n τ) (hw : w = .ready ∨ w = .told)
    (hfollows : Follows src file n I code post ys) (v : Option V) (mem : M) :
    Poised m src file n blocks' (.running cur code { σ with regs := setResult σ.regs I.id v, mem },
        m.watchAfter src file σ I w)
      (.running cur (post ++ ys) { τ with regs := setResult τ.regs I.id v, mem }) := by
  obtain ⟨hI, hcode⟩ := List.forall_mem_cons.mp hcode
  have hagree' := hagree.set I.id v mem
  rcases hfollows.watchAfter hm hI hagree hw v mem with ⟨hafter, hys⟩ | ⟨hafter, rfl, hswept⟩ |
      ⟨call, hafter, hnew, hyields, hskips, hswept⟩
  · rw [hafter, hys]
    exact .away hagree' hcode
  · rw [hafter]
    exact .ready hagree' hcode hswept
  · rw [hafter]
    exact .owes hagree' hcode hnew hyields (hskips blocks') hswept

/-- Where the control goes after an instruction, the two are poised, if they are so where it stays
in the block. -/
theorem Lands.poised {cur : ℕ} {code rest : Block} {w : Watch V} {e : Event V M}
    {s t : State V M} (hagree : σ.Agree n τ)
    (hrest : ∀ v mem, Poised m src file n blocks'
      (.running cur code { σ with regs := setResult σ.regs I.id v, mem }, w)
      (.running cur rest { τ with regs := setResult τ.regs I.id v, mem }))
    (h : Lands n (SweptBlock src file n) cur I.id code rest σ τ e s t) :
    Poised m src file n blocks' (s, if e.branch.isSome then .ready else w) t := by
  cases h with
  | stay v mem => exact hrest v mem
  | enter v mem hB =>
    have hregs := hagree.regs.set I.id v
    exact .ready ⟨hregs, hregs, rfl, rfl⟩ hB.1 hB.2
  | done v mem => exact .done _ _ _

/-- The recorder and the instrumented body are poised behind the instruction. -/
theorem AtInst.poised (hm : m.NoopCast) {cur : ℕ} {code rest : Block} {w : Watch V}
    (h : AtInst src file n I code rest w) (hcode : ∀ J ∈ I :: code, J.Proper n)
    (hagree : σ.Agree n τ) (v : Option V) (mem : M) :
    Poised m src file n blocks' (.running cur code { σ with regs := setResult σ.regs I.id v, mem },
        m.watchAfter src file σ I w)
      (.running cur rest { τ with regs := setResult τ.regs I.id v, mem }) := by
  obtain ⟨-, ⟨rfl, rfl⟩ | ⟨hw, post, ys, rfl, hfollows⟩⟩ := h
  · exact .away (hagree.set I.id v mem) fun J hJ => hcode J (List.mem_cons_of_mem _ hJ)
  · exact .behind_inst hm hcode hagree hw hfollows v mem

/-- An instruction that one machine executes in the recorder, it executes in the instrumented body.
Afterwards the two are poised for any machine that is the same otherwise. -/
theorem AtInst.instrumented_exec {m' : Machine V M} (hm : m.NoopCast)
    (hblocks : List.Forall₂ (SweptBlock src file n) blocks blocks') {cur : ℕ} {code rest : Block}
    {w : Watch V} {e : Event V M} {s : State V M} (h : AtInst src file n I code rest w)
    (hcode : ∀ J ∈ I :: code, J.Proper n) (hagree : σ.Agree n τ)
    (hsame : m'.watchAfter src file σ I w = m.watchAfter src file σ I w)
    (hstep : m'.Step blocks (.running cur (I :: code) σ) e s) :
    ∃ t, m'.Step blocks' (.running cur (I :: rest) τ) e t ∧ e.observe n = some (.inl e) ∧
      Poised m src file n blocks'
        (s, if e.branch.isSome then .ready else m'.watchAfter src file σ I w) t := by
  have hI := (hcode I List.mem_cons_self).below
  obtain ⟨t, ht, hlands⟩ := hstep.transfer hI hagree
    fun k B hB => exists_getElem_right hblocks hB
  refine ⟨t, ht, hlands.observe hI, ?_⟩
  rw [hsame]
  exact hlands.poised hagree fun v mem => h.poised hm hcode hagree v mem

/-- Every step of the recorder is answered by steps of the instrumented body that show the same. -/
theorem recorder_simulates (hm : m.NoopCast)
    (hblocks : List.Forall₂ (SweptBlock src file n) blocks blocks') :
    Simulates (m.Recorder src file blocks) (m.Step blocks') (fun o => some (m.shown o))
      (Event.observe n) (Poised m src file n blocks') := by
  intro p t o p' hpoised hstep
  cases hstep with
  | @announce cur I code σ call hcall =>
    cases hpoised with
    | @ready _ _ ys _ τ hagree hcode hswept =>
      obtain ⟨pre, post, zs, rfl, hlaid, hzs⟩ := hswept.cons_inv
      have hI := hcode I List.mem_cons_self
      have hyields := hlaid.yields_pre hm hI.below hagree
      rw [announces_of_announcement hcall] at hyields
      obtain ⟨τ', hskips⟩ : ∃ τ', m.Skips blocks' n pre τ τ' :=
        Machine.skips_pre (.inl hlaid) hI.below hagree (guardValid_of_announcement hcall)
      obtain ⟨es, call', hrun, hcall', hview⟩ :=
        hyields.of_skips (hagree.mem ▸ m.keeps_self src σ I) (fun J hJ => (hlaid.new_pre J hJ).1)
          hskips
      rw [hcall, Option.map_some, Option.some.injEq] at hcall'
      refine ⟨es, _, hrun, ?_, .told (hagree.trans hskips.agree) hcode ⟨pre, hlaid, hzs⟩⟩
      rw [hview, ← hcall']
      rfl
  | report =>
    cases hpoised with
    | owes hagree hcode hnew hyields hskips hswept =>
      obtain ⟨τ', hskip⟩ := hskips _
      obtain ⟨es, call', hrun, rfl, hview⟩ :=
        hyields.of_skips trivial (fun J hJ => (hnew J hJ).1) hskip
      exact ⟨es, _, hrun, hview, .ready (hagree.trans hskip.agree) hcode hswept⟩
  | @exec cur I code σ w e s hexec hw =>
    cases hpoised with
    | ready hagree hcode hswept =>
      obtain ⟨pre, post, zs, rfl, hlaid, hzs⟩ := hswept.cons_inv
      rw [hlaid.pre_of_not_announces hw, List.nil_append]
      have hat : AtInst src file n I code (post ++ zs) (.ready : Watch V) :=
        ⟨hw, .inr ⟨.inl rfl, post, zs, rfl, pre, hlaid, hzs⟩⟩
      obtain ⟨t, ht, hview, hpoised⟩ := hat.instrumented_exec hm hblocks hcode hagree rfl hexec
      exact ⟨[e], t, .single ht, by simp [hview, Machine.shown], hpoised⟩
    | @told _ _ _ post ys _ τ hagree hcode hfollows =>
      have hat : AtInst src file n I code (post ++ ys) (.told : Watch V) :=
        ⟨hw, .inr ⟨.inr rfl, post, ys, rfl, hfollows⟩⟩
      obtain ⟨t, ht, hview, hpoised⟩ := hat.instrumented_exec hm hblocks hcode hagree rfl hexec
      exact ⟨[e], t, .single ht, by simp [hview, Machine.shown], hpoised⟩
    | owes => cases hw
    | away hagree hcode =>
      have hat : AtInst src file n I code code (.away : Watch V) := ⟨trivial, .inl ⟨rfl, rfl⟩⟩
      obtain ⟨t, ht, hview, hpoised⟩ := hat.instrumented_exec hm hblocks hcode hagree rfl hexec
      exact ⟨[e], t, .single ht, by simp [hview, Machine.shown], hpoised⟩

/-! ## The instrumented body -/

/-- The instrumented body does what the recorder does. From the start of any block, with any
registers and memory: what a run of the instrumented body shows, by its original instructions and by
the probes that the new ones call, is what a run of the recorder shows, and what a run of the
recorder shows is what a run of the instrumented body shows. They end at the same place of the
original body. -/
theorem Source.walk_records (m : Machine V M) (hm : m.NoopCast) (src : Source) (file : String)
    (F : Body) (hload : ∀ B ∈ F.blocks, ∀ I ∈ B, ∀ ptr, I.op = .load ptr → I.id ∉ ptr.regs)
    (out : ℕ × List Block) (h : src.Walks file F.next F.blocks out) (k prev : ℕ) (regs : ℕ → V)
    (mem : M) (B B' : Block) (hB : F.blocks[k]? = some B) (hB' : out.2[k]? = some B') :
    (∀ es t, Run (m.Step out.2) (.enter B' prev k regs mem) es t →
      ∃ os s w, Run (m.Recorder src file F.blocks) (.enter B prev k regs mem, .ready) os (s, w) ∧
        es.filterMap (Event.observe F.next) = os.map m.shown ∧ Matches F.next s t) ∧
    ∀ os s w, Run (m.Recorder src file F.blocks) (.enter B prev k regs mem, .ready) os (s, w) →
      ∃ es t, Run (m.Step out.2) (.enter B' prev k regs mem) es t ∧
        es.filterMap (Event.observe F.next) = os.map m.shown ∧ Matches F.next s t := by
  have hproper : ∀ B ∈ F.blocks, ∀ I ∈ B, I.Proper F.next := fun B hB I hI =>
    ⟨F.below B hB I hI, hload B hB I hI⟩
  have hblocks : List.Forall₂ (SweptBlock src file F.next) F.blocks out.2 :=
    (List.forall₂_and_left _ _).mpr ⟨hproper, h.sweptTo⟩
  obtain ⟨B₁, hB₁, hcode, hswept⟩ := exists_getElem_right hblocks hB
  obtain rfl : B' = B₁ := Option.some.inj (hB'.symm.trans hB₁)
  have hregs : AgreeBelow F.next regs regs := fun _ _ => rfl
  constructor
  · intro es t hrun
    obtain ⟨os, ⟨s, w⟩, hos, hview, hpos⟩ := (simulates_recorder hm hblocks).run
      (@Position.enter V M m F.next src file B B' prev k regs regs mem hregs hcode hswept) hrun
    rw [List.filterMap_eq_map'] at hview
    exact ⟨os, s, w, hos, hview.symm, hpos.matches⟩
  · intro os s w hrun
    have hstart : Poised m src file F.next out.2 (.enter B prev k regs mem, .ready)
        (.enter B' prev k regs mem) := .ready ⟨hregs, hregs, rfl, rfl⟩ hcode hswept
    obtain ⟨es, t, hes, hview, hpoised⟩ := (recorder_simulates hm hblocks).run hstart hrun
    rw [List.filterMap_eq_map'] at hview
    exact ⟨es, t, hes, hview, hpoised.matches⟩

/-- The word that a constant is. Bitcasts and field addresses keep it. -/
def Const.word : Const → ℕ
  | .int value => value.toNat
  | .str _ | .global _ => 0
  | .bitcast c _ | .structGep c => c.word

/-- Words in a flat memory, with the constants as words. -/
def wordMachine : Machine ℕ (ℕ → Option ℕ) := { flatMachine with const := fun c _ => c.word }

/-- What the recorder shows of `releaseBody`: the probe calls of the store and of the drop of the
guard, each before what it records. -/
def releaseRecord : List (Event ℕ (ℕ → Option ℕ) ⊕ ProbeCall ℕ) :=
  .inr (.probe 8 "/src/lock.rs".toList .store 32) ::
    (releaseRun.take 1).map .inl ++
    .inr (.probeLock 9 "/src/lock.rs".toList .callWriteUnlock 48) :: (releaseRun.drop 1).map .inl

/-- The recorder on `releaseBody`. -/
theorem recorder_release {B : Block} (hB : releaseBody.blocks[0]? = some B) :
    ∃ w, Run (wordMachine.Recorder .helloWorldCpp "/src/lock.rs" releaseBody.blocks)
      (.enter B 0 0 releaseRegs releaseMem, .ready) releaseRecord
      (.done (some 0) releasedMem, w) := by
  obtain rfl := Option.some.inj hB
  refine ⟨.ready, .cons (.announce rfl) (.cons (.exec_ready (.next (.store rfl rfl)) trivial
    (by simp) rfl rfl) (.cons (.announce ?_) (.cons (.exec_ready
      (.next (.returned_direct rfl rfl rfl)) trivial (by simp) (by decide +kernel) rfl)
        (.single (.exec_ready (.exit (.other rfl ⟨rfl, rfl⟩)) rfl (by simp) rfl rfl)))))⟩
  -- The drop is announced with the address in the guard.
  rw [Machine.announcement, site_release]
  rfl

/-- `releaseBody` on words, instrumented by `HelloWorld.cpp`: it shows what the recorder shows, and
nothing else. -/
theorem Source.walk_records_releaseBody : ∃ out : ℕ × List Block,
    Source.helloWorldCpp.Walks "/src/lock.rs" 5 releaseBody.blocks out ∧
    ∀ B B' : Block, releaseBody.blocks[0]? = some B → out.2[0]? = some B' →
      (∃ es t, Run (wordMachine.Step out.2) (.enter B' 0 0 releaseRegs releaseMem) es t ∧
        es.filterMap (Event.observe 5) = releaseRecord.map wordMachine.shown ∧
        Matches 5 (.done (some 0) releasedMem) t) ∧
      ∀ es t, Run (wordMachine.Step out.2) (.enter B' 0 0 releaseRegs releaseMem) es t →
        ∃ os s w, Run (wordMachine.Recorder .helloWorldCpp "/src/lock.rs" releaseBody.blocks)
          (.enter B 0 0 releaseRegs releaseMem, .ready) os (s, w) ∧
          es.filterMap (Event.observe 5) = os.map wordMachine.shown ∧ Matches 5 s t := by
  have hnoop : wordMachine.NoopCast := ⟨fun _ => rfl, fun _ _ => rfl⟩
  have hload : ∀ B ∈ releaseBody.blocks, ∀ I ∈ B, ∀ ptr, I.op = .load ptr → I.id ∉ ptr.regs := by
    simp [releaseBody, guardPtr, Value.regs]
  obtain ⟨out, hout⟩ := walks_release
  refine ⟨out, hout, fun B B' hB hB' => ?_⟩
  obtain ⟨hback, hforth⟩ := Source.walk_records wordMachine hnoop .helloWorldCpp "/src/lock.rs"
    releaseBody hload out hout 0 0 releaseRegs releaseMem B B' hB hB'
  obtain ⟨w, hrun⟩ := recorder_release hB
  exact ⟨hforth _ _ w hrun, hback⟩

end AtomicityViolation
