import AtomicityViolation.Pass.Recorder

/-!
# What inserted code shows

The code that the walk puts around an instruction calls one probe if the instruction is to be
recorded there, and none if it is not, and the probe is passed what the recorder says
(`Laid.yields_pre`, `Laid.yields_post`). The operand of the bitcast is the address, so this asks
that a bitcast to `i8*` changes no bits (`Machine.NoopCast`). Other threads may change the memory
before each of the instructions, as long as they leave the guard that the code reads
(`Machine.Keeps`).
-/

namespace AtomicityViolation

open Transition (Run)

variable {V M : Type*}

/-- A bitcast to `i8*` changes no bits, and neither does one that is folded into a constant. -/
structure Machine.NoopCast (m : Machine V M) : Prop where
  /-- Of a register. -/
  reg : ∀ v, m.cast ptrTy v = v
  /-- Of a constant. -/
  const : ∀ c ty, m.const (.bitcast c ptrTy) ptrTy = m.const c ty

/-! ## What inserted code shows -/

/-- Executed from the frame `τ`, however it goes and whatever memory of `Rely` other threads leave
before each instruction, the code leaves the memory as it is and goes on to its end. If something is
due it calls one probe, which is passed what `Q` says, and else none. -/
def Machine.Yields (m : Machine V M) (Rely : M → Prop) (Q : Passed V → Prop) :
    Bool → Block → Frame V M → Prop
  | due, [], _ => due = false
  | due, J :: code, τ => ∀ mem c o, Rely mem → m.Exec { τ with mem } J c o →
      ∃ v, o = .next v mem ∧ match c.bind Called.passed with
      | none => Yields m Rely Q due code { τ with regs := setResult τ.regs J.id v }
      | some call => due = true ∧ Q call ∧
          Yields m Rely Q false code { τ with regs := setResult τ.regs J.id v }

namespace Machine

variable {m : Machine V M} {Rely Rely' : M → Prop} {Q Q' : Passed V → Prop} {due : Bool}
  {code : Block} {τ : Frame V M} {J : Inst}

/-- It may be asked of fewer memories, and less of a call if one is due. -/
theorem Yields.imp (h : m.Yields Rely Q due code τ) (hrely : ∀ mem, Rely' mem → Rely mem)
    (hQ : due = true → ∀ call, Q call → Q' call) (mem : M) :
    m.Yields Rely' Q' due code { τ with mem } := by
  induction code generalizing τ due with
  | nil => exact h
  | cons J code ih =>
    intro mem' c o hmem hexec
    obtain ⟨v, ho, hrest⟩ := h mem' c o (hrely mem' hmem) hexec
    refine ⟨v, ho, ?_⟩
    cases hcall : c.bind Called.passed with
    | none =>
      rw [hcall] at hrest
      exact ih hrest hQ
    | some call =>
      rw [hcall] at hrest
      exact ⟨hrest.1, hQ hrest.1 call hrest.2.1, ih hrest.2.2 (by simp)⟩

/-- A bitcast shows nothing. -/
theorem yields_bitcast {v : Value} (hop : J.op = .bitcast v)
    (h : m.Yields Rely Q due code
      { τ with regs := setResult τ.regs J.id (some (m.cast J.ty (m.eval τ.regs v))) }) :
    m.Yields Rely Q due (J :: code) τ := by
  intro mem c o hmem hexec
  cases hexec <;> simp_all

/-- A load shows nothing, and it is only executed where the address is valid. -/
theorem yields_load {ptr : Value} (hop : J.op = .load ptr)
    (h : ∀ mem v, Rely mem → m.load J.ty (m.eval τ.regs ptr) mem = some v →
      m.Yields Rely Q due code { τ with regs := setResult τ.regs J.id (some v) }) :
    m.Yields Rely Q due (J :: code) τ := by
  intro mem c o hmem hexec
  cases hexec <;> simp_all
  exact h mem _ hmem ‹_›

/-- A field address shows nothing. -/
theorem yields_structGep {ptr : Value} (hop : J.op = .structGep ptr)
    (h : m.Yields Rely Q due code
      { τ with regs := setResult τ.regs J.id (some (m.field0 J.ty (m.eval τ.regs ptr))) }) :
    m.Yields Rely Q due (J :: code) τ := by
  intro mem c o hmem hexec
  cases hexec <;> simp_all

/-- The call of a probe shows that call. -/
theorem yields_probe {f file : String} {loc : Line} {op : Op} {addr : Value}
    (hprobe : J.Probes f loc file op addr) (hf : isProbe f = true)
    (hQ : Q (m.passedTo f loc file op (m.eval τ.regs addr))) : m.Yields Rely Q true [J] τ := by
  intro mem c o _ hexec
  have hop : J.op = .call (.direct f) (probeArgs loc file op.text addr) := hprobe
  cases hexec with
  | @callReturned _ _ v mem' hop' hres =>
    rw [hop] at hop'
    cases hop'
    -- The probe leaves the memory as it is.
    obtain ⟨w, hw⟩ := m.probe_silent _ _ _ _ hf hres
    obtain ⟨rfl, rfl⟩ : v = w ∧ mem' = mem := by simpa using hw
    refine ⟨_, rfl, ?_⟩
    have hcall : Called.passed ⟨m.target τ.regs (.direct f),
        (probeArgs loc file op.text addr).map (m.eval τ.regs), .returned v mem'⟩ =
          some (m.passedTo f loc file op (m.eval τ.regs addr)) := by
      simp [Called.passed, target, hf, probeArgs, passedTo, eval]
    rw [Option.bind_some, hcall]
    exact ⟨rfl, hQ, rfl⟩
  | callUnwound hop' hres =>
    rw [hop] at hop'
    cases hop'
    obtain ⟨v, hv⟩ := m.probe_silent _ _ _ _ hf hres
    cases hv
  | store hop' | load hop' | bitcast hop' | structGep hop' | phi hop' | invokeReturned hop'
  | invokeUnwound hop' | other hop' =>
    rw [hop] at hop'
    cases hop'

/-- The register of a result that was set. -/
theorem eval_setResult (r : ℕ → V) (id : ℕ) (ty : Ty) (v : V) :
    m.eval (setResult r id (some v)) (.reg id ty) = v := by
  rw [eval, setResult, Function.update_self]

/-- A cast computes its operand. -/
theorem yields_cast (hm : m.NoopCast) {v addr : Value} {cast rest : List Inst}
    (h : CastOf v cast addr)
    (hrest : ∀ τ', m.eval τ'.regs addr = m.eval τ.regs v → m.Yields Rely Q due rest τ') :
    m.Yields Rely Q due (cast ++ rest) τ := by
  cases h with
  | same => exact hrest τ rfl
  | folded hv =>
    subst hv
    exact hrest τ (hm.const _ _)
  | inst hop hty =>
    refine yields_bitcast hop (hrest _ ?_)
    rw [eval_setResult, hty, hm.reg]

variable {n : ℕ} {src : Source} {file : String} {σ : Frame V M} {I : Inst}
  {pre post : List Inst}

/-- A cast and the call of a probe show the call with the operand of the cast. -/
theorem yields_access (hm : m.NoopCast) {v addr : Value} {cast : List Inst} {probe : Inst}
    {f file : String} {loc : Line} {op : Op} (hcast : CastOf v cast addr)
    (hprobe : probe.Probes f loc file op addr) (hf : isProbe f = true)
    (hQ : Q (m.passedTo f loc file op (m.eval τ.regs v))) :
    m.Yields Rely Q true (cast ++ [probe]) τ := by
  refine yields_cast hm hcast fun τ' haddr => yields_probe hprobe hf ?_
  rwa [haddr]

/-- The address of a field depends on the registers that are read for it. -/
theorem fieldAddress_congr {r r' : ℕ → V} (h : AgreeBelow n r r') {var : Value}
    (hvar : ∀ i ∈ var.regs, i < n) : m.fieldAddress r var = m.fieldAddress r' var := by
  cases var with
  | const c ty => rfl
  | reg id ty => rw [fieldAddress, fieldAddress, h id (hvar id (List.mem_singleton.mpr rfl))]

/-- What a route reads through `var` is the same in the memory `mem`. -/
def GuardKept (m : Machine V M) (σ : Frame V M) (mem : M) (var : Value) : Route → Prop
  | .argument _ => True
  | .guardValue => m.load var.ty.elementType (m.eval σ.regs var) mem =
      m.load var.ty.elementType (m.eval σ.regs var) σ.mem
  | .guardField => m.load var.ty.elementType (m.eval σ.regs var) mem =
        m.load var.ty.elementType (m.eval σ.regs var) σ.mem ∧
      m.load var.ty.elementType.field0 (m.fieldAddress σ.regs var) mem =
        m.load var.ty.elementType.field0 (m.fieldAddress σ.regs var) σ.mem

/-- The instructions of a route compute the address of the lock, if other threads leave the
guard. -/
theorem yields_route {args : List Value} {r : Route} {insts rest : List Inst} {lock : Value}
    (h : RouteOf args r insts lock) (hnew : ∀ J ∈ insts, n ≤ J.id)
    (hargs : ∀ i ∈ args.flatMap Value.regs, i < n) (hagree : AgreeBelow n σ.regs τ.regs)
    (hkept : ∀ mem, Rely mem → ∀ var, args[0]? = some var → m.GuardKept σ mem var r)
    (hrest : ∀ τ', m.lockAddress σ args r = some (m.eval τ'.regs lock) →
      m.Yields Rely Q due rest τ') : m.Yields Rely Q due (insts ++ rest) τ := by
  have hregs : ∀ {i : ℕ} {var}, args[i]? = some var → ∀ j ∈ var.regs, j < n := fun hvar j hj =>
    hargs j (List.mem_flatMap.mpr ⟨_, List.mem_of_getElem? hvar, hj⟩)
  cases h with
  | argument hvar =>
    refine hrest τ ?_
    rw [lockAddress, hvar, Option.map_some, eval_congr hagree (hregs hvar)]
  | @guardValue var J hvar hop hty =>
    refine yields_load hop fun mem v hmem hv => hrest _ ?_
    have hsame := hkept mem hmem var hvar
    rw [← eval_congr hagree (hregs hvar), hty, hsame] at hv
    rw [lockAddress, hvar, Option.bind_some, hv, eval_setResult]
  | @guardField var lockPtr J K gep hvar hJ hJty hgep hK hKty =>
    have hJnew := hnew J List.mem_cons_self
    refine yields_load hJ fun mem v hmem hv => ?_
    obtain ⟨hsame, -⟩ := hkept mem hmem var hvar
    rw [← eval_congr hagree (hregs hvar), hJty, hsame] at hv
    -- The registers of the argument are as they were, though the guard was loaded.
    have hagree₁ : AgreeBelow n σ.regs (setResult τ.regs J.id (some v)) := hagree.set_right hJnew _
    -- The last load reads the lock through the address of the field.
    have hlast : ∀ τ' : Frame V M,
        m.eval τ'.regs lockPtr = m.fieldAddress (setResult τ.regs J.id (some v)) var →
        m.Yields Rely Q due ([K] ++ rest) τ' := by
      intro τ' hptr
      refine yields_load hK fun mem w hmem hw => hrest _ ?_
      obtain ⟨-, hsame⟩ := hkept mem hmem var hvar
      rw [hptr, ← fieldAddress_congr hagree₁ (hregs hvar), hKty, hsame] at hw
      rw [lockAddress, hvar, Option.bind_some, hv, Option.bind_some, hw, eval_setResult]
    change m.Yields Rely Q due ((gep ++ [K]) ++ rest) _
    rw [List.append_assoc]
    cases hgep with
    | folded hc =>
      subst hc
      exact hlast _ rfl
    | @inst id ty G hreg hG hGty =>
      subst hreg
      refine yields_structGep hG (hlast _ ?_)
      rw [← hGty, eval_setResult, hGty]
      rfl

end Machine

variable {n : ℕ} {src : Source} {file : String} {I : Inst} {pre post : List Inst}

/-- A lock operation is neither a load nor a store. -/
theorem access_of_site {s : Site} (h : src.site I = some s) : I.access = none := by
  cases src <;> unfold Source.site site at h <;> unfold Inst.access <;>
    cases hop : I.op <;> simp [hop] at h ⊢

/-- The pointer operand of a load or store is an operand. -/
theorem regs_of_access {op : Op} {ptr : Value} {loc : Line} (h : I.access = some (op, ptr, loc)) :
    ∀ i ∈ ptr.regs, i ∈ I.op.regs := by
  intro i hi
  unfold Inst.access at h
  split at h
  next val ptr' loc' hop _ =>
    obtain ⟨-, rfl, -⟩ : Op.store = op ∧ ptr' = ptr ∧ loc' = loc := by simpa using h
    rw [hop]
    exact List.mem_append_right _ hi
  next ptr' loc' hop _ =>
    obtain ⟨-, rfl, -⟩ : Op.load = op ∧ ptr' = ptr ∧ loc' = loc := by simpa using h
    rw [hop]
    exact hi
  next => cases h

/-- An access that is recorded as a load is one. -/
theorem op_of_access_load {ptr : Value} {loc : Line} (h : I.access = some (.load, ptr, loc)) :
    I.op = .load ptr := by
  unfold Inst.access at h
  split at h <;> simp_all

/-- The walk leaves a block at a call, which is no access. -/
theorem access_of_leaves (h : src.leaves I = true) : I.access = none := by
  cases src with
  | functionCpp => cases h
  | helloWorldCpp =>
    unfold Source.leaves at h
    unfold Inst.access
    cases hop : I.op <;> simp [hop] at h ⊢

/-- Something is put behind loads only. -/
theorem Laid.post_of_not_load (h : Laid src file n I pre post)
    (hload : ∀ ptr loc, I.access ≠ some (.load, ptr, loc)) : post = [] := by
  cases h.1 with
  | store | lock | other => rfl
  | load hacc => exact absurd hacc (hload _ _)

/-- Nothing is put behind the call at which the walk leaves a block. -/
theorem Laid.post_of_leaves (h : Laid src file n I pre post) (hleaves : src.leaves I = true) :
    post = [] :=
  h.post_of_not_load fun ptr loc => by simp [access_of_leaves hleaves]

variable {m : Machine V M} {σ τ : Frame V M}

/-- At a site, the guard that the walk reads is the same in the memory `mem`. -/
def Machine.Keeps (m : Machine V M) (src : Source) (σ : Frame V M) (I : Inst) (mem : M) : Prop :=
  ∀ s, src.site I = some s → ∀ var, s.args[0]? = some var → m.GuardKept σ mem var s.arm.route

/-- The memory itself keeps the guard. -/
theorem Machine.keeps_self (m : Machine V M) (src : Source) (σ : Frame V M) (I : Inst) :
    m.Keeps src σ I σ.mem := by
  intro s _ var _
  cases s.arm.route with
  | argument => trivial
  | guardValue => rfl
  | guardField => exact ⟨rfl, rfl⟩

/-- What stands before an instruction shows the probe call of the instruction, if other threads
leave the guard that it reads. -/
theorem Laid.yields_pre (hm : m.NoopCast) (h : Laid src file n I pre post) (hI : I.Below n)
    (hagree : σ.Agree n τ) :
    m.Yields (m.Keeps src σ I) (fun r => (m.announcement src file σ I).map m.passed = some r)
      (src.announces I) pre τ := by
  obtain ⟨hshape, hnew⟩ := h
  cases hshape with
  | @store ptr addr loc cast probe hacc hcast hprobe =>
    have hptr : m.eval σ.regs ptr = m.eval τ.regs ptr :=
      Machine.eval_congr hagree.regs fun i hi => hI.2 i (regs_of_access hacc i hi)
    rw [show src.announces I = true by simp [Source.announces, hacc]]
    refine Machine.yields_access hm hcast hprobe (by decide) ?_
    simp [Machine.announcement, Machine.passed, hacc, hptr]
  | @load ptr addr loc cast probe hacc hcast hprobe =>
    have hsite : src.site I = none := by
      by_contra hsome
      obtain ⟨s, hs⟩ := Option.ne_none_iff_exists'.mp hsome
      rw [access_of_site hs] at hacc
      cases hacc
    simp [Machine.Yields, Source.announces, hacc, hsite]
  | @lock s lock addr route cast probe hsite hroute hcast hprobe =>
    rw [List.append_nil, List.forall_mem_append] at hnew
    have hacc := access_of_site hsite
    rw [show src.announces I = true by simp [Source.announces, hacc, hsite]]
    refine Machine.yields_route hroute hnew.1 (fun i hi => hI.2 i (site_regs hsite i hi))
      hagree.regs (fun mem hmem => hmem s hsite)
      fun τ' hlock => Machine.yields_access hm hcast hprobe (by decide) ?_
    simp [Machine.announcement, Machine.passed, hacc, hsite, hlock]
  | other hacc hsite => simp [Machine.Yields, Source.announces, hacc, hsite]

/-- What stands behind an instruction shows the probe call that is due after it, whatever other
threads do. -/
theorem Laid.yields_post (hm : m.NoopCast) (h : Laid src file n I pre post) (hI : I.Below n)
    (hself : ∀ ptr, I.op = .load ptr → I.id ∉ ptr.regs) (hagree : σ.Agree n τ) (v : Option V)
    (mem : M) : m.Yields (fun _ => True) (fun r => (m.report file σ I).map m.passed = some r)
      (m.report file σ I).isSome post { τ with regs := setResult τ.regs I.id v, mem } := by
  obtain ⟨hshape, -⟩ := h
  cases hshape with
  | store hacc | other hacc => simp [Machine.Yields, Machine.report, hacc]
  | lock hsite => simp [Machine.Yields, Machine.report, access_of_site hsite]
  | @load ptr addr loc cast probe hacc hcast hprobe =>
    have hptr : m.eval σ.regs ptr = m.eval (setResult τ.regs I.id v) ptr := by
      -- The result of the load is not its own address.
      have hid := hself ptr (op_of_access_load hacc)
      have hregs := regs_of_access hacc
      cases ptr with
      | const c ty => rfl
      | reg id ty =>
        have hne : id ≠ I.id := by simpa [Value.regs, eq_comm] using hid
        have hold : σ.regs id = τ.regs id :=
          hagree.regs id (hI.2 id (hregs id (List.mem_singleton.mpr rfl)))
        cases v with
        | none => exact hold
        | some v => simp [Machine.eval, setResult, hne, hold]
    have hdue : (m.report file σ I).isSome = true := by simp [Machine.report, hacc]
    rw [hdue]
    refine Machine.yields_access hm hcast hprobe (by decide) ?_
    simp [Machine.report, Machine.passed, hacc, hptr]

/-! ## Steps and runs of inserted code -/

variable {blocks : List Block}

/-- A step at inserted code: it goes on to what follows, and shows a probe call only if one is
due. -/
theorem Machine.Yields.step {Rely : M → Prop} {Q : Passed V → Prop} {due : Bool} {J : Inst}
    {cur : ℕ} {code rest : Block} {e : Event V M} {t : State V M}
    (h : m.Yields Rely Q due (J :: code) τ) (hrely : Rely τ.mem) (hJ : n ≤ J.id)
    (hagree : σ.Agree n τ) (hstep : m.Step blocks (.running cur (J :: rest) τ) e t) :
    ∃ τ', t = .running cur rest τ' ∧ σ.Agree n τ' ∧
      (e.observe n = none ∧ m.Yields Rely Q due code τ' ∨
        ∃ call, e.observe n = some (.inr call) ∧ due = true ∧ Q call ∧
          m.Yields Rely Q false code τ') := by
  cases hstep with
  | @next _ _ _ _ c _ _ hexec =>
    obtain ⟨v, ho, hrest⟩ := h _ _ _ hrely hexec
    simp only [Outcome.next.injEq] at ho
    obtain ⟨rfl, rfl⟩ := ho
    refine ⟨_, rfl, ⟨hagree.regs.set_right hJ _, hagree.entry, hagree.prev, hagree.mem⟩, ?_⟩
    have hview : ∀ mem, Event.observe n ⟨J.id, c, none, mem⟩ =
        (c.bind Called.passed).map .inr := by
      intro mem
      rw [Event.observe, if_neg (by simpa using hJ)]
    rw [hview]
    cases hcall : c.bind Called.passed with
    | none =>
      rw [hcall] at hrest
      exact .inl ⟨rfl, hrest⟩
    | some call =>
      rw [hcall] at hrest
      exact .inr ⟨call, rfl, hrest⟩
  | jump hexec | exit hexec =>
    obtain ⟨v, ho, -⟩ := h _ _ _ hrely hexec
    cases ho

/-- What inserted code shows when it is executed to its end, whatever stands behind it. -/
theorem Machine.Yields.run {Rely : M → Prop} {Q : Passed V → Prop} {due : Bool} {cur : ℕ}
    {code : Block} {es : List (Event V M)} {τ τ' : Frame V M} (h : m.Yields Rely Q due code τ)
    (hrely : Rely τ.mem) (hnew : ∀ J ∈ code, n ≤ J.id)
    (hrun : Run (m.Step blocks) (.running cur code τ) es (.running cur [] τ')) :
    (∀ rest, Run (m.Step blocks) (.running cur (code ++ rest) τ) es (.running cur rest τ')) ∧
      (due = false ∧ es.filterMap (Event.observe n) = [] ∨
        ∃ call, due = true ∧ Q call ∧ es.filterMap (Event.observe n) = [.inr call]) := by
  induction code generalizing τ due es with
  | nil =>
    cases hrun with
    | nil => exact ⟨fun rest => .nil _, .inl ⟨h, rfl⟩⟩
    | cons hstep _ => cases hstep
  | cons J code ih =>
    obtain ⟨hJ, hcode⟩ := List.forall_mem_cons.mp hnew
    cases hrun with
    | @cons _ t _ e es hstep hrest =>
      -- The same step is taken with more code behind.
      have hlift : ∀ rest, ∃ τ₁, t = .running cur code τ₁ ∧
          m.Step blocks (.running cur (J :: code ++ rest) τ) e
            (.running cur (code ++ rest) τ₁) := by
        intro rest
        cases hstep with
        | next hexec => exact ⟨_, rfl, .next hexec⟩
        | jump hexec | exit hexec =>
          obtain ⟨v, ho, -⟩ := h _ _ _ hrely hexec
          cases ho
      obtain ⟨τ₁, rfl, hagree, hshow⟩ :=
        h.step hrely hJ ⟨fun _ _ => rfl, fun _ _ => rfl, rfl, rfl⟩ hstep
      have hrely₁ : Rely τ₁.mem := hagree.mem ▸ hrely
      have hfirst : ∀ rest, m.Step blocks (.running cur (J :: code ++ rest) τ) e
          (.running cur (code ++ rest) τ₁) := by
        intro rest
        obtain ⟨τ₂, heq, hstep'⟩ := hlift rest
        cases heq
        exact hstep'
      rcases hshow with ⟨hview, hyields⟩ | ⟨call, hview, rfl, hQ, hyields⟩
      · obtain ⟨hruns, hshown⟩ := ih hyields hrely₁ hcode hrest
        refine ⟨fun rest => .cons (hfirst rest) (hruns rest), ?_⟩
        rwa [List.filterMap_cons, hview]
      · obtain ⟨hruns, ⟨-, hshown⟩ | ⟨call', hfalse, -⟩⟩ := ih hyields hrely₁ hcode hrest
        · refine ⟨fun rest => .cons (hfirst rest) (hruns rest), .inr ⟨call, rfl, hQ, ?_⟩⟩
          rw [List.filterMap_cons, hview, hshown]
        · cases hfalse

/-- Code that can be passed over shows what it yields. -/
theorem Machine.Yields.of_skips {Rely : M → Prop} {Q : Passed V → Prop} {cur : ℕ}
    {code rest : Block} {τ τ' : Frame V M} (h : m.Yields Rely Q true code τ) (hrely : Rely τ.mem)
    (hnew : ∀ J ∈ code, n ≤ J.id)
    (hskips : m.Skips blocks n code τ τ') :
    ∃ es call, Run (m.Step blocks) (.running cur (code ++ rest) τ) es (.running cur rest τ') ∧
      Q call ∧ es.filterMap (Event.observe n) = [.inr call] := by
  obtain ⟨es, hrun, -⟩ := hskips.run cur []
  rw [List.append_nil] at hrun
  obtain ⟨hruns, ⟨hfalse, -⟩ | ⟨call, -, hQ, hview⟩⟩ := h.run hrely hnew hrun
  · cases hfalse
  · exact ⟨es, call, hruns rest, hQ, hview⟩

end AtomicityViolation
