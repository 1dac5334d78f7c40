import BpfTv.Lifter.AtomicSemantics
import BpfTv.Lifter.CallSemantics
import BpfTv.Lifter.FunctionRuns
import BpfTv.Lifter.ProgramInsns
import BpfTv.Lifter.ReturnContract

/-!
# What the region of an instruction does

The region written for an instruction of a byte program does what the BPF machine does with it
(`insn_region`). `Represents` relates the two states: the same registers and the same memory, and a call
of a helper for each call of the machine.
-/

namespace BpfTv

open Control Emit

variable {χ : Type} {env : Env} {W : World} {H : Helpers} {c : Fin 12 → BitVec 64} {i : Insn} {l : String}
  {I : MCInst} {r : Region} {s s' : LState} {rt rt' : Rt} {shown : χ → String × List RVal}
  {act : BpfState χ → Except (BpfOutcome χ) (BpfState χ)} {test : BpfState χ → Bool}
  {helper : Int → BpfState χ → BpfState χ}

/-! ## The world -/

theorem store_world {v : RVal} {p : Ptr} (h : rt.store v p = .ok rt') : rt'.world = rt.world := by
  have hint : ∀ {x : Except Trap (BitVec 64)} {q : Fin 12}, x.map (rt.setReg q) = .ok rt' →
      rt'.world = rt.world := by
    intro x q hx
    cases x with
    | error e => cases hx
    | ok y => cases hx; rfl
  unfold Rt.store at h
  split at h
  · split at h
    · cases h; rfl
    · exact hint h
  · cases h; rfl
  · cases h
  · split at h <;> cases h <;> rfl

theorem exec_world {i : Instr} (h : i.exec rt = .ok rt') : rt'.world = rt.world := by
  have hset : ∀ {x : Except Trap RVal} {id : Nat}, (x >>= fun v => Except.ok (rt.set id v)) = .ok rt' →
      rt'.world = rt.world := by
    intro x id hx
    obtain ⟨v, _, hx⟩ := except_bind_ok hx
    cases hx
    rfl
  obtain ⟨id, op⟩ := i
  cases op with
  | bin o a b => exact hset h
  | icmp p a b => exact hset h
  | cast o v w => exact hset h
  | bswap v => exact hset h
  | gep base idx =>
    obtain ⟨p, _, h⟩ := except_bind_ok h
    obtain ⟨a, _, h⟩ := except_bind_ok h
    obtain ⟨x, _, h⟩ := except_bind_ok h
    cases h
    rfl
  | inttoptr v =>
    obtain ⟨x, _, h⟩ := except_bind_ok h
    cases h
    rfl
  | ptrtoint v =>
    obtain ⟨p, _, h⟩ := except_bind_ok h
    obtain ⟨a, _, h⟩ := except_bind_ok h
    cases h
    rfl
  | alloca =>
    cases h
    rfl
  | load ty p =>
    obtain ⟨q, _, h⟩ := except_bind_ok h
    exact hset h
  | store v p =>
    obtain ⟨x, _, h⟩ := except_bind_ok h
    obtain ⟨q, _, h⟩ := except_bind_ok h
    exact store_world h
  | atomicrmw o p v align =>
    obtain ⟨q, _, h⟩ := except_bind_ok h
    obtain ⟨a, _, h⟩ := except_bind_ok h
    obtain ⟨_, _, h⟩ := except_bind_ok h
    obtain ⟨⟨old, mem⟩, _, h⟩ := except_bind_ok h
    cases h
    rfl
  | cmpxchg p e n align =>
    obtain ⟨q, _, h⟩ := except_bind_ok h
    obtain ⟨a, _, h⟩ := except_bind_ok h
    obtain ⟨_, _, h⟩ := except_bind_ok h
    obtain ⟨⟨old, mem⟩, _, h⟩ := except_bind_ok h
    cases h
    rfl
  | extract0 v =>
    obtain ⟨x, _, h⟩ := except_bind_ok h
    cases x <;> cases h
    rfl
  | call callee ret args nr src =>
    obtain ⟨vs, _, h⟩ := except_bind_ok h
    cases h
    rfl
  | trap => cases h

theorem runs_world {x y : Cfg Rt} (h : r.Runs ir x y) : y.st.world = x.st.world := by
  induction h with
  | refl => rfl
  | @tail y z _ hstep ih =>
    rw [← ih]
    unfold Code.step at hstep
    split at hstep
    · cases hstep
    · split at hstep
      · rename_i i _
        cases hx : ir.exec i y.st with
        | error e => rw [hx] at hstep; cases hstep
        | ok rt₁ =>
          rw [hx] at hstep
          cases hstep
          exact exec_world hx
      · split at hstep
        · split at hstep
          · cases hstep
          · rename_i t _
            cases hj : ir.jump t y.st with
            | error e => rw [hj] at hstep; cases hstep
            | ok k =>
              rw [hj] at hstep
              cases k with
              | none => cases hstep
              | some k => cases hstep; rfl
        · cases hstep

/-! ## States -/

/-- The callees of the world are the helpers. -/
def World.Hosts (W : World) (H : Helpers) : Prop := ∀ id args mem,
  W.callee (helperName id) (args.map .int) mem = (.int (H id args mem).1, (H id args mem).2)

/-- The call of the lifted function for a call of a helper. -/
def HelperCall.lifted (c : HelperCall) : String × List RVal := (helperName c.1, c.2.map .int)

/-- The lifted function stands where the machine does; `shown` gives its calls. -/
structure Represents (W : World) (shown : χ → String × List RVal) (m : BpfState χ) (rt : Rt) : Prop where
  world : rt.world = W
  regs : rt.regs = m.regs
  mem : rt.mem = m.mem
  calls : rt.calls = m.calls.map shown

/-- What `doReturn` computes from `r0` for an integer result. -/
def Env.retInt (env : Env) (w : Nat) (r0 : BitVec 64) : RVal :=
  if env.has_ret_attr && env.origRetWidth < 32 then .int ((r0.setWidth 32).setWidth 64)
  else if w < 64 then .int (r0.setWidth w)
  else .int r0

/-- What is returned for `r0`. -/
def Env.retVal (env : Env) (r0 : BitVec 64) : Option RVal :=
  match env.srcRetTy with
  | .void => none
  | .ptr => some (.ptr (.flat r0))
  | ty => some (env.retInt ty.bitWidth r0)

/-- How the lifted function ends. -/
def Env.outcome (env : Env) (shown : χ → String × List RVal) : BpfOutcome χ → Outcome
  | .returned r0 mem calls => .returned (env.retVal r0) mem (calls.map shown)
  | .unaligned | .aborted => .trapped .ub

/-- The region does what the machine does with an instruction, `act` with its state and `test` for its
condition: it traps, or it is left behind its end, by a branch on the condition or by a return of the value
for `r0`. -/
def Region.Executes (r : Region) (env : Env) (W : World) (shown : χ → String × List RVal)
    (act : BpfState χ → Except (BpfOutcome χ) (BpfState χ)) (test : BpfState χ → Bool) : Prop :=
  ∀ m rt, Represents W shown m rt →
    match act m with
    | .error o => env.outcome shown o = .trapped .ub ∧ ∃ y, r.Runs ir ⟨0, 0, rt⟩ y ∧ r.step ir y = .error .ub
    | .ok m' => ∃ rt', r.Runs ir ⟨0, 0, rt⟩ (r.endCfg rt') ∧ r.step ir (r.endCfg rt') = .ok none ∧
        Represents W shown m' rt' ∧
        (∀ v t f, r.term = some (.condBr v t f) → v.evalInt rt' 1 = .ok (BitVec.ofBool (test m'))) ∧
        ∀ v, r.term = some (.ret v) → Option.Rel (fun u x => u.eval rt' = .ok x) v (env.retVal (m'.regs 0))

/-! ## Regions and weakest preconditions -/

theorem region_wlp {f : LiftM Unit} {Q : Unit → LState → Rt → Prop} (h : (region none f).run s = .ok (r, s'))
    (hf : f.wlp { s with code := Code.fresh } rt Q) :
    r = s'.code ∧ ∃ rt', r.Runs ir ⟨0, 0, rt⟩ (r.endCfg rt') ∧ rt'.world = rt.world ∧ Q () s' rt' := by
  obtain ⟨hrun, rfl⟩ := region_run h
  obtain ⟨rt', hseg, hq⟩ := hf () s' hrun
  have hruns : s'.code.Runs ir ⟨0, 0, rt⟩ (s'.code.endCfg rt') := hseg.runs _ (Code.Le.refl _)
  exact ⟨rfl, rt', hruns, runs_world hruns, hq⟩

theorem lift_congr {J : MCInst} (hop : I.opcode = J.opcode) (hops : I.operands = J.operands)
    (hne : I.opcode ≠ .JAL) : lift env I = lift env J := by
  obtain ⟨op, ops, loc, place⟩ := I
  obtain ⟨op', ops', loc', place'⟩ := J
  obtain rfl : op = op' := hop
  obtain rfl : ops = ops' := hops
  cases op <;> first | rfl | exact absurd rfl hne

/-! ## Instructions that go on behind their code -/

theorem executes_of_open {f : LiftM Unit} (h : (region none f).run s = .ok (r, s'))
    (hwlp : ∀ m rt, Represents W shown m rt → ∃ m', act m = .ok m' ∧
      f.wlp { s with code := Code.fresh } rt fun _ s' rt' => s'.code.Open ∧ rt'.regs = m'.regs ∧
        rt'.mem = m'.mem ∧ rt'.calls = m'.calls.map shown) : r.Executes env W shown act test := by
  intro m rt hm
  obtain ⟨m', hexec, hw⟩ := hwlp m rt hm
  obtain ⟨rfl, rt', hruns, hworld, hopen, hregs, hmem, hcalls⟩ := region_wlp h hw
  rw [hexec]
  refine ⟨rt', hruns, hopen.step_end rt', ⟨hworld.trans hm.world, hregs, hmem, hcalls⟩, ?_, ?_⟩
  · intro v t f ht
    rw [hopen.term] at ht
    cases ht
  · intro v ht
    rw [hopen.term] at ht
    cases ht

theorem executes_reg {i : RegInsn} (h : (region none (lift env i.mc)).run s = .ok (r, s')) :
    r.Executes env W shown ((Insn.reg i).exec helper) test := by
  refine executes_of_open h fun m rt hm => ⟨_, rfl, Emit.wlp_of_wp ?_⟩
  refine Emit.wp_mono (regInsn_wp env i Code.open_fresh rt) ?_
  rintro _ s₁ rt₁ hw
  refine ⟨hw.isOpen, ?_, hw.mem_eq.trans hm.mem, hw.calls_eq.trans hm.calls⟩
  rw [hw.regs_eq, hm.regs]
  rfl

theorem executes_mem {i : MemInsn} (h : (region none (lift env i.mc)).run s = .ok (r, s')) :
    r.Executes env W shown ((Insn.mem i).exec helper) test := by
  refine executes_of_open h fun m rt hm => ⟨_, rfl, Emit.wlp_of_wp ?_⟩
  refine Emit.wp_mono (memInsn_wp env i Code.open_fresh rt) ?_
  rintro _ s₁ rt₁ ⟨hopen, hregs, hmem, hcalls⟩
  rw [hm.regs, hm.mem] at hregs hmem
  exact ⟨hopen, hregs, hmem, hcalls.trans hm.calls⟩

theorem executes_atomic {i : AtomicInsn} (h : (region none (lift env i.mc)).run s = .ok (r, s')) :
    r.Executes env W shown ((Insn.atomic i).exec helper) test := by
  intro m rt hm
  by_cases ha : i.bytes ∣ (i.address m.regs).toNat
  · have hexec : (Insn.atomic i).exec helper m =
        .ok { m with regs := i.regs m.regs m.mem, mem := i.mem m.regs m.mem } := if_pos ha
    have hwp := atomicInsn_wp env i Code.open_fresh (s := { s with code := Code.fresh }) rt (hm.regs ▸ ha)
    obtain ⟨rfl, rt', hruns, hworld, hu⟩ := region_wlp h (Emit.wlp_of_wp hwp)
    have hregs := hu.regs_eq
    have hmem := hu.mem_eq
    rw [hm.regs, hm.mem] at hregs hmem
    rw [hexec]
    refine ⟨rt', hruns, hu.isOpen.step_end rt', ⟨hworld.trans hm.world, hregs, hmem,
      hu.calls_eq.trans hm.calls⟩, ?_, ?_⟩
    · intro v t f ht
      rw [hu.isOpen.term] at ht
      cases ht
    · intro v ht
      rw [hu.isOpen.term] at ht
      cases ht
  · have hexec : (Insn.atomic i).exec helper m = .error .unaligned := if_neg ha
    rw [hexec]
    obtain ⟨hrun, rfl⟩ := region_run h
    have htraps := atomicInsn_traps env i Code.open_fresh (s := { s with code := Code.fresh }) rt (hm.regs ▸ ha)
    obtain ⟨_, y, hy⟩ := htraps () s' hrun
    exact ⟨rfl, y, hy _ (Code.Le.refl _)⟩

/-! ## Calls -/

theorem args_hosted (regs : Regs) : argsOf (List.replicate 5 (.int 64)) regs = (argRegs regs).map .int := by
  have harg : ∀ y : BitVec 64, argOf (.int 64) y = .int y := fun y => by rw [argOf, BitVec.setWidth_eq]
  simp only [argsOf, List.replicate, List.mapIdx_cons, List.mapIdx_nil, harg]
  rfl

theorem afterCall_of_frame {x : BitVec 64} (hzero : rt'.regs 0 = x)
    (hcaller : ∀ j < 5, rt'.regs (argReg j) = c (argReg j)) (hcallee : ∀ q : Fin 12, 6 ≤ q → rt'.regs q = rt.regs q) :
    rt'.regs = afterCall rt.regs x c := by
  funext q
  unfold afterCall
  by_cases h0 : q = 0
  · rw [if_pos h0, h0, hzero]
  rw [if_neg h0]
  by_cases h5 : q ≤ 5
  · rw [if_pos h5]
    have hval : q.val ≤ 5 := h5
    have hne : q.val ≠ 0 := fun h => h0 (Fin.ext h)
    obtain ⟨j, hj, rfl⟩ : ∃ j < 5, argReg j = q :=
      ⟨q.val - 1, by omega, Fin.ext ((Nat.mod_eq_of_lt (by omega)).trans (by omega))⟩
    exact hcaller j hj
  · rw [if_neg h5]
    refine hcallee q ?_
    have hval : ¬q.val ≤ 5 := h5
    show 6 ≤ q.val
    omega

theorem lift_helperCall {id : Int} (hop : I.opcode = .JAL) (hops : I.operands = [.imm id]) :
    lift env I = doHelperCall env I id := by
  have hget : I.getOperand 0 = .ok (.imm id) := getOperand_ok.mpr (by rw [hops]; rfl)
  unfold lift jal
  rw [hop, hget]
  rfl

/-- A helper call leaves `c` in the caller-saved registers when `c` is the unspecified state that the
code reads. -/
theorem executes_call {id : BitVec 32} (hbytes : env.bytesMode = true) (hW : W.Hosts H)
    (h : (region none (doHelperCall env I id.toInt)).run s = .ok (r, s'))
    (hc : ∀ j < 5, c (argReg j) = W.junk (s.unspecifiedOff + 8 * j) 64) {test : BpfState HelperCall → Bool} :
    r.Executes env W HelperCall.lifted ((Insn.call id).exec (H.call c)) test := by
  refine executes_of_open h fun m rt hm => ⟨_, rfl, ?_⟩
  have hargs : (CallSite.helper env hbytes I id.toInt).args rt.regs = (argRegs m.regs).map .int := by
    rw [hm.regs, ← args_hosted]
    rfl
  have hres : (CallSite.helper env hbytes I id.toInt).result rt =
      (.int (H id.toInt (argRegs m.regs) m.mem).1, (H id.toInt (argRegs m.regs) m.mem).2) := by
    rw [CallSite.result, hargs, Rt.result, hm.world, hm.mem]
    exact hW _ _ _
  have hty : ((CallSite.helper env hbytes I id.toInt).result rt).1.HasTy (.int 64) := by
    rw [hres]
    exact .int (by decide) _
  refine Emit.wlp_mono (doHelperCall_wlp hbytes I id.toInt Code.open_fresh hty) ?_
  rintro _ s₁ rt₁ ⟨hafter, _⟩
  have hf := hafter.frame
  have hzero : rt₁.regs 0 = (H id.toInt (argRegs m.regs) m.mem).1 := by
    rw [hf.result, hres]
    exact enforced_full false false (H id.toInt (argRegs m.regs) m.mem).1 _
  refine ⟨hafter.isOpen, ?_, ?_, ?_⟩
  · have hregs : rt₁.regs = afterCall rt.regs (H id.toInt (argRegs m.regs) m.mem).1 c := by
      refine afterCall_of_frame hzero (fun j hj => ?_) hf.calleeSaved
      rw [hf.callerSaved j hj, hc j hj, hm.world]
      rfl
    rw [hregs, hm.regs]
    rfl
  · rw [hf.mem, hres]
    rfl
  · rw [hf.calls, hargs, hm.calls]
    simp only [Helpers.call, List.map_append, List.map_cons, List.map_nil]
    rfl

/-! ## Instructions that end a block -/

theorem executes_bare (hact : ∀ m, act m = .ok m) (h : Bare r) : r.Executes env W shown act test := by
  intro m rt hm
  rw [hact]
  cases h with
  | empty => exact ⟨rt, .refl, rfl, hm, nofun, nofun⟩
  | jump k => exact ⟨rt, .refl, rfl, hm, nofun, nofun⟩

theorem executes_jmp {op : JmpOp} {w : Width} {dst : Fin 12} {src : Src} {off : BitVec 16}
    (h : (region none (lift env (JmpInsn.mk op w dst src l).mc)).run s = .ok (r, s')) :
    r.Executes env W shown ((Insn.jmp op w dst src off).exec helper)
      fun m => (Insn.jmp op w dst src off).taken m.regs := by
  intro m rt hm
  obtain ⟨hrun, rfl⟩ := region_run h
  obtain ⟨rt', v, tf, hseg, _, hterm, hv, hregs, hmem, hcalls⟩ :=
    jmpInsn_lift env (JmpInsn.mk op w dst src l) Code.open_fresh hrun rt
  have hruns : s'.code.Runs ir ⟨0, 0, rt⟩ (s'.code.endCfg rt') := hseg.runs _ (Code.Le.refl _)
  have hleave : ir.jump (.condBr v (.bb tf.1) (.bb tf.2)) rt' = .ok none := by
    have hj := condBr_jump (t := .bb tf.1) (f := .bb tf.2) hv
    rwa [show (if (JmpInsn.mk op w dst src l).taken rt.regs then (Target.bb tf.1).local?
      else (Target.bb tf.2).local?) = none from ite_self none] at hj
  refine ⟨rt', hruns, Code.step_leave hterm hleave, ⟨(runs_world hruns).trans hm.world, hregs.trans hm.regs,
    hmem.trans hm.mem, hcalls.trans hm.calls⟩, ?_, ?_⟩
  · intro v' t f ht
    rw [hterm] at ht
    cases ht
    show v.evalInt rt' 1 = .ok (BitVec.ofBool ((Insn.jmp op w dst src off).taken m.regs))
    rw [← hm.regs, Value.evalInt, hv]
    exact toInt_int (BitVec.ofBool ((JmpInsn.mk op w dst src l).taken rt.regs))
  · intro u ht
    rw [hterm] at ht
    cases ht

theorem maskRet_wlp {bw : Nat} {v : Value} {y : BitVec 64} (hopen : s.code.Open)
    (hv : s.Has rt v (if bw < 64 then .int (y.setWidth bw) else .int y))
    (ht : v.ty = .int (if bw < 64 then bw else 64)) :
    (maskRet env bw v).wlp s rt fun u s' rt' => u.eval rt' = .ok (env.retInt bw y) ∧ Quiet s rt s' rt' := by
  unfold maskRet Env.retInt
  split
  · refine wlp_assert fun _ => wlp_assert fun hbw => Emit.wlp_of_wp ?_
    subst hbw
    refine Emit.wp_mono ((trunc_computes hopen ht hv (by decide)).then fun a s₂ rt₂ ha hta q₂ =>
      zext_computes q₂.isOpen hta ha (by decide)) ?_
    rintro u s₃ rt₃ ⟨hu, _, q⟩
    exact ⟨hu.eval, q⟩
  · exact Emit.wlp_pure ⟨hv.eval, Quiet.refl hopen⟩

theorem retInt_wlp (bw : Nat) (hopen : s.code.Open) : (do
      let retVal ← readReg64 (.R 0)
      let retVal ← (if bw < retVal.bitWidth then createTrunc retVal bw else pure retVal : LiftM Value)
      maskRet env bw retVal : LiftM Value).wlp s rt fun u s' rt' => u.eval rt' = .ok (env.retInt bw (rt.regs 0)) ∧
        Quiet s rt s' rt' := by
  refine Emit.wlp_bind (Emit.wlp_mono (Emit.wlp_of_wp (readReg64_computes hopen (.R 0))) ?_)
  rintro v s₁ rt₁ ⟨hv, htv, q⟩
  rw [bitWidth_int htv]
  by_cases hbw : bw < 64
  · rw [if_pos hbw]
    refine Emit.wlp_bind (Emit.wlp_mono (Emit.wlp_of_wp (trunc_computes q.isOpen htv hv hbw.le)) ?_)
    rintro u s₂ rt₂ ⟨hu, htu, q₂⟩
    refine Emit.wlp_mono (maskRet_wlp (y := rt.regs 0) q₂.isOpen (by rwa [if_pos hbw])
      (by rwa [if_pos hbw])) ?_
    exact fun _ _ _ ⟨hx, q₃⟩ => ⟨hx, (q.trans q₂).trans q₃⟩
  · rw [if_neg hbw, pure_bind]
    refine Emit.wlp_mono (maskRet_wlp (y := rt.regs 0) q.isOpen (by rwa [if_neg hbw])
      (by rwa [if_neg hbw])) ?_
    exact fun _ _ _ ⟨hx, q₃⟩ => ⟨hx, q.trans q₃⟩

/-- `s'` is left by a return of the value for `r0`. -/
def Returns (env : Env) (rt : Rt) (s' : LState) (rt' : Rt) : Prop :=
  ∃ v, s'.code.term = some (.ret v) ∧ rt'.regs = rt.regs ∧ rt'.mem = rt.mem ∧ rt'.calls = rt.calls ∧
    Option.Rel (fun u x => u.eval rt' = .ok x) v (env.retVal (rt.regs 0))

theorem createReturn_wlp {s₁ : LState} {rt₁ : Rt} {v : Option Value} (q : Quiet s rt s₁ rt₁)
    (hv : Option.Rel (fun u x => u.eval rt₁ = .ok x) v (env.retVal (rt.regs 0))) :
    (createReturn v).wlp s₁ rt₁ fun _ s' rt' => Returns env rt s' rt' :=
  Emit.wlp_of_wp (Emit.wp_close q.isOpen (terminate_run q.isOpen _) rfl
    ⟨v, q.isOpen.term_close _, q.regs_eq, q.mem_eq, q.calls_eq, hv⟩)

theorem doReturn_wlp (hopen : s.code.Open) :
    (doReturn env).wlp s rt fun _ s' rt' => Returns env rt s' rt' := by
  have hsome : ∀ {m : LiftM Value} {x : RVal}, env.retVal (rt.regs 0) = some x →
      (m.wlp s rt fun u s' rt' => u.eval rt' = .ok x ∧ Quiet s rt s' rt') →
      (m >>= fun u => createReturn (some u)).wlp s rt fun _ s' rt' => Returns env rt s' rt' := by
    intro m x hx hm
    refine Emit.wlp_bind (Emit.wlp_mono hm ?_)
    rintro u s₁ rt₁ ⟨hu, q⟩
    exact createReturn_wlp q (hx ▸ .some hu)
  have hint : ∀ w, (doReturn env = do
      let retVal ← readReg64 (.R 0)
      let retVal ← (if w < retVal.bitWidth then createTrunc retVal w else pure retVal : LiftM Value)
      let retVal ← maskRet env w retVal
      createReturn (some retVal)) → env.retVal (rt.regs 0) = some (env.retInt w (rt.regs 0)) →
      (doReturn env).wlp s rt fun _ s' rt' => Returns env rt s' rt' := by
    intro w hret hval
    have h := hsome hval (retInt_wlp w hopen)
    simp only [bind_assoc] at h
    rwa [hret]
  cases hty : env.srcRetTy with
  | void =>
    have hret : doReturn env = createReturn none := by rw [doReturn, hty]
    rw [hret]
    exact createReturn_wlp (Quiet.refl hopen) (by rw [Env.retVal, hty]; exact .none)
  | ptr =>
    have hret : doReturn env = (readReg64 (.R 0) >>= createIntToPtr) >>= fun u => createReturn (some u) := by
      rw [doReturn, hty, bind_assoc]
    rw [hret]
    refine hsome (by rw [Env.retVal, hty]) (Emit.wlp_mono (Emit.wlp_of_wp
      ((readReg64_computes hopen (.R 0)).then fun v s₁ rt₁ hv _ q => inttoptr_computes q.isOpen hv)) ?_)
    exact fun u s₁ rt₁ ⟨hu, _, q⟩ => ⟨hu.eval, q⟩
  | int w => exact hint w (by rw [doReturn, hty]; rfl) (by rw [Env.retVal, hty]; rfl)
  | cmpxchg w => exact hint 0 (by rw [doReturn, hty]; rfl) (by rw [Env.retVal, hty]; rfl)
  | aggregate => exact hint 0 (by rw [doReturn, hty]; rfl) (by rw [Env.retVal, hty]; rfl)

theorem executes_exit (h : (region none (doReturn env)).run s = .ok (r, s')) (hact : ∀ m, act m = .ok m) :
    r.Executes env W shown act test := by
  intro m rt hm
  have hwlp : (doReturn env).wlp { s with code := Code.fresh } rt fun _ s' rt' => Returns env rt s' rt' :=
    doReturn_wlp Code.open_fresh
  obtain ⟨rfl, rt', hruns, hworld, v, hterm, hregs, hmem, hcalls, hv⟩ := region_wlp h hwlp
  rw [hact]
  refine ⟨rt', hruns, Code.step_leave hterm rfl, ⟨hworld.trans hm.world, hregs.trans hm.regs,
    hmem.trans hm.mem, hcalls.trans hm.calls⟩, ?_, ?_⟩
  · intro v' t f ht
    rw [hterm] at ht
    cases ht
  · intro u ht
    rw [hterm] at ht
    cases ht
    rwa [← hm.regs]

/-! ## All instructions -/

/-- **What the region of an instruction does** that is no call. -/
theorem insn_region (hop : I.opcode = i.opcode) (hops : I.operands = i.labelled l) (hne : i.opcode ≠ .JAL)
    (h : (region none (lift env I)).run s = .ok (r, s')) :
    r.Executes env W shown (i.exec helper) fun m => i.taken m.regs := by
  have hlift : ∀ {J : MCInst}, J.opcode = i.opcode → J.operands = i.labelled l →
      (region none (lift env J)).run s = .ok (r, s') := by
    intro J hJ hJs
    rwa [lift_congr (hJ.trans hop.symm) (hJs.trans hops.symm) (hJ ▸ hne)]
  cases i with
  | reg i => exact executes_reg (hlift (J := i.mc) rfl rfl)
  | mem i => exact executes_mem (hlift (J := i.mc) rfl rfl)
  | atomic i => exact executes_atomic (hlift (J := i.mc) rfl rfl)
  | jmp op w dst src off => exact executes_jmp (l := l) (hlift rfl rfl)
  | ja off => exact executes_bare (fun _ => rfl) (bare_jump (hop ▸ rfl) h)
  | gotol off => exact executes_bare (fun _ => rfl) (bare_jump (hop ▸ rfl) h)
  | call id => exact absurd rfl hne
  | exit =>
    have hret : lift env I = doReturn env := by
      unfold lift
      rw [hop]
      rfl
    rw [hret] at h
    exact executes_exit h fun _ => rfl
  | nop => exact executes_bare (fun _ => rfl) (bare_nop hop h)

end BpfTv
