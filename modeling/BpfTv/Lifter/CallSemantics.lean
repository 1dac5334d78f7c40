import Mathlib.Data.List.Forall2
import BpfTv.Lifter.CallingConvention
import BpfTv.Lifter.MemorySemantics
import BpfTv.Mc.Blocks

/-!
# Call semantics

The code of a call passes the argument registers, keeps `r6`-`r10`, puts the result in `r0`, and
fills the caller-saved registers with unspecified values (`call_frame`). `CallSite` covers `doCall`
and the calls of helpers in bytes mode; `Effect` accumulates what the code written so far has done
to the registers, to memory and to the list of calls.
-/

namespace BpfTv

variable {α β : Type} {s s₁ s₂ s' : LState} {rt rt₁ rt₂ rt' : Rt} {v : Value} {x : RVal} {t : Ty}

/-! ## Effects -/

/-- The registers, the memory and the calls are now the given ones. -/
structure Effect (s : LState) (rt : Rt) (regs : Regs) (mem : Mem) (calls : List (String × List RVal))
    (s' : LState) (rt' : Rt) : Prop extends Later s rt s' rt' where
  regs_eq : rt'.regs = regs
  mem_eq : rt'.mem = mem
  calls_eq : rt'.calls = calls

section effect

variable {regs : Regs} {mem : Mem} {calls : List (String × List RVal)}

theorem Effect.trans {regs' : Regs} {mem' : Mem} {calls' : List (String × List RVal)}
    (h : Effect s rt regs mem calls s₁ rt₁) (h' : Effect s₁ rt₁ regs' mem' calls' s₂ rt₂) :
    Effect s rt regs' mem' calls' s₂ rt₂ :=
  ⟨h.toLater.trans h'.toLater, h'.regs_eq, h'.mem_eq, h'.calls_eq⟩

theorem Effect.writes {dst : Fin 12} {y : BitVec 64} (h : Effect s rt regs mem calls s₁ rt₁)
    (h' : Writes s₁ rt₁ dst y s₂ rt₂) :
    Effect s rt (Function.update regs dst y) mem calls s₂ rt₂ where
  toLater := h.toLater.trans h'.toLater
  regs_eq := by rw [h'.regs_eq, h.regs_eq]
  mem_eq := h'.mem_eq.trans h.mem_eq
  calls_eq := h'.calls_eq.trans h.calls_eq

end effect

/-! ## Arguments -/

/-- The register of argument `i`. -/
def argReg (i : Nat) : Fin 12 := Fin.ofNat 12 (1 + i)

/-- An argument: the low bits of its register, or the register as an address. -/
def argOf (ty : Ty) (y : BitVec 64) : RVal :=
  match ty with
  | .int w => .int (y.setWidth w)
  | _ => .ptr (.flat y)

/-- The arguments of a call with parameters of these types. -/
def argsOf (params : List Ty) (regs : Regs) : List RVal :=
  params.mapIdx fun i ty => argOf ty (regs (argReg i))

theorem inttoptr_computes {y : BitVec 64} (hopen : s.code.Open) (hv : s.Has rt v (.int y)) :
    Computes (createIntToPtr v) s rt (.ptr (.flat y)) .ptr := by
  refine emit_computes hopen ?_
  simp only [Instr.exec, hv.evalInt]
  rfl

theorem ptrtoint_computes {a : BitVec 64} (hopen : s.code.Open) (hv : s.Has rt v (.ptr (.flat a))) :
    Computes (createPtrToInt v) s rt (.int a) (.int 64) := by
  refine emit_computes hopen ?_
  simp only [Instr.exec, hv.evalPtr]
  rfl

theorem marshallParam_gives {y : BitVec 64} (ht : v.ty = .int 64) (ty : Ty) (hopen : s.code.Open)
    (hv : s.Has rt v (.int y)) :
    (marshallParam ty v).wlp s rt fun u s' rt' =>
      (s'.Has rt' u (argOf ty y) ∧ Quiet s rt s' rt') ∧ s'.unspecifiedOff = s.unspecifiedOff := by
  cases ty with
  | int w =>
    refine wlp_assert fun hle => ?_
    have hg := (truncIf_computes hle hopen ht hv).gives (Sat.ite (sameOff_trunc v w) (sameOff_pure v))
    exact Emit.wlp_mono hg fun _ _ _ ⟨⟨hu, _, q⟩, hoff⟩ => ⟨⟨hu, q⟩, hoff⟩
  | _ =>
    have hg := (inttoptr_computes hopen hv).gives (sameOff_emit _ _)
    exact Emit.wlp_mono hg fun _ _ _ ⟨⟨hu, _, q⟩, hoff⟩ => ⟨⟨hu, q⟩, hoff⟩

theorem marshallParams_wlp (params : List Ty) (n : Nat) (hopen : s.code.Open) :
    (marshallParams n params).wlp s rt fun vs s' rt' =>
      (List.Forall₂ (s'.Has rt') vs
        (params.mapIdx fun i ty => argOf ty (rt.regs (argReg (n + i)))) ∧ Quiet s rt s' rt') ∧
        s'.unspecifiedOff = s.unspecifiedOff := by
  induction params generalizing n s rt with
  | nil => exact Emit.wlp_pure ⟨⟨List.Forall₂.nil, Quiet.refl hopen⟩, rfl⟩
  | cons ty rest ih =>
    have hstep : ∀ h : n < 5, (do
        let param ← readReg64 (.R ⟨1 + n, by omega⟩)
        let param ← marshallParam ty param
        let args ← marshallParams (n + 1) rest
        return param :: args).wlp s rt fun vs s' rt' =>
          (List.Forall₂ (s'.Has rt') vs
            ((ty :: rest).mapIdx fun i ty => argOf ty (rt.regs (argReg (n + i)))) ∧
            Quiet s rt s' rt') ∧ s'.unspecifiedOff = s.unspecifiedOff := by
      intro h
      have hreg : argReg (n + 0) = ⟨1 + n, by omega⟩ := Fin.ext (Nat.mod_eq_of_lt (by omega))
      rw [List.mapIdx_cons, hreg]
      refine ((readReg64_computes hopen _).gives (sameOff_emit _ _)).bind fun r s₁ rt₁ hr htr q₁ o₁ => ?_
      refine Emit.wlp_bind (Emit.wlp_mono (marshallParam_gives htr ty q₁.isOpen hr) ?_)
      rintro u s₂ rt₂ ⟨⟨hu, q₂⟩, o₂⟩
      refine Emit.wlp_bind (Emit.wlp_mono (ih (n + 1) q₂.isOpen) ?_)
      rintro vs s₃ rt₃ ⟨⟨hvs, q₃⟩, o₃⟩
      have hrest : (rest.mapIdx fun i ty => argOf ty (rt₂.regs (argReg (n + 1 + i)))) =
          rest.mapIdx fun i ty => argOf ty (rt.regs (argReg (n + (i + 1)))) := by
        rw [q₂.regs_eq, q₁.regs_eq]
        simp only [Nat.add_assoc, Nat.add_comm 1]
      rw [hrest] at hvs
      refine Emit.wlp_pure ⟨⟨List.Forall₂.cons (hu.later q₃.toLater) hvs, (q₁.trans q₂).trans q₃⟩, ?_⟩
      omega
    by_cases h : n < 5
    · cases ty with
      | int w => simpa only [marshallParams, dif_pos h] using hstep h
      | ptr => simpa only [marshallParams, dif_pos h] using hstep h
      | _ => exact Emit.wlp_of_error rfl
    · cases ty with
      | int w =>
        simp only [marshallParams, dif_neg h]
        exact Emit.wlp_of_error rfl
      | ptr =>
        simp only [marshallParams, dif_neg h]
        exact Emit.wlp_of_error rfl
      | _ => exact Emit.wlp_of_error rfl

/-- The arguments with the constant flag of a memory intrinsic. -/
def withFlag (flag : Bool) (xs : List RVal) : List RVal :=
  if flag then xs.set 3 (.int (BitVec.ofBool false)) else xs

theorem forall₂_set {vs : List Value} {xs : List RVal} (h : List.Forall₂ (s.Has rt) vs xs) (i : Nat)
    (hv : s.Has rt v x) : List.Forall₂ (s.Has rt) (vs.set i v) (xs.set i x) := by
  induction h generalizing i with
  | nil => exact List.Forall₂.nil
  | cons hd tl ih =>
    cases i with
    | zero => exact List.Forall₂.cons hv tl
    | succ i => exact List.Forall₂.cons hd (ih i)

theorem addImmediateFlag_wlp {vs : List Value} {xs : List RVal} (name : String)
    (h : List.Forall₂ (s.Has rt) vs xs) {Q : List Value → LState → Rt → Prop}
    (hq : ∀ us, List.Forall₂ (s.Has rt) us (withFlag (name ∈ immediateFlagIntrinsics) xs) → Q us s rt) :
    (addImmediateFlag name vs).wlp s rt Q := by
  unfold addImmediateFlag
  unfold withFlag at hq
  by_cases hname : name ∈ immediateFlagIntrinsics
  · rw [if_pos hname]
    rw [decide_eq_true hname, if_pos rfl] at hq
    exact wlp_assert fun _ => Emit.wlp_pure (hq _ (forall₂_set h 3 (has_const s rt _)))
  · rw [if_neg hname]
    rw [decide_eq_false hname, if_neg Bool.false_ne_true] at hq
    exact Emit.wlp_pure (hq vs h)

/-! ## The call itself -/

theorem mapM_eval {vs : List Value} {xs : List RVal} (h : List.Forall₂ (s.Has rt) vs xs) :
    vs.mapM (Value.eval rt) = .ok xs := by
  induction h with
  | nil => rfl
  | cons hd _ ih =>
    rw [List.mapM_cons, hd.eval, ih]
    rfl

/-- What the callee does. -/
def Rt.result (rt : Rt) (callee : String) (xs : List RVal) : RVal × Mem :=
  rt.world.callee callee xs rt.mem

theorem call_wlp {callee : String} {ty : Ty} {vs : List Value} {xs : List RVal} {nr : Bool}
    {src : Option CallInst} (hopen : s.code.Open) (h : List.Forall₂ (s.Has rt) vs xs) :
    (emit (.call callee ty vs nr src) ty).wlp s rt fun v s' rt' =>
      (s'.Has rt' v (rt.result callee xs).1 ∧ v.ty = ty ∧
        Effect s rt rt.regs (rt.result callee xs).2 (rt.calls ++ [(callee, xs)]) s' rt') ∧
        s'.unspecifiedOff = s.unspecifiedOff := by
  have hexec : Instr.exec ⟨s.next, .call callee ty vs nr src⟩ rt =
      .ok ({ rt with mem := (rt.result callee xs).2, calls := rt.calls ++ [(callee, xs)] }.set s.next
        (rt.result callee xs).1) := by
    simp only [Instr.exec, mapM_eval h]
    rfl
  refine Emit.wlp_and (Emit.wlp_of_wp (emit_wp hopen hexec ?_)) fun v s' hrun =>
    (sameOff_emit _ _ s v s' hrun).1
  refine ⟨has_set _ _ _ _ _, rfl, ⟨⟨hopen.push _, Nat.le_succ _, ?_, fun _ _ => rfl, rfl⟩, rfl, rfl, rfl⟩⟩
  exact fun id hid => set_env_of_ne _ _ (Nat.ne_of_lt hid)

/-! ## Clobbered registers -/

theorem storeReg_wlp {r : Fin 12} {y : BitVec 64} (hopen : s.code.Open) (hv : s.Has rt v (.int y)) :
    (createStore v (.regFile r)).wlp s rt fun _ s' rt' =>
      Writes s rt r y s' rt' ∧ s'.unspecifiedOff = s.unspecifiedOff :=
  Emit.wlp_of_wp (storeReg_wp hopen hv fun _ _ hoff _ hl => ⟨⟨hl, rfl, rfl, rfl⟩, hoff⟩)

theorem updateReg64_wlp {r : Reg} {y : BitVec 64} (hopen : s.code.Open) (hv : s.Has rt v (.int y)) :
    (updateReg64 v r).wlp s rt fun _ s' rt' =>
      Writes s rt r.mapRegToBackingReg y s' rt' ∧ s'.unspecifiedOff = s.unspecifiedOff :=
  wlp_assert fun _ => storeReg_wlp hopen hv

theorem invalidateReg_wlp (r : Reg) :
    (invalidateReg r 64).wlp s rt fun _ s' rt' =>
      Writes s rt r.mapRegToBackingReg (rt.world.junk s.unspecifiedOff 64) s' rt' ∧
        s'.unspecifiedOff = s.unspecifiedOff + 8 := by
  refine (unspecifiedValue_gives 64).bind fun j s₁ rt₁ hj _ q hoff => ?_
  refine Emit.wlp_mono (storeReg_wlp q.isOpen hj) ?_
  rintro _ s₂ rt₂ ⟨hw, hoff'⟩
  exact ⟨q.writes hw, by omega⟩

/-- The registers `rs` one after the other get the unspecified values from offset `off` on. -/
def clobbered (W : World) : Nat → List Reg → Regs → Regs
  | _, [], regs => regs
  | off, r :: rs, regs =>
    clobbered W (off + 8) rs (Function.update regs r.mapRegToBackingReg (W.junk off 64))

theorem invalidateAll_wlp (rs : List Reg) (hopen : s.code.Open) :
    (rs.forM fun r => invalidateReg r 64).wlp s rt fun _ s' rt' =>
      Effect s rt (clobbered rt.world s.unspecifiedOff rs rt.regs) rt.mem rt.calls s' rt' ∧
        s'.unspecifiedOff = s.unspecifiedOff + 8 * rs.length := by
  induction rs generalizing s rt with
  | nil => exact Emit.wlp_pure ⟨⟨(Quiet.refl hopen).toLater, rfl, rfl, rfl⟩, rfl⟩
  | cons r rs ih =>
    show (invalidateReg r 64 >>= fun _ => rs.forM fun r => invalidateReg r 64).wlp s rt _
    refine Emit.wlp_bind (Emit.wlp_mono (invalidateReg_wlp r) ?_)
    rintro _ s₁ rt₁ ⟨hw, hoff⟩
    refine Emit.wlp_mono (ih hw.isOpen) ?_
    rintro _ s₂ rt₂ ⟨he, hoff'⟩
    rw [hw.world_eq, hoff, hw.regs_eq, hw.mem_eq, hw.calls_eq] at he
    refine ⟨⟨hw.toLater.trans he.toLater, he.regs_eq, he.mem_eq, he.calls_eq⟩, ?_⟩
    rw [hoff', hoff, List.length_cons]
    omega

theorem clobbered_argReg (W : World) (off : Nat) (regs : Regs) {i : Nat} (hi : i < 5) :
    clobbered W off callerSaved regs (argReg i) = W.junk (off + 8 * i) 64 := by
  simp only [clobbered, callerSaved, Reg.mapRegToBackingReg]
  obtain rfl | rfl | rfl | rfl | rfl : i = 0 ∨ i = 1 ∨ i = 2 ∨ i = 3 ∨ i = 4 := by omega
  all_goals rfl

theorem clobbered_other (W : World) (off : Nat) (regs : Regs) {r : Fin 12} (hr : r = 0 ∨ 6 ≤ r) :
    clobbered W off callerSaved regs r = regs r := by
  simp only [clobbered, callerSaved, Reg.mapRegToBackingReg]
  repeat rw [Function.update_of_ne (by omega)]

/-! ## Calls -/

/-- The values of a type; an integer type has at least one bit. -/
inductive RVal.HasTy : RVal → Ty → Prop
  | int {w : Nat} (hw : 0 < w) (y : BitVec w) : HasTy (.int y) (.int w)
  | ptr (a : BitVec 64) : HasTy (.ptr (.flat a)) .ptr
  | void : HasTy .void .void

theorem RVal.HasTy.ne_aggregate (h : x.HasTy t) : t ≠ .aggregate := by
  rintro rfl
  cases h

/-- A call that is lifted: by `doCall`, or by `doHelperCall` in bytes mode. -/
inductive CallSite
  | call (FC : Function) (llvmCI : CallInst) (calleeName : String)
  | helper (env : Env) (bytesMode : env.bytesMode = true) (I : MCInst) (id : Int)

namespace CallSite

def lift : CallSite → LiftM Unit
  | call FC llvmCI calleeName => doCall FC llvmCI calleeName
  | helper env _ I id => doHelperCall env I id

/-- The name of the function that is called. -/
def callee : CallSite → String
  | call FC _ _ => FC.name
  | helper _ _ _ id => helperName id

/-- Its type: a helper has five `i64` arguments and an `i64` result. -/
def ty : CallSite → FunctionType
  | call FC _ _ => FC.ty
  | helper .. => ⟨.int 64, List.replicate 5 (.int 64)⟩

/-- A memory intrinsic, whose last argument is a constant flag. -/
def flag : CallSite → Bool
  | call _ _ calleeName => calleeName ∈ immediateFlagIntrinsics
  | helper .. => false

/-- The result is sign-extended, by the call site or by its callee. -/
def sext : CallSite → Bool
  | call _ llvmCI _ => llvmCI.retSExt || llvmCI.calledFn.any (·.retSExt)
  | helper .. => false

def zext : CallSite → Bool
  | call _ llvmCI _ => llvmCI.retZExt || llvmCI.calledFn.any (·.retZExt)
  | helper .. => false

/-- The callee or the call site is `bpf_fastcall`. -/
def fastcall : CallSite → Bool
  | call _ llvmCI _ => llvmCI.bpfFastcall || llvmCI.calledFn.any (·.bpfFastcall)
  | helper .. => false

variable (c : CallSite)

/-- The arguments passed from these registers. -/
def args (regs : Regs) : List RVal := withFlag c.flag (argsOf c.ty.params regs)

/-- The result of the callee and the memory that it leaves. -/
def result (rt : Rt) : RVal × Mem := rt.result c.callee (c.args rt.regs)

/-- The bytes of unspecified state in the result. -/
def padBytes : Nat :=
  match c.ty.ret with
  | .int w => junkBytes c.sext c.zext w
  | _ => 0

/-- The bytes of unspecified state in the caller-saved registers. -/
def clobberBytes : Nat := if c.fastcall then 0 else 8 * callerSaved.length

/-- The bytes of unspecified state in `r0` when nothing is returned. -/
def voidBytes : Nat := if c.ty.ret = .void then 8 else 0

/-- `r0` after a call that returned `x`; the unspecified state starts at `off`. -/
def resultReg (W : World) (off : Nat) : RVal → BitVec 64
  | @RVal.int w y => enforced c.sext c.zext y (W.junk off (64 - w))
  | .ptr (.flat a) => a
  | _ => W.junk (off + c.padBytes + c.clobberBytes) 64

/-- The caller-saved registers after the call. -/
def clobber (W : World) (off : Nat) (regs : Regs) : Regs :=
  if c.fastcall then regs else clobbered W (off + c.padBytes) callerSaved regs

/-- The whole effect of a call. -/
def After (s : LState) (rt : Rt) (s' : LState) (rt' : Rt) : Prop :=
  Effect s rt
    (Function.update (c.clobber rt.world s.unspecifiedOff rt.regs) 0
      (c.resultReg rt.world s.unspecifiedOff (c.result rt).1))
    (c.result rt).2 (rt.calls ++ [(c.callee, c.args rt.regs)]) s' rt'

end CallSite

/-- Clobbering after a call: `r1`-`r5`, unless the callee is `bpf_fastcall`. -/
theorem clobber_wlp (fastcall : Bool) (hopen : s.code.Open) :
    (if fastcall then pure () else callerSaved.forM fun reg => invalidateReg reg 64 : LiftM Unit).wlp s rt
      fun _ s' rt' =>
        Effect s rt (if fastcall then rt.regs
          else clobbered rt.world s.unspecifiedOff callerSaved rt.regs) rt.mem rt.calls s' rt' ∧
        s'.unspecifiedOff = s.unspecifiedOff + if fastcall then 0 else 8 * callerSaved.length := by
  cases fastcall with
  | true => exact Emit.wlp_pure ⟨⟨(Quiet.refl hopen).toLater, rfl, rfl, rfl⟩, rfl⟩
  | false => exact invalidateAll_wlp callerSaved hopen

theorem clobber_set_wlp (fastcall : Bool) {f : Unit → LiftM Unit} {z : BitVec 64} {n : Nat}
    (hopen : s.code.Open) (hf : ∀ s₁ rt₁, Later s rt s₁ rt₁ →
      s₁.unspecifiedOff = s.unspecifiedOff + (if fastcall then 0 else 8 * callerSaved.length) →
      (f ()).wlp s₁ rt₁ fun _ s' rt' =>
        Writes s₁ rt₁ 0 z s' rt' ∧ s'.unspecifiedOff = s₁.unspecifiedOff + n) :
    ((if fastcall then pure () else callerSaved.forM fun reg => invalidateReg reg 64 : LiftM Unit) >>=
      f).wlp s rt fun _ s' rt' =>
        Effect s rt (Function.update (if fastcall then rt.regs
          else clobbered rt.world s.unspecifiedOff callerSaved rt.regs) 0 z) rt.mem rt.calls s' rt' ∧
        s'.unspecifiedOff = s.unspecifiedOff + (if fastcall then 0 else 8 * callerSaved.length) + n := by
  refine Emit.wlp_bind (Emit.wlp_mono (clobber_wlp fastcall hopen) ?_)
  rintro _ s₁ rt₁ ⟨he, hoff⟩
  refine Emit.wlp_mono (hf s₁ rt₁ he.toLater hoff) ?_
  rintro _ s₂ rt₂ ⟨hw, ho⟩
  exact ⟨he.writes hw, by rw [ho, hoff]⟩

/-- The end of `doCall`: the result goes to `r0`. -/
def setResult (ret : Ty) (RV : Value) : LiftM Unit :=
  match ret with
  | .int _ => updateReg64 RV (.R 0)
  | .ptr => do
    let RV ← createPtrToInt RV
    updateReg64 RV (.R 0)
  | .void => invalidateReg (.R 0) 64
  | _ => throw (.assertion "retTy->isVoidTy()")

/-- What follows the call in `doCall`. -/
def CallSite.finish (c : CallSite) (CI : Value) : LiftM Unit := do
  let RV ← enforceSExtZExt CI c.sext c.zext
  (if c.fastcall then pure () else callerSaved.forM fun reg => invalidateReg reg 64 : LiftM Unit)
  setResult c.ty.ret RV

theorem doCall_eq (FC : Function) (llvmCI : CallInst) (name : String) :
    doCall FC llvmCI name = (do
      let args ← marshallArgs FC.ty
      let args ← addImmediateFlag name args
      let CI ← emit (.call FC.name FC.ty.ret args llvmCI.noReturn (some llvmCI)) FC.ty.ret
      (CallSite.call FC llvmCI name).finish CI) := rfl

theorem finish_wlp (c : CallSite) (hopen : s.code.Open) (hv : s.Has rt v x) (ht : v.ty = c.ty.ret)
    (hx : x.HasTy c.ty.ret) :
    (c.finish v).wlp s rt fun _ s' rt' =>
      Effect s rt (Function.update (c.clobber rt.world s.unspecifiedOff rt.regs) 0
        (c.resultReg rt.world s.unspecifiedOff x)) rt.mem rt.calls s' rt' ∧
      s'.unspecifiedOff = s.unspecifiedOff + c.padBytes + c.clobberBytes + c.voidBytes := by
  unfold CallSite.finish CallSite.clobber CallSite.resultReg CallSite.padBytes CallSite.clobberBytes
    CallSite.voidBytes
  generalize hret : c.ty.ret = ret at ht hx ⊢
  cases hx with
  | @int w hw y =>
    refine (enforce_gives hw hopen ht hv c.sext c.zext).bind fun u s₁ rt₁ hu htu q hoff => ?_
    have hset := clobber_set_wlp c.fastcall q.isOpen (f := fun _ => updateReg64 u (.R 0)) (n := 0)
      fun s₂ rt₂ hl _ => Emit.wlp_mono (updateReg64_wlp hl.isOpen (hu.later hl))
        fun _ _ _ ⟨hw, ho⟩ => ⟨hw, ho⟩
    refine Emit.wlp_mono hset ?_
    rintro _ s₃ rt₃ ⟨he, ho⟩
    rw [hoff, q.world_eq, q.regs_eq, q.mem_eq, q.calls_eq] at he
    rw [hoff] at ho
    exact ⟨⟨q.toLater.trans he.toLater, he.regs_eq, he.mem_eq, he.calls_eq⟩, ho⟩
  | ptr a =>
    have hen : enforceSExtZExt v c.sext c.zext = pure v := by
      unfold enforceSExtZExt
      rw [ht]
    rw [hen, pure_bind]
    refine clobber_set_wlp (n := 0) c.fastcall hopen fun s₁ rt₁ hl _ => ?_
    refine ((ptrtoint_computes hl.isOpen (hv.later hl)).gives (sameOff_emit _ _)).bind
      fun u s₂ rt₂ hu _ q hoff => ?_
    refine Emit.wlp_mono (updateReg64_wlp q.isOpen hu) ?_
    rintro _ s₃ rt₃ ⟨hw, ho⟩
    exact ⟨q.writes hw, ho.trans hoff⟩
  | void =>
    have hen : enforceSExtZExt v c.sext c.zext = pure v := by
      unfold enforceSExtZExt
      rw [ht]
    rw [hen, pure_bind]
    refine clobber_set_wlp (n := 8) c.fastcall hopen fun s₁ rt₁ hl hoff => ?_
    refine Emit.wlp_mono (invalidateReg_wlp (.R 0)) ?_
    rintro _ s₂ rt₂ ⟨hw, ho⟩
    rw [hl.world_eq, hoff] at hw
    exact ⟨hw, ho⟩

/-- The unspecified state of a call ends where that of the next instruction starts. -/
def CallSite.Lifted (c : CallSite) (s : LState) (rt : Rt) (s' : LState) (rt' : Rt) : Prop :=
  c.After s rt s' rt' ∧
    s'.unspecifiedOff = s.unspecifiedOff + c.padBytes + c.clobberBytes + c.voidBytes

theorem doCall_wlp {FC : Function} {llvmCI : CallInst} {name : String} (hopen : s.code.Open)
    (hty : ((CallSite.call FC llvmCI name).result rt).1.HasTy FC.ty.ret) :
    (doCall FC llvmCI name).wlp s rt fun _ => (CallSite.call FC llvmCI name).Lifted s rt := by
  rw [doCall_eq]
  unfold marshallArgs
  rw [if_neg hty.ne_aggregate]
  refine Emit.wlp_bind (Emit.wlp_mono (marshallParams_wlp FC.ty.params 0 hopen) ?_)
  rintro vs s₁ rt₁ ⟨⟨hvs, q⟩, hoff⟩
  refine Emit.wlp_bind (addImmediateFlag_wlp name hvs fun us hus => ?_)
  have hargs : withFlag (name ∈ immediateFlagIntrinsics)
      (FC.ty.params.mapIdx fun i ty => argOf ty (rt.regs (argReg (0 + i)))) =
      (CallSite.call FC llvmCI name).args rt.regs := by
    simp only [Nat.zero_add]
    rfl
  rw [hargs] at hus
  refine Emit.wlp_bind (Emit.wlp_mono (call_wlp q.isOpen hus) ?_)
  rintro CI s₂ rt₂ ⟨⟨hCI, htCI, he⟩, hoff₂⟩
  have hres : rt₁.result FC.name ((CallSite.call FC llvmCI name).args rt.regs) =
      (CallSite.call FC llvmCI name).result rt := by
    unfold Rt.result
    rw [q.world_eq, q.mem_eq]
    rfl
  rw [hres] at hCI he
  refine Emit.wlp_mono (finish_wlp (.call FC llvmCI name) he.isOpen hCI htCI hty) ?_
  rintro _ s₃ rt₃ ⟨hf, ho⟩
  rw [hoff₂, hoff, he.world_eq, q.world_eq, he.regs_eq, q.regs_eq, he.mem_eq, he.calls_eq,
    q.calls_eq] at hf
  rw [hoff₂, hoff] at ho
  exact ⟨⟨q.toLater.trans (he.toLater.trans hf.toLater), hf.regs_eq, hf.mem_eq, hf.calls_eq⟩, ho⟩

theorem doHelperCall_eq {env : Env} (hbytes : env.bytesMode = true) (I : MCInst) {id : Int}
    (hid : ¬id < 0) : doHelperCall env I id = (do
      let args ← marshallParams 0 (List.replicate 5 (.int 64))
      let CI ← emit (.call (helperName id) (.int 64) args false none) (.int 64)
      callerSaved.forM fun reg => invalidateReg reg 64
      updateReg64 CI (.R 0)) := by
  simp only [doHelperCall, hbytes, exitIf, if_neg hid, if_true, pure_bind, List.replicate,
    marshallParams, marshallParam, bind_assoc]
  simp [assertThat]

theorem doHelperCall_wlp {env : Env} (hbytes : env.bytesMode = true) (I : MCInst) (id : Int)
    (hopen : s.code.Open)
    (hty : ((CallSite.helper env hbytes I id).result rt).1.HasTy (.int 64)) :
    (doHelperCall env I id).wlp s rt fun _ => (CallSite.helper env hbytes I id).Lifted s rt := by
  by_cases hid : id < 0
  · refine Emit.wlp_error fun _ _ hrun => ?_
    obtain ⟨_, _, h, _⟩ := run_bind_ok hrun
    unfold exitIf at h
    rw [if_pos hid] at h
    cases h
  rw [doHelperCall_eq hbytes I hid]
  refine Emit.wlp_bind (Emit.wlp_mono (marshallParams_wlp (List.replicate 5 (.int 64)) 0 hopen) ?_)
  rintro vs s₁ rt₁ ⟨⟨hvs, q⟩, hoff⟩
  have hargs : ((List.replicate 5 (Ty.int 64)).mapIdx fun i ty => argOf ty (rt.regs (argReg (0 + i)))) =
      (CallSite.helper env hbytes I id).args rt.regs := by
    simp only [Nat.zero_add]
    rfl
  rw [hargs] at hvs
  refine Emit.wlp_bind (Emit.wlp_mono (call_wlp q.isOpen hvs) ?_)
  rintro CI s₂ rt₂ ⟨⟨hCI, _, he⟩, hoff₂⟩
  have hres : rt₁.result (helperName id) ((CallSite.helper env hbytes I id).args rt.regs) =
      (CallSite.helper env hbytes I id).result rt := by
    unfold Rt.result
    rw [q.world_eq, q.mem_eq]
    rfl
  rw [hres] at hCI he
  unfold CallSite.Lifted CallSite.After
  generalize ((CallSite.helper env hbytes I id).result rt).1 = r at hty hCI ⊢
  cases hty with
  | int _ y =>
    have hset := clobber_set_wlp false he.isOpen (f := fun _ => updateReg64 CI (.R 0)) (n := 0)
      fun s₃ rt₃ hl _ => Emit.wlp_mono (updateReg64_wlp hl.isOpen (hCI.later hl))
        fun _ _ _ ⟨hw, ho⟩ => ⟨hw, ho⟩
    refine Emit.wlp_mono hset ?_
    rintro _ s₃ rt₃ ⟨hf, ho⟩
    rw [hoff₂, hoff, he.world_eq, q.world_eq, he.regs_eq, q.regs_eq, he.mem_eq, he.calls_eq,
      q.calls_eq] at hf
    rw [hoff₂, hoff] at ho
    have hval : (CallSite.helper env hbytes I id).resultReg rt.world s.unspecifiedOff (.int y) = y :=
      enforced_full false false y _
    rw [hval]
    exact ⟨⟨q.toLater.trans (he.toLater.trans hf.toLater), hf.regs_eq, hf.mem_eq, hf.calls_eq⟩, ho⟩

/-- The callee returns a value of its return type. -/
def CallSite.WellTyped (c : CallSite) (rt : Rt) : Prop := (c.result rt).1.HasTy c.ty.ret

theorem callSite_wlp (c : CallSite) (hopen : s.code.Open) (hty : c.WellTyped rt) :
    c.lift.wlp s rt fun _ => c.Lifted s rt := by
  cases c with
  | call FC llvmCI name => exact doCall_wlp hopen hty
  | helper env hbytes I id => exact doHelperCall_wlp hbytes I id hopen hty

/-! ## The frame of a call -/

/-- What a call does to the machine: the arguments it passes, the registers and the memory after it. -/
structure CallSite.Frame (c : CallSite) (off : Nat) (rt rt' : Rt) : Prop where
  calls : rt'.calls = rt.calls ++ [(c.callee, c.args rt.regs)]
  mem : rt'.mem = (c.result rt).2
  calleeSaved : ∀ r : Fin 12, 6 ≤ r → rt'.regs r = rt.regs r
  result : rt'.regs 0 = c.resultReg rt.world off (c.result rt).1
  callerSaved : ∀ i < 5, rt'.regs (argReg i) =
    if c.fastcall then rt.regs (argReg i) else rt.world.junk (off + c.padBytes + 8 * i) 64

theorem argReg_ne_zero {i : Nat} (hi : i < 5) : argReg i ≠ 0 := by
  have hval : (argReg i).val = 1 + i := Nat.mod_eq_of_lt (by omega)
  intro h
  have h0 : (argReg i).val = 0 := by rw [h]; rfl
  omega

theorem CallSite.After.frame {c : CallSite} (h : c.After s rt s' rt') :
    c.Frame s.unspecifiedOff rt rt' where
  calls := h.calls_eq
  mem := h.mem_eq
  result := by rw [h.regs_eq, Function.update_self]
  calleeSaved r hr := by
    rw [h.regs_eq, Function.update_of_ne (by rintro rfl; exact absurd hr (by decide))]
    unfold CallSite.clobber
    split
    · rfl
    · exact clobbered_other _ _ _ (Or.inr hr)
  callerSaved i hi := by
    rw [h.regs_eq, Function.update_of_ne (argReg_ne_zero hi)]
    unfold CallSite.clobber
    split
    · rfl
    · exact clobbered_argReg _ _ _ hi

/-- The two states agree on what the call may depend on: `r6`-`r10`, the arguments passed, what the
callee does, and the unspecified values. -/
structure CallSite.Agree (c : CallSite) (rt₁ rt₂ : Rt) : Prop where
  calleeSaved : ∀ r : Fin 12, 6 ≤ r → r ≤ 10 → rt₁.regs r = rt₂.regs r
  args : c.args rt₁.regs = c.args rt₂.regs
  result : c.result rt₁ = c.result rt₂
  junk : rt₁.world.unspec = rt₂.world.unspec

theorem junk_congr {W W' : World} (h : W.unspec = W'.unspec) (off w : Nat) :
    W.junk off w = W'.junk off w := by
  rw [World.junk, World.junk, h]

theorem resultReg_congr (c : CallSite) {W W' : World} (h : W.unspec = W'.unspec) (off : Nat) (x : RVal) :
    c.resultReg W off x = c.resultReg W' off x := by
  unfold CallSite.resultReg
  split
  · rw [junk_congr h]
  · rfl
  · exact junk_congr h _ _

/-- Nothing that a caller-saved register held before the call is left. -/
theorem frame_congr {c : CallSite} {off : Nat} {rt₁' rt₂' : Rt} (hfast : c.fastcall = false)
    (h₁ : c.Frame off rt₁ rt₁') (h₂ : c.Frame off rt₂ rt₂') (hagree : c.Agree rt₁ rt₂) (r : Fin 12)
    (hr : r ≤ 10) : rt₁'.regs r = rt₂'.regs r := by
  rcases Nat.lt_or_ge r.val 6 with hlt | hge
  · rcases Nat.eq_zero_or_pos r.val with h0 | hpos
    · obtain rfl : r = 0 := Fin.ext h0
      rw [h₁.result, h₂.result, hagree.result, resultReg_congr c hagree.junk]
    · obtain ⟨i, hi, rfl⟩ : ∃ i < 5, argReg i = r :=
        ⟨r.val - 1, by omega, Fin.ext ((Nat.mod_eq_of_lt (by omega)).trans (by omega))⟩
      rw [h₁.callerSaved i hi, h₂.callerSaved i hi, hfast]
      exact junk_congr hagree.junk _ _
  · have h6 : (6 : Fin 12) ≤ r := hge
    rw [h₁.calleeSaved r h6, h₂.calleeSaved r h6, hagree.calleeSaved r h6 hr]

/-- **The frame of a call.** The code of a call that is lifted runs to its end without undefined
behaviour and does what `Frame` says; the unspecified values in it are bytes that no other code
reads. Two complete runs of a call that is not `bpf_fastcall` that agree on `r6`-`r10`, on the
arguments passed and on the callee end in the same registers and the same memory. -/
theorem call_frame (c : CallSite) (s s' : LState) (hopen : s.code.Open)
    (hrun : c.lift.run s = .ok ((), s')) :
    (∀ rt, c.WellTyped rt → ∃ rt', s'.code.Open ∧
      (∀ n, ∃ x, s'.code.run ir n (s.code.endCfg rt) = .ok x) ∧
      s'.code.Runs ir (s.code.endCfg rt) (s'.code.endCfg rt') ∧
      c.Frame s.unspecifiedOff rt rt' ∧
      s'.unspecifiedOff = s.unspecifiedOff + c.padBytes + c.clobberBytes + c.voidBytes) ∧
    (c.fastcall = false → ∀ rt₁ rt₂ rt₁' rt₂', c.WellTyped rt₁ → c.Agree rt₁ rt₂ →
      s'.code.Runs ir (s.code.endCfg rt₁) (s'.code.endCfg rt₁') →
      s'.code.Runs ir (s.code.endCfg rt₂) (s'.code.endCfg rt₂') →
      (∀ r ≤ 10, rt₁'.regs r = rt₂'.regs r) ∧ rt₁'.mem = rt₂'.mem ∧
        ∃ call, rt₁'.calls = rt₁.calls ++ [call] ∧ rt₂'.calls = rt₂.calls ++ [call]) := by
  have hlift : ∀ rt, c.WellTyped rt → ∃ rt', Emit.Code.Seg ir s.code rt s'.code rt' ∧
      c.Lifted s rt s' rt' := fun rt hty => callSite_wlp c hopen hty () s' hrun
  refine ⟨fun rt hty => ?_, fun hfast rt₁ rt₂ rt₁' rt₂' hty₁ hagree hruns₁ hruns₂ => ?_⟩
  · obtain ⟨rt', hseg, hafter, hoff⟩ := hlift rt hty
    have hruns := hseg.runs _ (Emit.Code.Le.refl _)
    exact ⟨rt', hafter.isOpen, hruns.safe (hafter.isOpen.step_end rt'), hruns, hafter.frame, hoff⟩
  · have hty₂ : c.WellTyped rt₂ := by
      rw [CallSite.WellTyped, ← hagree.result]
      exact hty₁
    have hframe : ∀ rt rt', c.WellTyped rt → s'.code.Runs ir (s.code.endCfg rt) (s'.code.endCfg rt') →
        c.Frame s.unspecifiedOff rt rt' := by
      intro rt rt' hty hruns
      obtain ⟨u, hseg, hafter, _⟩ := hlift rt hty
      have hu := hseg.runs _ (Emit.Code.Le.refl _)
      have hst : u = rt' := hafter.isOpen.end_unique hu hruns
      exact hst ▸ hafter.frame
    have h₁ := hframe rt₁ rt₁' hty₁ hruns₁
    have h₂ := hframe rt₂ rt₂' hty₂ hruns₂
    refine ⟨frame_congr hfast h₁ h₂ hagree, ?_, _, h₁.calls, ?_⟩
    · rw [h₁.mem, h₂.mem, hagree.result]
    · rw [h₂.calls, hagree.args]

/-- `i32 f(i32, ptr)`, called from states that differ in `r3`. -/
theorem call_frame_pair :
    let f : Function := { name := "f", ty := ⟨.int 32, [.int 32, .ptr]⟩ }
    let s : LState := { globals := Globals.init (.bytes "g" ⟨.void, []⟩) }
    let W : World := { World.zero with callee := fun _ _ m => (.int (5 : BitVec 32), m) }
    let rt₁ := Rt.start W (fun _ => 0) fun _ => 0
    let rt₂ := Rt.start W (fun r => if r = 3 then 77 else 0) fun _ => 0
    ∃ s' rt₁' rt₂', (doCall f ⟨some f, false, false, false, false⟩ "f").run s = .ok ((), s') ∧
      s'.code.Runs ir (s.code.endCfg rt₁) (s'.code.endCfg rt₁') ∧
      s'.code.Runs ir (s.code.endCfg rt₂) (s'.code.endCfg rt₂') ∧
      rt₁'.regs 0 = 5 ∧ rt₁'.regs 3 = rt₂'.regs 3 := by
  intro f s W rt₁ rt₂
  obtain ⟨⟨⟨⟩, s'⟩, hrun⟩ := ok_of_isSome
    (x := (doCall f ⟨some f, false, false, false, false⟩ "f").run s) (by decide +kernel)
  have h := call_frame (.call f ⟨some f, false, false, false, false⟩ "f") s s' Emit.Code.open_fresh hrun
  have hty : ∀ rt : Rt, rt.world = W →
      (CallSite.call f ⟨some f, false, false, false, false⟩ "f").WellTyped rt := by
    intro rt hW
    rw [CallSite.WellTyped, CallSite.result, Rt.result, hW]
    exact .int (by decide) 5
  obtain ⟨rt₁', _, _, hruns₁, hframe, _⟩ := h.1 rt₁ (hty rt₁ rfl)
  obtain ⟨rt₂', _, _, hruns₂, _⟩ := h.1 rt₂ (hty rt₂ rfl)
  have hagree : (CallSite.call f ⟨some f, false, false, false, false⟩ "f").Agree rt₁ rt₂ :=
    ⟨by decide, rfl, rfl, rfl⟩
  refine ⟨s', rt₁', rt₂', hrun, hruns₁, hruns₂, ?_, ?_⟩
  · rw [hframe.result]
    decide
  · exact (h.2 rfl rt₁ rt₂ rt₁' rt₂' (hty rt₁ rfl) hagree hruns₁ hruns₂).1 3 (by decide)

end BpfTv
