import BpfTv.Lifter.Builder

/-!
# Lifting one machine instruction

The functions of `bpf2llvm`: register and operand access, branch targets, unspecified values, the
calling convention, calls, returns, and `lift` itself.
-/

namespace BpfTv

/-- A parameter of the source function. -/
structure Argument where
  ty : Ty
  hasSExtAttr : Bool := false
  hasZExtAttr : Bool := false
  deriving DecidableEq, Repr

/-- What lifting reads and does not change: the mode, the source function as `adjustSrc` left it
(`srcRetTy`, `origRetWidth`, `has_ret_attr`), the modules, and the blocks of the lifted function
with the successors of the machine block at hand. `fuel` bounds the deferred-globals loop. -/
structure Env where
  bytesMode : Bool := false
  srcRetTy : Ty := .void
  origRetWidth : Nat := 64
  has_ret_attr : Bool := false
  srcArgs : List Argument := []
  module : ModuleInfo
  fuel : Nat := 0
  bbNames : List String := []
  succs : List Nat := []
  deriving DecidableEq, Repr

/-- `stackBytes`. -/
def stackBytes : Nat := 1024

/-- `unspecifiedMemBytes`. -/
def unspecifiedMemBytes : Nat := 65536

/-! ## Registers and operands -/

def liftExcept {α : Type} (x : Except LiftError α) : LiftM α := fun s => x.map fun a => (a, s)

def readReg64 (r : Reg) : LiftM Value := createLoad (.int 64) (.regFile r.mapRegToBackingReg)

def readReg32 (r : Reg) : LiftM Value := do
  let v ← readReg64 r
  createTrunc v 32

def updateReg64 (V : Value) (r : Reg) : LiftM Unit := do
  assertThat (V.bitWidth = 64) "getBitWidth(V) == 64"
  createStore V (.regFile r.mapRegToBackingReg)

/-- A 32-bit write zeroes the upper 32 bits of the register. -/
def updateReg32 (V : Value) (r : Reg) : LiftM Unit := do
  assertThat (V.bitWidth = 32) "getBitWidth(V) == 32"
  let z ← createZExt V 64
  updateReg64 z r

/-- `CurInst->getOperand(idx).getReg()`. -/
def getRegOperand (I : MCInst) (idx : Nat) : LiftM Reg := do
  match ← liftExcept (I.getOperand idx) with
  | .reg r => return r
  | _ => throw (.assertion "op.isReg()")

def readRegOperand64 (I : MCInst) (idx : Nat) : LiftM Value := do
  let r ← getRegOperand I idx
  readReg64 r

def readRegOperand32 (I : MCInst) (idx : Nat) : LiftM Value := do
  let r ← getRegOperand I idx
  readReg32 r

def readPtrRegOperand (I : MCInst) (idx : Nat) : LiftM Value := do
  let r ← getRegOperand I idx
  createLoad .ptr (.regFile r.mapRegToBackingReg)

def readImmOperand (I : MCInst) (idx bits : Nat) : LiftM Value := do
  match ← liftExcept (I.getOperand idx) with
  | .imm v => getSignedIntConst v bits
  | _ => throw (.assertion "op.isImm()")

def readALUSrcOperand (I : MCInst) (idx bits : Nat) : LiftM Value := do
  match ← liftExcept (I.getOperand idx) with
  | .imm _ => readImmOperand I idx bits
  | .reg r => if bits = 64 then readReg64 r else readReg32 r
  | .expr _ => throw (.assertion "op.isReg()")

/-- The base register plus the signed 16-bit offset of operands `idx` and `idx + 1`. -/
def getMemPointerOperand (I : MCInst) (idx : Nat) : LiftM Value := do
  let base ← readPtrRegOperand I idx
  let offset ← readImmOperand I (idx + 1) 64
  createGEP base offset

/-! ## Branch targets -/

/-- `getBBByName`: the first block of the lifted function with that name. -/
def getBBByName (env : Env) (name : String) : Except LiftError Nat :=
  match env.bbNames.findIdx? fun n => n = name with
  | some b => .ok b
  | none => .error (.assertion "basic block not found in getBBByName()")

/-- The symbol of a jump target operand. -/
def getTargetSym (I : MCInst) (idx : Nat) : Except LiftError String := do
  match ← I.getOperand idx with
  | .expr (.symbolRef sym) => return sym
  | .expr _ => throw (.assertion "expected symbol ref as branch operand")
  | _ => throw (.assertion "expected expression")

/-- `getBB`; the caller asserts that there is one. -/
def getBB (env : Env) (I : MCInst) (idx : Nat) : Except LiftError Nat := do
  let name ← getTargetSym I idx
  match env.bbNames.findIdx? fun n => n = name with
  | some b => return b
  | none => throw (.assertion "bb")

/-- The name of the fall-through block: the first successor of the machine block that is not called
like the target, and the target itself when there is none. -/
def fallthroughName (env : Env) (sym : String) : String :=
  ((env.succs.map fun k => (env.bbNames[k]?).getD "").find? fun n => n ≠ sym).getD sym

/-- Targets of a conditional branch, taken first. -/
def getBranchTargetsOperand (env : Env) (I : MCInst) (op : Nat) : Except LiftError (Nat × Nat) := do
  let sym ← getTargetSym I op
  let dst_true ← getBBByName env sym
  if env.succs.length = 1 ∨ env.succs.length = 2 then
    let dst_false ← getBBByName env (fallthroughName env sym)
    return (dst_true, dst_false)
  else
    throw (.assertion "MCBB->getSuccs().size() is 1 or 2")

/-! ## Unspecified machine state and the calling convention -/

/-- A load from the next bytes of `@__bpf_tv_unspecified`. -/
def unspecifiedValue (Width : Nat) : LiftM Value := do
  let bytes := (Width + 7) / 8
  let unspecifiedOff := (← get).unspecifiedOff
  assertThat (unspecifiedOff + bytes ≤ unspecifiedMemBytes) "out of unspecified-value scratch space"
  let off ← getUnsignedIntConst unspecifiedOff 64
  let ptr ← createGEP (.unspec 0) off
  modify fun s => { s with unspecifiedOff := unspecifiedOff + bytes }
  createLoad (.int Width) ptr

/-- `invalidateReg`. -/
def invalidateReg (r : Reg) (Width : Nat) : LiftM Unit := do
  let v ← unspecifiedValue Width
  createStore v (.regFile r.mapRegToBackingReg)

/-- `createRegStorage`; the alloca is `Value.regFile`. -/
def createRegStorage (r : Reg) (Width : Nat) : LiftM Unit := invalidateReg r Width

/-- `enforceSExtZExt`: extend to 64 bits as the attributes say, pad what is left with junk. -/
def enforceSExtZExt (V : Value) (isSExt isZExt : Bool) : LiftM Value := do
  let targetWidth := 64
  match V.ty with
  | .ptr | .void => return V
  | .int _ =>
    let V ← (if isZExt && V.bitWidth < targetWidth then createZExt V targetWidth
      else pure V : LiftM Value)
    let V ← (if isSExt && V.bitWidth < targetWidth then createSExt V targetWidth
      else pure V : LiftM Value)
    -- junkBits is unsigned in the source: a wider value asks for more scratch than there is
    assertThat (V.bitWidth ≤ targetWidth) "out of unspecified-value scratch space"
    let junkBits := targetWidth - V.bitWidth
    if junkBits > 0 then
      let junk ← unspecifiedValue junkBits
      let ext1 ← createZExt junk targetWidth
      let shifted ← createRawShl ext1 (← getUnsignedIntConst V.bitWidth targetWidth)
      let ext2 ← createZExt V targetWidth
      createOr shifted ext2
    else
      return V
  | _ => throw (.assertion "only integer/pointer values on BPF")

/-- The callee side of the calling convention: argument `argNum` goes to `r(1 + argNum)`. -/
def initArgs : Nat → List Argument → LiftM Unit
  | _, [] => return ()
  | argNum, arg :: rest => do
    match arg.ty with
    | .int _ | .ptr =>
      if h : argNum < 5 then
        let val ← enforceSExtZExt (.arg argNum arg.ty) arg.hasSExtAttr arg.hasZExtAttr
        createStore val (.regFile ⟨1 + argNum, by omega⟩)
        initArgs (argNum + 1) rest
      else
        exitWith "ERROR: more than 5 arguments not supported by the BPF calling convention"
    | _ => exitWith "ERROR: only integer/pointer arguments supported"

/-- `platformInit`. -/
def platformInit (env : Env) : LiftM Unit := do
  (List.finRange 12).forM fun r => createRegStorage (.R r) 64
  let frameTop ← createGEP (.stack 0) (← getUnsignedIntConst stackBytes 64)
  createStore frameTop (.regFile 10)
  initArgs 0 env.srcArgs

/-- The argument in a register: a pointer as it is, an integer truncated. -/
def marshallParam (argTy : Ty) (param : Value) : LiftM Value :=
  match argTy with
  | .int w => do
    assertThat (w ≤ 64) "argTy->getIntegerBitWidth() <= 64"
    if w < 64 then createTrunc param w else pure param
  | _ => createIntToPtr param

/-- The arguments of a call from `r1`-`r5`. -/
def marshallParams : Nat → List Ty → LiftM (List Value)
  | _, [] => return []
  | argNum, argTy :: rest => do
    match argTy with
    | .int _ | .ptr =>
      if h : argNum < 5 then
        let param ← readReg64 (.R ⟨1 + argNum, by omega⟩)
        let param ← marshallParam argTy param
        let args ← marshallParams (argNum + 1) rest
        return param :: args
      else
        exitWith "ERROR: calls with more than 5 arguments not supported"
    | _ => exitWith "ERROR: only integer/pointer call arguments supported"

/-- `marshallArgs`. -/
def marshallArgs (fTy : FunctionType) : LiftM (List Value) :=
  if fTy.ret = .aggregate then
    exitWith "ERROR: aggregate return values not supported"
  else
    marshallParams 0 fTy.params

/-! ## Calls and returns -/

/-- The intrinsics whose last argument is an immediate that the assembly does not have. -/
def immediateFlagIntrinsics : List String :=
  ["llvm.memset.p0.i64", "llvm.memset.p0.i32", "llvm.memcpy.p0.p0.i64", "llvm.memmove.p0.p0.i64"]

/-- The arguments of such an intrinsic, the immediate included. -/
def addImmediateFlag (calleeName : String) (args : List Value) : LiftM (List Value) :=
  if calleeName ∈ immediateFlagIntrinsics then do
    assertThat (3 < args.length) "args[3]"
    return args.set 3 (getBoolConst false)
  else
    return args

/-- The caller-saved registers. -/
def callerSaved : List Reg := [.R 1, .R 2, .R 3, .R 4, .R 5]

/-- `doCall`: `FC` is the lifted callee, `llvmCI` the source call its attributes are taken from. -/
def doCall (FC : Function) (llvmCI : CallInst) (calleeName : String) : LiftM Unit := do
  let args ← marshallArgs FC.ty
  let args ← addImmediateFlag calleeName args
  let CI ← emit (.call FC.name FC.ty.ret args llvmCI.noReturn (some llvmCI)) FC.ty.ret
  let calledFn := llvmCI.calledFn
  let sext := llvmCI.retSExt || calledFn.any (·.retSExt)
  let zext := llvmCI.retZExt || calledFn.any (·.retZExt)
  let RV ← enforceSExtZExt CI sext zext
  let fastcall := llvmCI.bpfFastcall || calledFn.any (·.bpfFastcall)
  (if fastcall then pure () else callerSaved.forM fun reg => invalidateReg reg 64 : LiftM Unit)
  match FC.ty.ret with
  | .int _ => updateReg64 RV (.R 0)
  | .ptr => do
    let RV ← createPtrToInt RV
    updateReg64 RV (.R 0)
  | .void => invalidateReg (.R 0) 64
  | _ => throw (.assertion "retTy->isVoidTy()")

/-- `"__bpf_helper_" + to_string(id)`. -/
def helperName (id : Int) : String := "__bpf_helper_" ++ toString id

/-- Look a symbol up and change the globals. -/
def lookupGlobalM (env : Env) (nm : String) : LiftM Nat := fun s =>
  (lookupGlobal env.module env.fuel nm s.globals).map fun (id, G) => (id, { s with globals := G })

/-- `dyn_cast<Function>` of an object of the lifted module. -/
def functionOf (id : Nat) : LiftM (Option Function) := do
  match (← get).globals.obj? id with
  | some { kind := .function f, name := name, .. } => return some { f with name := name }
  | _ => return none

def noSourceCall : String := "error: can't locate corresponding source-side call instruction"

/-- `"call N"`: a helper referenced by number. -/
def doHelperCall (env : Env) (I : MCInst) (id : Int) : LiftM Unit := do
  exitIf (id < 0) ("ERROR: negative helper ID " ++ toString id)
  let name := helperName id
  if env.bytesMode then
    let a1 ← readReg64 (.R 1)
    let a2 ← readReg64 (.R 2)
    let a3 ← readReg64 (.R 3)
    let a4 ← readReg64 (.R 4)
    let a5 ← readReg64 (.R 5)
    let CI ← emit (.call name (.int 64) [a1, a2, a3, a4, a5] false none) (.int 64)
    callerSaved.forM fun reg => invalidateReg reg 64
    updateReg64 CI (.R 0)
  else
    match I.loc with
    | some (.call llvmCI) =>
      exitIf (llvmCI.calledFn.map (·.name) ≠ some name)
        ("ERROR: source-side callee of helper call " ++ toString id ++ " is not " ++ name)
      let g ← lookupGlobalM env name
      match ← functionOf g with
      | some callee => doCall callee llvmCI name
      | none => throw (.assertion "callee")
    | _ => exitWith noSourceCall

/-- `MCExprToName`: the demangled symbol of an operand. -/
def MCExprToName : MCExpr → LiftM String
  | .symbolRef sym => return demangle sym
  | .specifier _ sym => return demangle sym
  | .other => throw (.assertion "sr")

/-- `getExprVar`: the global an operand names. -/
def getExprVar (env : Env) (e : MCExpr) : LiftM Nat := do
  let name ← MCExprToName e
  lookupGlobalM env name

/-- A call that names its callee. -/
def doDirectCall (env : Env) (I : MCInst) (e : MCExpr) : LiftM Unit := do
  let g ← getExprVar env e
  let calleeName := (((← get).globals.obj? g).map (·.name)).getD ""
  if calleeName = "__stack_chk_fail" then
    createTrap
  else
    match ← functionOf g with
    | none => throw (.assertion "callee")
    | some callee =>
      match I.loc with
      | some (.call llvmCI) => doCall callee llvmCI calleeName
      | _ => exitWith noSourceCall

/-- Mask off the bits that nobody promised. -/
def maskRet (env : Env) (retWidth : Nat) (retVal : Value) : LiftM Value :=
  if env.has_ret_attr && env.origRetWidth < 32 then do
    assertThat (retWidth ≥ env.origRetWidth) "retWidth >= origRetWidth"
    assertThat (retWidth = 64) "retWidth == 64"
    let trunc ← createTrunc retVal 32
    createZExt trunc 64
  else
    return retVal

/-- `doReturn`. -/
def doReturn (env : Env) : LiftM Unit := do
  match env.srcRetTy with
  | .void => createReturn none
  | .ptr => do
    let retVal ← readReg64 (.R 0)
    let retVal ← createIntToPtr retVal
    createReturn (some retVal)
  | retTyp => do
    let retWidth := retTyp.bitWidth
    let retVal ← readReg64 (.R 0)
    let retVal ← (if retWidth < retVal.bitWidth then createTrunc retVal retWidth
      else pure retVal : LiftM Value)
    let retVal ← maskRet env retWidth retVal
    createReturn (some retVal)

/-! ## The instruction shapes -/

section shapes

variable (env : Env) (I : MCInst)

/-- Operands (dst, src2, src-or-imm), dst tied to src2. -/
def alu64 (op : BinOp) : LiftM Unit := do
  let a ← readRegOperand64 I 1
  let b ← readALUSrcOperand I 2 64
  let v ← createBinop a b op
  updateReg64 v (← getRegOperand I 0)

/-- The same layout on W registers. -/
def alu32 (op : BinOp) : LiftM Unit := do
  let a ← readRegOperand32 I 1
  let b ← readALUSrcOperand I 2 32
  let v ← createBinop a b op
  updateReg32 v (← getRegOperand I 0)

def shift64 (shifter : Value → Value → LiftM Value) : LiftM Unit := do
  let a ← readRegOperand64 I 1
  let b ← readALUSrcOperand I 2 64
  let v ← shifter a b
  updateReg64 v (← getRegOperand I 0)

def shift32 (shifter : Value → Value → LiftM Value) : LiftM Unit := do
  let a ← readRegOperand32 I 1
  let b ← readALUSrcOperand I 2 32
  let v ← shifter a b
  updateReg32 v (← getRegOperand I 0)

/-- Operands (lhs, rhs-or-imm, target). -/
def condBr (pred : Pred) (bits : Nat) : LiftM Unit := do
  let a ← (if bits = 64 then readRegOperand64 I 0 else readRegOperand32 I 0 : LiftM Value)
  let b ← readALUSrcOperand I 1 bits
  let cond ← createICmp pred a b
  let (t, f) ← liftExcept (getBranchTargetsOperand env I 2)
  createCondBranch cond (.bb t) (.bb f)

/-- `JSET`: a bitwise and, compared with zero. -/
def condSet (bits : Nat) : LiftM Unit := do
  let a ← (if bits = 64 then readRegOperand64 I 0 else readRegOperand32 I 0 : LiftM Value)
  let b ← readALUSrcOperand I 1 bits
  let c ← createAnd a b
  let cond ← createICmp .ne c (← getUnsignedIntConst 0 bits)
  let (t, f) ← liftExcept (getBranchTargetsOperand env I 2)
  createCondBranch cond (.bb t) (.bb f)

/-- Operands (dst, src), dst tied to src: swap the low `bits`, or only mask them. -/
def endian (bits : Nat) (swap : Bool) : LiftM Unit := do
  let v ← readRegOperand64 I 1
  let v ← (if bits < 64 then createTrunc v bits else pure v : LiftM Value)
  let v ← (if swap then createBSwap v else pure v : LiftM Value)
  let v ← (if bits < 64 then createZExt v 64 else pure v : LiftM Value)
  updateReg64 v (← getRegOperand I 0)

/-- Operands (dst, base, offset). -/
def load (bits : Nat) (sext wDest : Bool) : LiftM Unit := do
  let ptr ← getMemPointerOperand I 1
  let v ← createLoad (.int bits) ptr
  if wDest then
    let v ← (if bits < 32 then createZExt v 32 else pure v : LiftM Value)
    updateReg32 v (← getRegOperand I 0)
  else
    let v ← (if bits < 64 then (if sext then createSExt v 64 else createZExt v 64)
      else pure v : LiftM Value)
    updateReg64 v (← getRegOperand I 0)

/-- Operands (src, base, offset). -/
def store (bits : Nat) (wSrc : Bool) : LiftM Unit := do
  let ptr ← getMemPointerOperand I 1
  let v ← (if wSrc then readRegOperand32 I 0 else readRegOperand64 I 0 : LiftM Value)
  let v ← (if bits < v.bitWidth then createTrunc v bits else pure v : LiftM Value)
  createStore v ptr

/-- Operands (imm, base, offset); the low `bits` of the immediate are stored. -/
def storeImm (bits : Nat) : LiftM Unit := do
  let ptr ← getMemPointerOperand I 1
  match ← liftExcept (I.getOperand 0) with
  | .imm v =>
    let masked := (BitVec.ofInt 64 v).toNat % 2 ^ bits
    createStore (← getUnsignedIntConst masked bits) ptr
  | _ => throw (.assertion "op.isImm()")

/-- `DIV` and `MOD`; `ifDivByZero` may be the dividend. -/
def checkedUnsigned (bits : Nat) (op : Value → Value → Value → LiftM Value)
    (ifDivByZero : Value → LiftM Value) : LiftM Unit := do
  let a ← (if bits = 64 then readRegOperand64 I 1 else readRegOperand32 I 1 : LiftM Value)
  let b ← readALUSrcOperand I 2 bits
  let v ← op a b (← ifDivByZero a)
  if bits = 64 then
    updateReg64 v (← getRegOperand I 0)
  else
    updateReg32 v (← getRegOperand I 0)

/-- `SDIV` and `SMOD`. -/
def checkedSigned (bits : Nat) (op : Value → Value → Value → Value → LiftM Value)
    (ifDivByZero ifOverflow : Value → LiftM Value) : LiftM Unit := do
  let a ← (if bits = 64 then readRegOperand64 I 1 else readRegOperand32 I 1 : LiftM Value)
  let b ← readALUSrcOperand I 2 bits
  let v ← op a b (← ifDivByZero a) (← ifOverflow a)
  if bits = 64 then
    updateReg64 v (← getRegOperand I 0)
  else
    updateReg32 v (← getRegOperand I 0)

/-- `NEG_64` and `NEG_32`. -/
def neg (bits : Nat) : LiftM Unit := do
  if bits = 64 then
    let v ← readRegOperand64 I 1
    let r ← createSub (← getUnsignedIntConst 0 64) v
    updateReg64 r (← getRegOperand I 0)
  else
    let v ← readRegOperand32 I 1
    let r ← createSub (← getUnsignedIntConst 0 32) v
    updateReg32 r (← getRegOperand I 0)

/-- `MOVSX_rr_8`, `MOVSX_rr_16`. -/
def movsx64 (bits : Nat) : LiftM Unit := do
  let v ← createTrunc (← readRegOperand64 I 1) bits
  updateReg64 (← createSExt v 64) (← getRegOperand I 0)

/-- `MOVSX_rr_32_8`, `MOVSX_rr_32_16`. -/
def movsx32 (bits : Nat) : LiftM Unit := do
  let v ← createTrunc (← readRegOperand32 I 1) bits
  updateReg32 (← createSExt v 32) (← getRegOperand I 0)

/-- The operation of an atomic opcode. -/
def atomicBinOp (opcode : Opcode) : RmwOp :=
  match opcode with
  | .XADDW | .XADDW32 | .XADDD | .XFADDW32 | .XFADDD => .add
  | .XANDW32 | .XANDD | .XFANDW32 | .XFANDD => .and
  | .XORW32 | .XORD | .XFORW32 | .XFORD => .or
  | .XXORW32 | .XXORD | .XFXORW32 | .XFXORD => .xor
  | _ => .xchg

def atomicIs64 (opcode : Opcode) : Bool :=
  opcode = .XADDD || opcode = .XANDD || opcode = .XORD || opcode = .XXORD || opcode = .XFADDD ||
    opcode = .XFANDD || opcode = .XFORD || opcode = .XFXORD || opcode = .XCHGD

def atomicFetch (opcode : Opcode) : Bool :=
  opcode = .XFADDW32 || opcode = .XFADDD || opcode = .XFANDW32 || opcode = .XFANDD ||
    opcode = .XFORW32 || opcode = .XFORD || opcode = .XFXORW32 || opcode = .XFXORD ||
    opcode = .XCHGW32 || opcode = .XCHGD

/-- The value operand of an atomic. -/
def atomicVal : LiftM Value :=
  if atomicIs64 I.opcode then
    readRegOperand64 I 3
  else if I.opcode = .XADDW then do
    -- legacy: GPR operand, 32-bit memory op
    let v ← readRegOperand64 I 3
    createTrunc v 32
  else
    readRegOperand32 I 3

/-- Operands (dst, base, off, val). -/
def atomicRmw : LiftM Unit := do
  let op := atomicBinOp I.opcode
  let is64 := atomicIs64 I.opcode
  let fetch := atomicFetch I.opcode
  let ptr ← getMemPointerOperand I 1
  let val ← atomicVal I
  let rmw ← emit (.atomicrmw op ptr val (if is64 then 8 else 4)) val.ty
  if fetch then
    if is64 then
      updateReg64 rmw (← getRegOperand I 0)
    else
      updateReg32 rmw (← getRegOperand I 0)

/-- Operands (base, off, new); `r0` is implicit. -/
def cmpxchg64 : LiftM Unit := do
  let ptr ← getMemPointerOperand I 0
  let expected ← readReg64 (.R 0)
  let newVal ← readRegOperand64 I 2
  let cx ← emit (.cmpxchg ptr expected newVal 8) (.cmpxchg 64)
  updateReg64 (← createExtractValue cx 64) (.R 0)

def cmpxchg32 : LiftM Unit := do
  let ptr ← getMemPointerOperand I 0
  let expected ← readReg32 (.R 0)
  let newVal ← readRegOperand32 I 2
  let cx ← emit (.cmpxchg ptr expected newVal 4) (.cmpxchg 32)
  updateReg32 (← createExtractValue cx 32) (.R 0)

/-- The value of `LD_imm64`: a constant, or the address of a global. -/
def ldImm64Val : LiftM Value := do
  match ← liftExcept (I.getOperand 1) with
  | .imm v => getUnsignedIntConst (BitVec.ofInt 64 v).toNat 64
  | .expr e => do
    let g ← getExprVar env e
    createPtrToInt (.global g)
  | .reg _ => throw (.assertion "op.isExpr()")

/-- `LD_imm64`. -/
def ldImm64 : LiftM Unit := do
  let v ← ldImm64Val env I
  updateReg64 v (← getRegOperand I 0)

/-- The target of `JMP` and `JMPL`; the branch made by `checkEntryBlock` has an immediate operand
and goes to the block's unique successor. -/
def jumpTarget : Except LiftError Nat := do
  match ← I.getOperand 0 with
  | .expr _ => getBB env I 0
  | _ =>
    if env.succs.length = 1 then
      getBBByName env ((env.succs.head?.bind (env.bbNames[·]?)).getD "")
    else
      throw (.assertion "MCBB->getSuccs().size() == 1")

/-- `JMP` and `JMPL`. -/
def jump : LiftM Unit := do
  let bb ← liftExcept (jumpTarget env I)
  createBranch (.bb bb)

/-- `JAL`. -/
def jal : LiftM Unit := do
  match ← liftExcept (I.getOperand 0) with
  | .expr e => doDirectCall env I e
  | .imm id => doHelperCall env I id
  | .reg _ => throw (.assertion "isImm()")

end shapes

/-- The constant zero as the result of a division by zero. -/
def zeroConst (bits : Nat) (_ : Value) : LiftM Value := getUnsignedIntConst 0 bits

def visitError : LiftM Unit := exitWith "ERROR: Unsupported instruction"

/-- `lift`. -/
def lift (env : Env) (I : MCInst) : LiftM Unit :=
  match I.opcode with
  | .NOP => return ()
  | .ADD_rr | .ADD_ri => alu64 I .add
  | .SUB_rr | .SUB_ri => alu64 I .sub
  | .MUL_rr | .MUL_ri => alu64 I .mul
  | .AND_rr | .AND_ri => alu64 I .and
  | .OR_rr | .OR_ri => alu64 I .or
  | .XOR_rr | .XOR_ri => alu64 I .xor
  | .SLL_rr | .SLL_ri => shift64 I createMaskedShl
  | .SRL_rr | .SRL_ri => shift64 I createMaskedLShr
  | .SRA_rr | .SRA_ri => shift64 I createMaskedAShr
  | .DIV_rr | .DIV_ri => checkedUnsigned I 64 createCheckedUDiv (zeroConst 64)
  | .MOD_rr | .MOD_ri => checkedUnsigned I 64 createCheckedURem pure
  | .SDIV_rr | .SDIV_ri => checkedSigned I 64 createCheckedSDiv (zeroConst 64) pure
  | .SMOD_rr | .SMOD_ri => checkedSigned I 64 createCheckedSRem pure (zeroConst 64)
  | .NEG_64 => neg I 64
  | .NEG_32 => neg I 32
  | .ADD_rr_32 | .ADD_ri_32 => alu32 I .add
  | .SUB_rr_32 | .SUB_ri_32 => alu32 I .sub
  | .MUL_rr_32 | .MUL_ri_32 => alu32 I .mul
  | .AND_rr_32 | .AND_ri_32 => alu32 I .and
  | .OR_rr_32 | .OR_ri_32 => alu32 I .or
  | .XOR_rr_32 | .XOR_ri_32 => alu32 I .xor
  | .SLL_rr_32 | .SLL_ri_32 => shift32 I createMaskedShl
  | .SRL_rr_32 | .SRL_ri_32 => shift32 I createMaskedLShr
  | .SRA_rr_32 | .SRA_ri_32 => shift32 I createMaskedAShr
  | .DIV_rr_32 | .DIV_ri_32 => checkedUnsigned I 32 createCheckedUDiv (zeroConst 32)
  | .MOD_rr_32 | .MOD_ri_32 => checkedUnsigned I 32 createCheckedURem pure
  | .SDIV_rr_32 | .SDIV_ri_32 => checkedSigned I 32 createCheckedSDiv (zeroConst 32) pure
  | .SMOD_rr_32 | .SMOD_ri_32 => checkedSigned I 32 createCheckedSRem pure (zeroConst 32)
  | .MOV_rr => do updateReg64 (← readRegOperand64 I 1) (← getRegOperand I 0)
  | .MOV_ri => do updateReg64 (← readImmOperand I 1 64) (← getRegOperand I 0)
  | .MOV_rr_32 => do updateReg32 (← readRegOperand32 I 1) (← getRegOperand I 0)
  | .MOV_ri_32 => do updateReg32 (← readImmOperand I 1 32) (← getRegOperand I 0)
  | .MOV_32_64 => do updateReg32 (← readRegOperand32 I 1) (← getRegOperand I 0)
  | .MOVSX_rr_8 => movsx64 I 8
  | .MOVSX_rr_16 => movsx64 I 16
  | .MOVSX_rr_32 => do
    let v ← readRegOperand32 I 1
    updateReg64 (← createSExt v 64) (← getRegOperand I 0)
  | .MOVSX_rr_32_8 => movsx32 I 8
  | .MOVSX_rr_32_16 => movsx32 I 16
  | .LD_imm64 => ldImm64 env I
  | .BE16 | .BSWAP16 => endian I 16 true
  | .BSWAP32 => endian I 32 true
  | .BSWAP64 => endian I 64 true
  | .BE32 => endian I 32 true
  | .BE64 => endian I 64 true
  | .LE16 => endian I 16 false
  | .LE32 => endian I 32 false
  | .LE64 => endian I 64 false
  | .LDD => load I 64 false false
  | .LDW => load I 32 false false
  | .LDH => load I 16 false false
  | .LDB => load I 8 false false
  | .LDWSX => load I 32 true false
  | .LDHSX => load I 16 true false
  | .LDBSX => load I 8 true false
  | .LDW32 => load I 32 false true
  | .LDH32 => load I 16 false true
  | .LDB32 => load I 8 false true
  | .STD => store I 64 false
  | .STW => store I 32 false
  | .STH => store I 16 false
  | .STB => store I 8 false
  | .STW32 => store I 32 true
  | .STH32 => store I 16 true
  | .STB32 => store I 8 true
  | .STD_imm => storeImm I 64
  | .STW_imm => storeImm I 32
  | .STH_imm => storeImm I 16
  | .STB_imm => storeImm I 8
  | .JMP | .JMPL => jump env I
  | .JEQ_rr | .JEQ_ri => condBr env I .eq 64
  | .JNE_rr | .JNE_ri => condBr env I .ne 64
  | .JUGT_rr | .JUGT_ri => condBr env I .ugt 64
  | .JUGE_rr | .JUGE_ri => condBr env I .uge 64
  | .JULT_rr | .JULT_ri => condBr env I .ult 64
  | .JULE_rr | .JULE_ri => condBr env I .ule 64
  | .JSGT_rr | .JSGT_ri => condBr env I .sgt 64
  | .JSGE_rr | .JSGE_ri => condBr env I .sge 64
  | .JSLT_rr | .JSLT_ri => condBr env I .slt 64
  | .JSLE_rr | .JSLE_ri => condBr env I .sle 64
  | .JEQ_rr_32 | .JEQ_ri_32 => condBr env I .eq 32
  | .JNE_rr_32 | .JNE_ri_32 => condBr env I .ne 32
  | .JUGT_rr_32 | .JUGT_ri_32 => condBr env I .ugt 32
  | .JUGE_rr_32 | .JUGE_ri_32 => condBr env I .uge 32
  | .JULT_rr_32 | .JULT_ri_32 => condBr env I .ult 32
  | .JULE_rr_32 | .JULE_ri_32 => condBr env I .ule 32
  | .JSGT_rr_32 | .JSGT_ri_32 => condBr env I .sgt 32
  | .JSGE_rr_32 | .JSGE_ri_32 => condBr env I .sge 32
  | .JSLT_rr_32 | .JSLT_ri_32 => condBr env I .slt 32
  | .JSLE_rr_32 | .JSLE_ri_32 => condBr env I .sle 32
  | .JSET_rr | .JSET_ri => condSet env I 64
  | .JSET_rr_32 | .JSET_ri_32 => condSet env I 32
  | .XADDW | .XADDW32 | .XADDD | .XANDW32 | .XANDD | .XORW32 | .XORD | .XXORW32 | .XXORD
  | .XFADDW32 | .XFADDD | .XFANDW32 | .XFANDD | .XFORW32 | .XFORD | .XFXORW32 | .XFXORD
  | .XCHGW32 | .XCHGD => atomicRmw I
  | .CMPXCHGD => cmpxchg64 I
  | .CMPXCHGW32 => cmpxchg32 I
  | .JAL => jal env I
  | .RET => doReturn env
  | .OTHER => visitError

end BpfTv
