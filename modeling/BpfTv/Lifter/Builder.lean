import BpfTv.Lifter.Globals

/-!
# Creating IR instructions

The lifter's state and the `create*` and `get*Const` functions of `mc2llvm`. Each writes one
instruction at the end of the current block (`LLVMBB`); writing behind a terminator gives a broken
module, which `verifyModule` rejects.
-/

namespace BpfTv

/-- The state of the lifter: the code written for the current machine instruction, the number of
the next IR instruction, the running offset into `@__bpf_tv_unspecified`, and the globals. -/
structure LState where
  code : Region := Emit.Code.fresh
  next : Nat := 0
  unspecifiedOff : Nat := 0
  globals : Globals
  deriving DecidableEq, Repr

abbrev LiftM := StateT LState (Except LiftError)

/-- `*out << msg; exit(-1)`. -/
def exitWith {α : Type} (msg : String) : LiftM α := throw (.exit msg)

/-- `if (p) { *out << msg; exit(-1); }`. -/
def exitIf (p : Prop) [Decidable p] (msg : String) : LiftM Unit :=
  if p then throw (.exit msg) else pure ()

/-- `assert`. -/
def assertThat (p : Prop) [Decidable p] (what : String) : LiftM Unit :=
  if p then pure () else throw (.assertion what)

def brokenModule : LiftError := .exit "ERROR: Lifted module is broken, this should not happen"

/-- Write an instruction. -/
def emit (op : Op) (ty : Ty) : LiftM Value := fun s =>
  if s.code.Open then
    .ok (.inst s.next ty, { s with code := s.code.push ⟨s.next, op⟩, next := s.next + 1 })
  else
    .error brokenModule

/-- Write a terminator. -/
def terminate (t : Term) : LiftM Unit := fun s =>
  if s.code.Open then .ok ((), { s with code := s.code.close t }) else .error brokenModule

/-- `BasicBlock::Create(Ctx, "", liftedFn)`. -/
def createBlock : LiftM Nat := fun s =>
  .ok (s.code.blocks.length, { s with code := s.code.newBlock })

/-- `LLVMBB = bb`. -/
def setLLVMBB (k : Nat) : LiftM Unit := fun s => .ok ((), { s with code := s.code.setBlock k })

/-! ## Constants -/

/-- `APInt(bits, val)` asserts that `val` fits. -/
def getUnsignedIntConst (val bits : Nat) : LiftM Value := do
  assertThat (val < 2 ^ bits) "Value is not an N-bit unsigned value"
  return .const bits (BitVec.ofNat bits val)

/-- `APInt(bits, val, /*signed=*/true)` asserts that `val` fits. -/
def getSignedIntConst (val : Int) (bits : Nat) : LiftM Value := do
  assertThat (-2 ^ (bits - 1) ≤ val ∧ val < 2 ^ (bits - 1)) "Value is not an N-bit signed value"
  return .const bits (BitVec.ofInt bits val)

def getAllOnesConst (bits : Nat) : Value := .const bits (BitVec.allOnes bits)

def getSignedMinConst (bits : Nat) : Value := .const bits (BitVec.intMin bits)

def getBoolConst (val : Bool) : Value := .const 1 (BitVec.ofBool val)

/-- `getMaskByType` of an integer type. -/
def getMaskByType (w : Nat) : LiftM Value := getUnsignedIntConst (w - 1) w

/-! ## Instructions -/

def createAlloca : LiftM Value := emit .alloca .ptr

def createLoad (ty : Ty) (ptr : Value) : LiftM Value := emit (.load ty ptr) ty

def createStore (v ptr : Value) : LiftM Unit := do
  let _ ← emit (.store v ptr) .void

/-- `createGEP(i8, base, {idx})`; at a constant offset into a global or the stack block it is that
address. -/
def createGEP (base idx : Value) : LiftM Value :=
  match base, idx with
  | .unspec off, .const _ c => return .unspec (off + c.toNat)
  | .stack off, .const _ c => return .stack (off + c.toNat)
  | base, idx => emit (.gep base idx) .ptr

def createBinop (a b : Value) (o : BinOp) : LiftM Value := emit (.bin o a b) a.ty

def createSub (a b : Value) : LiftM Value := createBinop a b .sub
def createAnd (a b : Value) : LiftM Value := createBinop a b .and
def createOr (a b : Value) : LiftM Value := createBinop a b .or
def createUDiv (a b : Value) : LiftM Value := createBinop a b .udiv
def createSDiv (a b : Value) : LiftM Value := createBinop a b .sdiv
def createURem (a b : Value) : LiftM Value := createBinop a b .urem
def createSRem (a b : Value) : LiftM Value := createBinop a b .srem
def createRawShl (a b : Value) : LiftM Value := createBinop a b .shl

/-- A shift by `b` masked to the width of `a`. -/
def createMasked (o : BinOp) (a b : Value) : LiftM Value := do
  assertThat (a.ty = b.ty) "Expected values of same type"
  let mask ← getMaskByType a.bitWidth
  let masked ← createBinop mask b .and
  createBinop a masked o

def createMaskedShl : Value → Value → LiftM Value := createMasked .shl
def createMaskedLShr : Value → Value → LiftM Value := createMasked .lshr
def createMaskedAShr : Value → Value → LiftM Value := createMasked .ashr

def createICmp (p : Pred) (a b : Value) : LiftM Value := emit (.icmp p a b) (.int 1)

def createBSwap (v : Value) : LiftM Value := emit (.bswap v) v.ty

/-- No instruction when the type is the same. -/
def createTrunc (v : Value) (w : Nat) : LiftM Value :=
  if v.ty = .int w then return v else emit (.cast .trunc v w) (.int w)

def createSExt (v : Value) (w : Nat) : LiftM Value := emit (.cast .sext v w) (.int w)

def createZExt (v : Value) (w : Nat) : LiftM Value := emit (.cast .zext v w) (.int w)

def createIntToPtr (v : Value) : LiftM Value := emit (.inttoptr v) .ptr

def createPtrToInt (v : Value) : LiftM Value := emit (.ptrtoint v) (.int 64)

def createExtractValue (v : Value) (w : Nat) : LiftM Value := emit (.extract0 v) (.int w)

def createTrap : LiftM Unit := do
  let _ ← emit .trap .void

def createBranch (dst : Target) : LiftM Unit := terminate (.br dst)

def createCondBranch (c : Value) (t f : Target) : LiftM Unit := terminate (.condBr c t f)

def createReturn (v : Option Value) : LiftM Unit := terminate (.ret v)

/-! ## Checked division

The four functions of the source come in two shapes: the unsigned ones guard against a zero
divisor, the signed ones also against the overflowing division. -/

/-- `createCheckedUDiv` and `createCheckedURem`; `op` is the guarded division. -/
def createCheckedUnsigned (op : Value → Value → LiftM Value) (a b ifDivByZero : Value) :
    LiftM Value := do
  let size := a.bitWidth
  let sizeb := b.bitWidth
  assertThat (size = sizeb) "size == sizeb"
  let divBB ← createBlock
  let retBB ← createBlock
  let zero ← getUnsignedIntConst 0 size
  let resPtr ← createAlloca
  createStore ifDivByZero resPtr
  let RHSIsZero ← createICmp .eq b zero
  createCondBranch RHSIsZero (.sub retBB) (.sub divBB)

  setLLVMBB divBB
  let divResult ← op a b
  createStore divResult resPtr
  createBranch (.sub retBB)

  setLLVMBB retBB
  createLoad (.int size) resPtr

/-- `createCheckedSDiv` and `createCheckedSRem`. -/
def createCheckedSigned (op : Value → Value → LiftM Value) (a b ifDivByZero ifOverflow : Value) :
    LiftM Value := do
  let size := a.bitWidth
  let sizeb := b.bitWidth
  assertThat (size = sizeb) "size == sizeb"
  let checkOverflowBB ← createBlock
  let overflowBB ← createBlock
  let divBB ← createBlock
  let retBB ← createBlock
  let allOnes := getAllOnesConst size
  let zero ← getUnsignedIntConst 0 size
  let resPtr ← createAlloca
  createStore ifDivByZero resPtr
  let RHSIsZero ← createICmp .eq b zero
  createCondBranch RHSIsZero (.sub retBB) (.sub checkOverflowBB)

  setLLVMBB checkOverflowBB
  let intMin := getSignedMinConst size
  let LHSIsIntMin ← createICmp .eq a intMin
  let RHSIsAllOnes ← createICmp .eq b allOnes
  let isOverflow ← createAnd LHSIsIntMin RHSIsAllOnes
  createCondBranch isOverflow (.sub overflowBB) (.sub divBB)

  setLLVMBB overflowBB
  createStore ifOverflow resPtr
  createBranch (.sub retBB)

  setLLVMBB divBB
  let divResult ← op a b
  createStore divResult resPtr
  createBranch (.sub retBB)

  setLLVMBB retBB
  createLoad (.int size) resPtr

def createCheckedUDiv : Value → Value → Value → LiftM Value := createCheckedUnsigned createUDiv
def createCheckedURem : Value → Value → Value → LiftM Value := createCheckedUnsigned createURem
def createCheckedSDiv : Value → Value → Value → Value → LiftM Value := createCheckedSigned createSDiv
def createCheckedSRem : Value → Value → Value → Value → LiftM Value := createCheckedSigned createSRem

end BpfTv
