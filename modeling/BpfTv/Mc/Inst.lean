import BpfTv.Llvm.Ir

/-!
# Machine instructions and machine blocks

`MCInst` with the BPF opcodes `lift` has a case for, the TableGen flags the lifter asks for, and
the `MCBasicBlock`s and `MCFunction` that the streamer and `runBytes` fill.
-/

namespace BpfTv

/-- Why lifting stops: `*out << msg; exit(-1)`, or a failed assertion. -/
inductive LiftError
  | exit (msg : String)
  | assertion (what : String)
  /-- The deferred-globals loop has not ended within the fuel of the model. -/
  | outOfFuel
  deriving DecidableEq, Repr

theorem ok_of_isSome {α : Type} {x : Except LiftError α} (h : x.toOption.isSome = true) :
    ∃ a, x = .ok a := by
  cases x with
  | error e => cases h
  | ok a => exact ⟨a, rfl⟩

theorem except_bind_ok {ε α β : Type} {x : Except ε α} {f : α → Except ε β} {b : β}
    (h : x >>= f = .ok b) : ∃ a, x = .ok a ∧ f a = .ok b := by
  cases x with
  | error e => cases h
  | ok a => exact ⟨a, rfl, h⟩

instance (priority := high) neZero_regs : NeZero 12 := ⟨by decide⟩

/-- `R11` is an internal pseudo register of LLVM that assembly never names. -/
inductive Reg
  | R (i : Fin 12)
  | W (i : Fin 12)
  deriving DecidableEq, Repr

/-- `mapRegToBackingReg`: the 64-bit register behind a register or its 32-bit alias. -/
def Reg.mapRegToBackingReg : Reg → Fin 12
  | R i | W i => i

inductive MCExpr
  | symbolRef (sym : String)
  | specifier (spec : Nat) (sym : String)
  | other
  deriving DecidableEq, Repr

/-- `imm` holds an `int64_t`. -/
inductive MCOperand
  | reg (r : Reg)
  | imm (v : Int)
  | expr (e : MCExpr)
  deriving DecidableEq, Repr

def MCOperand.isImm : MCOperand → Bool
  | imm _ => true
  | _ => false

def MCOperand.isExpr : MCOperand → Bool
  | expr _ => true
  | _ => false

/-- The BPF opcodes that `lift` has a case for; `OTHER` is any other opcode of LLVM's BPF target,
on which `lift` stops with `visitError`. -/
inductive Opcode
  | NOP
  | ADD_rr | ADD_ri | ADD_rr_32 | ADD_ri_32
  | SUB_rr | SUB_ri | SUB_rr_32 | SUB_ri_32
  | MUL_rr | MUL_ri | MUL_rr_32 | MUL_ri_32
  | AND_rr | AND_ri | AND_rr_32 | AND_ri_32
  | OR_rr | OR_ri | OR_rr_32 | OR_ri_32
  | XOR_rr | XOR_ri | XOR_rr_32 | XOR_ri_32
  | SLL_rr | SLL_ri | SLL_rr_32 | SLL_ri_32
  | SRL_rr | SRL_ri | SRL_rr_32 | SRL_ri_32
  | SRA_rr | SRA_ri | SRA_rr_32 | SRA_ri_32
  | DIV_rr | DIV_ri | DIV_rr_32 | DIV_ri_32
  | MOD_rr | MOD_ri | MOD_rr_32 | MOD_ri_32
  | SDIV_rr | SDIV_ri | SDIV_rr_32 | SDIV_ri_32
  | SMOD_rr | SMOD_ri | SMOD_rr_32 | SMOD_ri_32
  | NEG_64 | NEG_32
  | MOV_rr | MOV_ri | MOV_rr_32 | MOV_ri_32 | MOV_32_64
  | MOVSX_rr_8 | MOVSX_rr_16 | MOVSX_rr_32 | MOVSX_rr_32_8 | MOVSX_rr_32_16
  | LD_imm64
  | BE16 | BE32 | BE64 | LE16 | LE32 | LE64 | BSWAP16 | BSWAP32 | BSWAP64
  | LDD | LDW | LDH | LDB | LDWSX | LDHSX | LDBSX | LDW32 | LDH32 | LDB32
  | STD | STW | STH | STB | STW32 | STH32 | STB32 | STD_imm | STW_imm | STH_imm | STB_imm
  | JMP | JMPL
  | JEQ_rr | JEQ_ri | JEQ_rr_32 | JEQ_ri_32
  | JNE_rr | JNE_ri | JNE_rr_32 | JNE_ri_32
  | JUGT_rr | JUGT_ri | JUGT_rr_32 | JUGT_ri_32
  | JUGE_rr | JUGE_ri | JUGE_rr_32 | JUGE_ri_32
  | JULT_rr | JULT_ri | JULT_rr_32 | JULT_ri_32
  | JULE_rr | JULE_ri | JULE_rr_32 | JULE_ri_32
  | JSGT_rr | JSGT_ri | JSGT_rr_32 | JSGT_ri_32
  | JSGE_rr | JSGE_ri | JSGE_rr_32 | JSGE_ri_32
  | JSLT_rr | JSLT_ri | JSLT_rr_32 | JSLT_ri_32
  | JSLE_rr | JSLE_ri | JSLE_rr_32 | JSLE_ri_32
  | JSET_rr | JSET_ri | JSET_rr_32 | JSET_ri_32
  | XADDW | XADDW32 | XADDD | XANDW32 | XANDD | XORW32 | XORD | XXORW32 | XXORD
  | XFADDW32 | XFADDD | XFANDW32 | XFANDD | XFORW32 | XFORD | XFXORW32 | XFXORD
  | XCHGW32 | XCHGD | CMPXCHGD | CMPXCHGW32
  | JAL | RET
  | OTHER
  deriving DecidableEq, Repr

namespace Opcode

/-- The conditional jumps of BPFInstrInfo.td. -/
def isCondJump : Opcode → Bool
  | .JEQ_rr | .JEQ_ri | .JEQ_rr_32 | .JEQ_ri_32 | .JNE_rr | .JNE_ri | .JNE_rr_32 | .JNE_ri_32
  | .JUGT_rr | .JUGT_ri | .JUGT_rr_32 | .JUGT_ri_32 | .JUGE_rr | .JUGE_ri | .JUGE_rr_32 | .JUGE_ri_32
  | .JULT_rr | .JULT_ri | .JULT_rr_32 | .JULT_ri_32 | .JULE_rr | .JULE_ri | .JULE_rr_32 | .JULE_ri_32
  | .JSGT_rr | .JSGT_ri | .JSGT_rr_32 | .JSGT_ri_32 | .JSGE_rr | .JSGE_ri | .JSGE_rr_32 | .JSGE_ri_32
  | .JSLT_rr | .JSLT_ri | .JSLT_rr_32 | .JSLT_ri_32 | .JSLE_rr | .JSLE_ri | .JSLE_rr_32 | .JSLE_ri_32
  | .JSET_rr | .JSET_ri | .JSET_rr_32 | .JSET_ri_32 => true
  | _ => false

/-- TableGen's `isBranch`. -/
def isBranch (op : Opcode) : Bool := op = JMP || op = JMPL || op.isCondJump

/-- TableGen's `isBarrier`. -/
def isBarrier (op : Opcode) : Bool := op = JMP || op = JMPL || op = RET

/-- TableGen's `isReturn`. -/
def isReturn (op : Opcode) : Bool := op = RET

/-- TableGen's `isTerminator`. -/
def isTerminator (op : Opcode) : Bool := op.isBranch || op = RET

/-- TableGen's `isCall`. -/
def isCall (op : Opcode) : Bool := op = JAL

/-- `MCInstrAnalysis::isConditionalBranch`. -/
def isConditionalBranch (op : Opcode) : Bool := op.isBranch && !op.isBarrier

/-- `MCInstrAnalysis::isUnconditionalBranch`. -/
def isUnconditionalBranch (op : Opcode) : Bool := op.isBranch && op.isBarrier

theorem isConditionalBranch_eq (op : Opcode) : op.isConditionalBranch = op.isCondJump := by
  cases op <;> rfl

/-- A terminator is a conditional jump, a jump or a return, and only one of them. -/
theorem kinds (op : Opcode) :
    (op.isTerminator = false ∧ op.isCondJump = false ∧ op.isUnconditionalBranch = false ∧
        op.isReturn = false) ∨
      (op.isTerminator = true ∧ op.isCondJump = true ∧ op.isUnconditionalBranch = false ∧
        op.isReturn = false) ∨
      (op.isTerminator = true ∧ op.isCondJump = false ∧ op.isUnconditionalBranch = true ∧
        op.isReturn = false) ∨
      (op.isTerminator = true ∧ op.isCondJump = false ∧ op.isUnconditionalBranch = false ∧
        op.isReturn = true) := by
  cases op <;> decide

variable {op : Opcode}

theorem straight_flags (h : op.isTerminator = false) :
    op.isCondJump = false ∧ op.isUnconditionalBranch = false ∧ op.isReturn = false := by
  rcases op.kinds with hk | hk | hk | hk <;> simp_all

theorem cond_flags (h : op.isCondJump = true) :
    op.isTerminator = true ∧ op.isUnconditionalBranch = false ∧ op.isReturn = false := by
  rcases op.kinds with hk | hk | hk | hk <;> simp_all

theorem jump_flags (h : op.isUnconditionalBranch = true) :
    op.isTerminator = true ∧ op.isCondJump = false ∧ op.isReturn = false := by
  rcases op.kinds with hk | hk | hk | hk <;> simp_all

theorem isBranch_eq (op : Opcode) : op.isBranch = (op.isCondJump || op.isUnconditionalBranch) := by
  cases op <;> rfl

end Opcode

/-- The source instruction a `.loc` line leads to; the lifter only looks into calls. -/
inductive SrcInst
  | call (ci : CallInst)
  | other (id : Nat)
  deriving DecidableEq, Repr

/-- `loc` is the source instruction stored as the instruction's location. `place` is not part of
LLVM's `MCInst`: it is the place of the instruction in the input (its unit in a byte program, its
number in an assembly stream), and `none` for the instructions the lifter makes up. -/
structure MCInst where
  opcode : Opcode
  operands : List MCOperand
  loc : Option SrcInst := none
  place : Option Nat := none
  deriving DecidableEq, Repr

/-- `getOperand`. -/
def MCInst.getOperand (I : MCInst) (idx : Nat) : Except LiftError MCOperand :=
  match I.operands[idx]? with
  | some op => .ok op
  | none => .error (.assertion "operand index in range")

/-- `succs` are indices into `MCFunction.BBs`, in insertion order and without repetition
(`SetVector`). -/
structure MCBasicBlock where
  name : String
  instrs : List MCInst
  succs : List Nat := []
  deriving DecidableEq, Repr

/-- `addSucc`. -/
def MCBasicBlock.addSucc (b : MCBasicBlock) (k : Nat) : MCBasicBlock :=
  if k ∈ b.succs then b else { b with succs := b.succs ++ [k] }

/-- An item of a global's data: a symbol plus offset (8 bytes), or a byte. -/
inductive RODataItem
  | offsetSym (sym : String) (offset : Int)
  | byte (b : BitVec 8)
  deriving DecidableEq, Repr

structure MCGlobal where
  name : String
  align : Nat
  section_ : String
  data : List RODataItem
  deriving DecidableEq, Repr

structure MCFunction where
  name : String := ""
  label_cnt : Nat := 0
  BBs : List MCBasicBlock := []
  MCglobals : List MCGlobal := []
  deriving DecidableEq, Repr

/-- `findBlockByName`: the first block of that name. -/
def findBlockByName (BBs : List MCBasicBlock) (name : String) : Option Nat :=
  BBs.findIdx? fun b => b.name = name

end BpfTv
