import BpfTv.Lib.Flow
import BpfTv.Lifter.Lift
import BpfTv.Mc.Streamer

/-!
# Lifting a function

`liftMCFunction`, and its two callers `run` (an assembly stream) and `runBytes` (a byte program).

The code of a lifted block is kept in one `Region` for each machine instruction, with the blocks
the instruction makes for itself; a terminator that leaves its region ends the lifted block.
`LFunction.flow` is the control flow of the lifted function, with the machine instructions that
come from the input as events.
-/

namespace BpfTv

open Control

/-! ## Lifted functions -/

/-- A machine instruction and its IR. -/
structure LInst where
  inst : MCInst
  code : Region
  deriving DecidableEq, Repr

/-- A lifted block; `tail` is what `liftMCFunction` writes behind an instruction that has left the
block without a terminator. -/
structure LBlock where
  name : String
  body : List LInst
  tail : Option Region
  deriving DecidableEq, Repr

/-- `init` is the code of `platformInit`, at the start of block 0. -/
structure LFunction where
  init : Region
  blocks : List LBlock
  deriving DecidableEq, Repr

/-- A terminator that stays in its region. -/
def Term.isLocal : Term → Bool
  | .br (.sub _) => true
  | .condBr _ (.sub _) (.sub _) => true
  | _ => false

/-- The terminators of a region that leave it. -/
def exits (r : Region) : List Term :=
  r.blocks.filterMap fun b => b.term.filter fun t => !t.isLocal

/-- The blocks that a terminator may go to. -/
def Term.dests : Term → List Nat
  | .br (.bb k) => [k]
  | .condBr _ (.bb t) (.bb f) => [t, f]
  | _ => []

/-- The regions of block `b`, without the code of `platformInit`. -/
def LBlock.regions (b : LBlock) : List Region := b.body.map (·.code) ++ b.tail.toList

/-- The regions of the function. -/
def LFunction.regions (F : LFunction) : List Region := F.init :: F.blocks.flatMap LBlock.regions

/-- Where control is: before the code of `platformInit`, or before region `i` of block `b`. -/
inductive Pos
  | init
  | block (b i : Nat)
  deriving DecidableEq, Repr

/-- The region at a position. -/
def LFunction.region? (F : LFunction) : Pos → Option Region
  | .init => some F.init
  | .block b i => F.blocks[b]?.bind fun B => B.regions[i]?

/-- Where a region is left by falling off its end. -/
def Pos.next : Pos → Pos
  | .init => .block 0 0
  | .block b i => .block b (i + 1)

/-- How control leaves a region: by its one terminator that leaves it, or off its end. -/
def exitOf (next : Pos) : List Term → Exit Pos
  | [] => .goto next
  | [.br (.bb k)] => .goto (.block k 0)
  | [.condBr _ (.bb t) (.bb f)] => .cond (.block t 0) (.block f 0)
  | [.ret _] => .stop
  | _ => .fell

/-- The machine instruction at a position. -/
def LFunction.inst? (F : LFunction) : Pos → Option MCInst
  | .init => none
  | .block b i => (F.blocks[b]?.bind fun B => B.body[i]?).map (·.inst)

/-- The control flow of the lifted function. An event is what `obs` sees of an instruction of the
input; the instructions that the lifter has made up are not seen. -/
def LFunction.flow {ε : Type} (obs : MCInst → ε) (F : LFunction) : Flow Pos ε where
  event p := ((F.inst? p).filter (·.place.isSome)).map obs
  exit p :=
    match F.region? p with
    | none => .fell
    | some r => exitOf p.next (exits r)

/-! ## `liftMCFunction` -/

/-- Run an action on a region of its own; `prev` is the terminator of the block so far. -/
def region (prev : Option Term) (m : LiftM Unit) : LiftM Region := do
  modify fun s => { s with code := ⟨[{ term := prev }], 0⟩ }
  m
  return (← get).code

/-- Lift instructions behind `prev`; also gives the terminator of the block after them. -/
def liftInsts (env : Env) : List MCInst → Option Term → LiftM (List LInst × Option Term)
  | [], prev => return ([], prev)
  | inst :: rest, prev => do
    let code ← region prev (lift env inst)
    let (body, last) ← liftInsts env rest code.term
    return (⟨inst, code⟩ :: body, last)

/-- Machine code falls through but LLVM isn't allowed to. -/
def fallThrough (env : Env) : LiftM Unit :=
  if env.succs.length = 0 then
    doReturn env
  else if env.succs.length = 1 then do
    let dst ← liftExcept (getBBByName env ((env.succs.head?.bind (env.bbNames[·]?)).getD ""))
    createBranch (.bb dst)
  else
    return ()

/-- The end of a block with terminator `last` so far; `verifyModule` wants it to have one. -/
def liftTail (env : Env) (last : Option Term) : LiftM (Option Region) :=
  if last.isSome then
    return none
  else do
    let code ← region none (fallThrough env)
    if code.term = none then
      throw brokenModule
    else
      return some code

def liftBlock (env : Env) (mbb : MCBasicBlock) : LiftM LBlock := do
  let env := { env with succs := mbb.succs }
  let (body, last) ← liftInsts env mbb.instrs none
  let tail ← liftTail env last
  return { name := mbb.name, body, tail }

def liftBlocks (env : Env) (BBs : List MCBasicBlock) : LiftM LFunction := do
  let init ← region none (platformInit env)
  let blocks ← BBs.mapM (liftBlock env)
  return { init, blocks }

/-- `liftMCFunction`. -/
def liftMCFunction (env : Env) (BBs : List MCBasicBlock) : Except LiftError LFunction := do
  let env := { env with bbNames := BBs.map (·.name) }
  let (F, _) ← (liftBlocks env BBs).run { globals := Globals.init env.module }
  return F

/-! ## Assembly -/

/-- The machine function of an assembly file. -/
def asmFunction (lineMap : Nat → Option SrcInst) (cs : List Callback) :
    Except LiftError MCFunction := do
  let S ← Streamer.emitAll lineMap cs
  let BBs ← generateSuccessors (checkEntryBlock (removeEmptyBlocks S.MF.BBs))
  return { S.MF with BBs }

/-- `run`. -/
def run (env : Env) (lineMap : Nat → Option SrcInst) (cs : List Callback) :
    Except LiftError LFunction := do
  let MF ← asmFunction lineMap cs
  liftMCFunction { env with module := { env.module with MCglobals := MF.MCglobals } } MF.BBs

/-! ## Byte programs -/

/-- What `MCDisassembler::getInstruction` says about the bytes from an offset on. -/
structure Disassembled where
  opcode : Opcode
  operands : List MCOperand
  size : Nat
  deriving DecidableEq, Repr

/-- LLVM's disassembler; `none` when it has no success. -/
abbrev Disassembler := List (BitVec 8) → Option Disassembled

structure DecodedInsn where
  inst : MCInst
  /-- Instruction start, in 8-byte units. -/
  unit : Nat
  /-- 1 or 2. -/
  units : Nat
  deriving DecidableEq, Repr

/-- Decode from offset `off` on. `fuel` bounds the number of instructions. -/
def decode (dis : Disassembler) (bytes : List (BitVec 8)) :
    Nat → Nat → Except LiftError (List DecodedInsn)
  | fuel, off =>
    if bytes.length ≤ off then
      .ok []
    else
      match fuel with
      | 0 => .error .outOfFuel
      | fuel + 1 =>
        match dis (bytes.drop off) with
        | none => .error (.exit ("ERROR: cannot disassemble instruction at offset " ++ toString off))
        | some d =>
          if d.size = 0 then
            .error (.exit ("ERROR: cannot disassemble instruction at offset " ++ toString off))
          else if d.opcode = .JAL ∧ (bytes.getD (off + 1) 0).extractLsb' 4 4 = 1 then
            .error (.exit "ERROR: bpf2bpf local calls are not supported yet")
          else do
            let insns ← decode dis bytes fuel (off + d.size)
            let inst : MCInst :=
              { opcode := d.opcode, operands := d.operands, place := some (off / 8) }
            return { inst, unit := off / 8, units := d.size / 8 } :: insns

/-- Sign-extend immediate operand `idx` from `bits`. -/
def MCInst.sext (I : MCInst) (idx bits : Nat) : Except LiftError MCInst := do
  match ← I.getOperand idx with
  | .imm v =>
    let v := if bits = 16 then v.bmod (2 ^ 16) else v.bmod (2 ^ 32)
    return { I with operands := I.operands.set idx (.imm v) }
  | _ => return I

/-- The tablegen decoder zero-extends immediate fields from their encoded width; sign-extend them
to match what the asm parser produces. -/
def signExtendImms (inst : MCInst) : Except LiftError MCInst :=
  let n := inst.operands.length
  if inst.opcode = .LD_imm64 ∨ inst.opcode = .NOP ∨ n = 0 then
    .ok inst
  else if inst.opcode.isBranch then do
    -- conditional branches may also carry a 32-bit rhs immediate
    let inst ← (if n = 3 then inst.sext 1 32 else .ok inst)
    inst.sext (n - 1) (if inst.opcode = .JMPL then 32 else 16)
  else if inst.opcode.isCall then
    inst.sext (n - 1) 32
  else
    match inst.opcode with
    | .LDD | .LDW | .LDH | .LDB | .LDWSX | .LDHSX | .LDBSX | .LDW32 | .LDH32 | .LDB32
    | .STD | .STW | .STH | .STB | .STW32 | .STH32 | .STB32 => inst.sext 2 16
    | .STD_imm | .STW_imm | .STH_imm | .STB_imm => do
      let inst ← inst.sext 0 32
      inst.sext 2 16
    | .CMPXCHGD | .CMPXCHGW32 => inst.sext 1 16
    | .XADDW | .XADDW32 | .XADDD | .XANDW32 | .XANDD | .XORW32 | .XORD | .XXORW32 | .XXORD
    | .XFADDW32 | .XFADDD | .XFANDW32 | .XFANDD | .XFORW32 | .XFORD | .XFXORW32 | .XFXORD
    | .XCHGW32 | .XCHGD => inst.sext 2 16
    | _ => inst.sext (n - 1) 32

/-- `branchTargetUnit`: the offset is the last operand. -/
def branchTargetUnit (di : DecodedInsn) : Except LiftError Int := do
  match ← di.inst.getOperand (di.inst.operands.length - 1) with
  | .imm off => return di.unit + di.units + off
  | _ => throw (.assertion "op.isImm()")

/-- The leaders that one instruction gives. -/
def leadersOf (di : DecodedInsn) : Except LiftError (List Nat) :=
  if di.inst.opcode.isBranch then do
    let t ← branchTargetUnit di
    return (if 0 ≤ t then [t.toNat] else []) ++ [di.unit + di.units]
  else if di.inst.opcode.isReturn then
    .ok [di.unit + di.units]
  else
    .ok []

def labelName (unit : Nat) : String := "L" ++ toString unit

/-- Rewrite the target of a branch from an offset to a symbol. -/
def rewriteTarget (insns : List DecodedInsn) (di : DecodedInsn) : Except LiftError DecodedInsn :=
  if di.inst.opcode.isBranch then do
    let tgt ← branchTargetUnit di
    if 0 ≤ tgt ∧ ∃ d ∈ insns, d.unit = tgt.toNat then
      let target := MCOperand.expr (.symbolRef (labelName tgt.toNat))
      let operands := di.inst.operands.set (di.inst.operands.length - 1) target
      return { di with inst := { di.inst with operands } }
    else
      throw (.exit ("ERROR: branch to unit " ++ toString tgt ++ " which is not an instruction boundary"))
  else
    .ok di

/-- Put an instruction into the current block, or into a new one at a leader. -/
def fillBlock (leaders : List Nat) (MF : MCFunction) (di : DecodedInsn) : MCFunction :=
  let MF := if di.unit ∈ leaders ∨ MF.BBs = [] then MF.addBlock (labelName di.unit) [] else MF
  MF.addInst di.inst

/-- The decoded instructions of a byte program, with sign-extended immediates. -/
def decodeProgram (dis : Disassembler) (bytes : List (BitVec 8)) :
    Except LiftError (List DecodedInsn) := do
  let insns ← decode dis bytes bytes.length 0
  if insns = [] then
    throw (.exit "ERROR: empty program")
  insns.mapM fun di => do return { di with inst := ← signExtendImms di.inst }

/-- The blocks of decoded instructions, before `checkEntryBlock`. -/
def blocksOfInsns (insns : List DecodedInsn) : Except LiftError (List MCBasicBlock) := do
  let leaders ← insns.mapM leadersOf
  let leaders := (insns.head?.map (·.unit)).toList ++ leaders.flatten
  let insns ← insns.mapM (rewriteTarget insns)
  return (insns.foldl (fillBlock leaders) {}).BBs

/-- `runBytes`. -/
def runBytes (env : Env) (dis : Disassembler) (bytes : List (BitVec 8)) :
    Except LiftError LFunction := do
  let insns ← decodeProgram dis bytes
  let BBs ← blocksOfInsns insns
  let BBs ← generateSuccessors (checkEntryBlock (removeEmptyBlocks BBs))
  liftMCFunction { env with bytesMode := true } BBs

end BpfTv
