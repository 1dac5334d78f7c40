import BpfTv.Mc.Inst

/-!
# The streamer

`MCStreamerWrapper` turns the callbacks of the assembly parser into an `MCFunction`: a label opens
a block, an instruction behind a terminator opens one with a generated name. `checkEntryBlock` puts
a block in front that nothing can jump to, `generateSuccessors` fills in the edges.
-/

namespace BpfTv

/-- The last line seen. -/
inductive ASMLine
  | none
  | label
  | non_term_instr
  | terminator
  deriving DecidableEq, Repr

/-- The value of a data directive. -/
inductive MCValue
  | symbolRef (sym : String)
  /-- Symbol plus constant, or symbol minus constant. -/
  | binary (sub : Bool) (sym : String) (offset : Int)
  | other
  deriving DecidableEq, Repr

/-- The callbacks that change the streamer. -/
inductive Callback
  | emitLabel (section_ lab : String)
  | emitInstruction (opcode : Opcode) (operands : List MCOperand)
  | emitDwarfLocDirective (line : Nat)
  | emitValueImpl (value : MCValue)
  | emitBytes (data : List (BitVec 8))
  /-- `none` is a size that is not a constant. -/
  | emitFill (numBytes : Option Int) (fillValue : Nat)
  | emitValueToAlignment (align : Nat)
  | emitELFSize
  | emitCommonSymbol (sym : String) (size align : Nat)
  deriving DecidableEq, Repr

/-- The global every `MCFunction` starts with. -/
def stackChkGuard : MCGlobal :=
  { name := "__stack_chk_guard", align := 8, section_ := ".rodata"
    data := List.replicate 8 (.byte 55#8) }

structure Streamer where
  MF : MCFunction := { MCglobals := [stackChkGuard] }
  prev_line : ASMLine := .none
  curAlign : Nat := 1
  curSym : String := ""
  curSec : String := ""
  FunctionEnded : Bool := false
  curDebugLine : Nat := 0
  curROData : List RODataItem := []
  cnt : Nat := 0
  deriving DecidableEq, Repr

/-- `addBlock`. -/
def MCFunction.addBlock (MF : MCFunction) (b_name : String) (instrs : List MCInst) : MCFunction :=
  { MF with BBs := MF.BBs ++ [{ name := b_name, instrs }] }

/-- `curBB->addInst`; `curBB` is the block added last. -/
def MCFunction.addInst (MF : MCFunction) (i : MCInst) : MCFunction :=
  { MF with BBs := MF.BBs.modify (MF.BBs.length - 1) fun b => { b with instrs := b.instrs ++ [i] } }

/-- `getLabel`. -/
def MCFunction.getLabel (MF : MCFunction) : String × MCFunction :=
  (MF.name ++ toString (MF.label_cnt + 1), { MF with label_cnt := MF.label_cnt + 1 })

/-- The sentinel that `emitLabel` puts at the start of a block. -/
def sentinelNOP : MCInst := { opcode := .NOP, operands := [] }

/-- `secName.starts_with(".debug")`. -/
def isDebugSection (secName : String) : Bool := ".debug".toList.isPrefixOf secName.toList

/-- `addConstant`. -/
def Streamer.addConstant (S : Streamer) : Streamer :=
  if S.curROData = [] then
    S
  else
    let g : MCGlobal :=
      { name := S.curSym, align := S.curAlign, section_ := S.curSec, data := S.curROData }
    { S with MF := { S.MF with MCglobals := S.MF.MCglobals ++ [g] }, curROData := [] }

/-- `emitLabel`. -/
def Streamer.emitLabel (S : Streamer) (secName lab : String) : Streamer :=
  if isDebugSection secName then
    { S with curSec := secName }
  else
    let S := { S.addConstant with curSym := lab, curSec := secName }
    let S := if lab = ".Lfunc_end0" then { S with FunctionEnded := true } else S
    if S.FunctionEnded then
      S
    else
      { S with MF := S.MF.addBlock lab [sentinelNOP], prev_line := .label }

/-- The block that an instruction goes to: a new one behind a terminator. -/
def Streamer.openBlock (S : Streamer) : MCFunction :=
  if S.prev_line = .terminator then
    let (label, MF) := S.MF.getLabel
    MF.addBlock label []
  else
    S.MF

/-- `emitInstruction`. -/
def Streamer.emitInstruction (S : Streamer) (lineMap : Nat → Option SrcInst) (opcode : Opcode)
    (operands : List MCOperand) : Except LiftError Streamer :=
  if S.prev_line = .none then
    .error (.assertion "prev_line != ASMLine::none")
  else
    let i : MCInst := { opcode, operands, loc := lineMap S.curDebugLine, place := some S.cnt }
    .ok { S with
      MF := S.openBlock.addInst i
      prev_line := if opcode.isTerminator then .terminator else .non_term_instr
      cnt := S.cnt + 1 }

/-- `emitValueImpl`. -/
def Streamer.emitValueImpl (S : Streamer) (value : MCValue) : Except LiftError Streamer :=
  if isDebugSection S.curSec then
    .ok S
  else
    match value with
    | .symbolRef name => .ok { S with curROData := S.curROData ++ [.offsetSym name 0] }
    | .binary _ sym offset => .ok { S with curROData := S.curROData ++ [.offsetSym sym offset] }
    | .other => .error (.assertion "handle this")

/-- `emitFill`: a negative size writes nothing. -/
def Streamer.emitFill (S : Streamer) (numBytes : Option Int) (fillValue : Nat) :
    Except LiftError Streamer :=
  match numBytes with
  | none => .ok S
  | some bytes =>
    if fillValue < 256 then
      let rod := List.replicate bytes.toNat (RODataItem.byte (BitVec.ofNat 8 fillValue))
      .ok { S with curROData := S.curROData ++ rod }
    else
      .error (.assertion "FillValue < 256")

/-- `emitCommonSymbol`; the bytes are the character `'0'`. -/
def Streamer.emitCommonSymbol (S : Streamer) (sym : String) (size align : Nat) : Streamer :=
  let g : MCGlobal :=
    { name := sym, align, section_ := "common", data := List.replicate size (.byte 48#8) }
  { S with MF := { S.MF with MCglobals := S.MF.MCglobals ++ [g] } }

def Streamer.emit (lineMap : Nat → Option SrcInst) (S : Streamer) :
    Callback → Except LiftError Streamer
  | .emitLabel secName lab => .ok (S.emitLabel secName lab)
  | .emitInstruction opcode operands => S.emitInstruction lineMap opcode operands
  | .emitDwarfLocDirective line => .ok { S with curDebugLine := line }
  | .emitValueImpl value => S.emitValueImpl value
  | .emitBytes data => .ok { S with curROData := S.curROData ++ data.map .byte }
  | .emitFill numBytes fillValue => S.emitFill numBytes fillValue
  | .emitValueToAlignment align => .ok { S with curAlign := align }
  | .emitELFSize => .ok S.addConstant
  | .emitCommonSymbol sym size align => .ok (S.emitCommonSymbol sym size align)

/-- The streamer after the callbacks of a whole assembly file. -/
def Streamer.emitAll (lineMap : Nat → Option SrcInst) (cs : List Callback) :
    Except LiftError Streamer :=
  cs.foldlM (Streamer.emit lineMap) {}

/-! ## The blocks of the function -/

/-- `removeEmptyBlocks`. -/
def removeEmptyBlocks (BBs : List MCBasicBlock) : List MCBasicBlock :=
  BBs.filter fun b => b.instrs ≠ []

/-- The name of the entry block, which no label has. -/
def entryName : String := "bpf-tv#entry"

/-- The jump in the entry block. -/
def entryJump : MCInst := { opcode := .JMP, operands := [.imm 1] }

/-- `checkEntryBlock`. -/
def checkEntryBlock (BBs : List MCBasicBlock) : List MCBasicBlock :=
  { name := entryName, instrs := [entryJump] } :: BBs

/-- The first symbol among the operands. -/
def targetLabel? (I : MCInst) : Option String :=
  I.operands.findSome? fun
    | .expr (.symbolRef sym) => some sym
    | _ => none

/-- `findTargetLabel`. -/
def findTargetLabel (I : MCInst) : Except LiftError String :=
  match targetLabel? I with
  | some sym => .ok sym
  | none => .error (.assertion "could not find target label in arm branch instruction")

/-- `cur_bb.addSucc(next_bb_ptr)` for the block behind number `i`, when there is one. -/
def MCBasicBlock.addNext (b : MCBasicBlock) (BBs : List MCBasicBlock) (i : Nat) : MCBasicBlock :=
  if i + 1 < BBs.length then b.addSucc (i + 1) else b

/-- One iteration of the loop of `generateSuccessors`: block `b` is number `i`. -/
def addSuccessors (BBs : List MCBasicBlock) (i : Nat) (b : MCBasicBlock) :
    Except LiftError MCBasicBlock :=
  match b.instrs.getLast? with
  | none => .ok b
  | some last =>
    if i = 0 && last.opcode.isUnconditionalBranch && last.operands.head?.any MCOperand.isImm then
      -- the source adds a null successor when there is no next block, and fails when it is used
      if i + 1 < BBs.length then .ok (b.addSucc (i + 1)) else .error (.assertion "null successor")
    else if last.opcode.isConditionalBranch then do
      let target ← findTargetLabel last
      match findBlockByName BBs target with
      | some k => return (b.addSucc k).addNext BBs i
      | none => throw (.assertion "target_bb")
    else if last.opcode.isUnconditionalBranch then do
      let target ← findTargetLabel last
      match findBlockByName BBs target with
      | some k => return b.addSucc k
      | none => return b
    else if last.opcode.isReturn then
      .ok b
    else
      .ok (b.addNext BBs i)

/-- `generateSuccessors`. -/
def generateSuccessors (BBs : List MCBasicBlock) : Except LiftError (List MCBasicBlock) :=
  BBs.zipIdx.mapM fun (b, i) => addSuccessors BBs i b

end BpfTv
