import BpfTv.Mc.Inst

/-!
# The register instructions of RFC 9669

What the instructions that touch only registers compute, and which conditional jumps are taken.
`RegInsn.mc` and `JmpInsn.mc` give the `MCInst` that LLVM's BPF target has for each of them: a
destination that is also an operand is listed twice, 32-bit operations name `w` registers, and
immediates are sign-extended.
-/

namespace BpfTv

inductive Width
  | w32 | w64
  deriving DecidableEq, Repr

def Width.bits : Width → Nat
  | w32 => 32
  | w64 => 64

/-- The second operand: a register or a 32-bit immediate. -/
inductive Src
  | reg (r : Fin 12)
  | imm (v : BitVec 32)
  deriving DecidableEq, Repr

abbrev Regs := Fin 12 → BitVec 64

/-- Operations take the low bits of a register, or the sign-extended immediate. -/
def Src.value (src : Src) (regs : Regs) (w : Nat) : BitVec w :=
  match src with
  | reg r => (regs r).setWidth w
  | imm v => v.signExtend w

/-! ## Arithmetic -/

inductive AluOp
  | add | sub | mul | div | sdiv | or | and | lsh | rsh | mod | smod | xor | mov | arsh
  deriving DecidableEq, Repr

/-- Division by zero gives zero, modulo by zero keeps the dividend, the quotient of the signed
division is truncated and wraps, shift amounts are taken modulo the width. -/
def AluOp.eval {w : Nat} (op : AluOp) (dst src : BitVec w) : BitVec w :=
  match op with
  | add => dst + src
  | sub => dst - src
  | mul => dst * src
  | div => if src = 0 then 0 else BitVec.ofNat w (dst.toNat / src.toNat)
  | sdiv => if src = 0 then 0 else BitVec.ofInt w (dst.toInt.tdiv src.toInt)
  | or => dst ||| src
  | and => dst &&& src
  | lsh => dst <<< (src.toNat % w)
  | rsh => dst >>> (src.toNat % w)
  | mod => if src = 0 then dst else BitVec.ofNat w (dst.toNat % src.toNat)
  | smod => if src = 0 then dst else BitVec.ofInt w (dst.toInt.tmod src.toInt)
  | xor => dst ^^^ src
  | mov => src
  | arsh => dst.sshiftRight (src.toNat % w)

/-- Sign-extending moves: the width of the operation and of the source. -/
inductive MovsxOp
  | w64b8 | w64b16 | w64b32 | w32b8 | w32b16
  deriving DecidableEq, Repr

def MovsxOp.width : MovsxOp → Width
  | w64b8 | w64b16 | w64b32 => .w64
  | w32b8 | w32b16 => .w32

def MovsxOp.bits : MovsxOp → Nat
  | w64b8 | w32b8 => 8
  | w64b16 | w32b16 => 16
  | w64b32 => 32

/-- Byte swaps: to little endian, to big endian and unconditional, on a little-endian machine. -/
inductive EndOp
  | le16 | le32 | le64 | be16 | be32 | be64 | bswap16 | bswap32 | bswap64
  deriving DecidableEq, Repr

def EndOp.bytes : EndOp → Nat
  | le16 | be16 | bswap16 => 2
  | le32 | be32 | bswap32 => 4
  | le64 | be64 | bswap64 => 8

def EndOp.swaps : EndOp → Bool
  | le16 | le32 | le64 => false
  | _ => true

/-- The `n` low bytes of `x` in the opposite order: the lowest goes to the top. -/
def swapBytes : Nat → Nat → Nat
  | 0, _ => 0
  | n + 1, x => x % 256 * 256 ^ n + swapBytes n (x / 256)

def EndOp.eval (op : EndOp) (x : BitVec 64) : BitVec 64 :=
  if op.swaps then BitVec.ofNat 64 (swapBytes op.bytes x.toNat)
  else BitVec.ofNat 64 (x.toNat % 256 ^ op.bytes)

/-- The instructions that read and write registers only. -/
inductive RegInsn
  | alu (op : AluOp) (w : Width) (dst : Fin 12) (src : Src)
  | neg (w : Width) (dst : Fin 12)
  | movsx (op : MovsxOp) (dst src : Fin 12)
  /-- The move of a `w` register to an `r` register. -/
  | mov32_64 (dst src : Fin 12)
  | endian (op : EndOp) (dst : Fin 12)
  | ldImm64 (dst : Fin 12) (v : BitVec 64)
  deriving DecidableEq, Repr

def RegInsn.dst : RegInsn → Fin 12
  | alu _ _ dst _ | neg _ dst | movsx _ dst _ | mov32_64 dst _ | endian _ dst | ldImm64 dst _ => dst

/-- The new value of the destination; 32-bit operations zero its upper half. -/
def RegInsn.result (i : RegInsn) (regs : Regs) : BitVec 64 :=
  match i with
  | alu op w dst src =>
    (op.eval ((regs dst).setWidth w.bits) (src.value regs w.bits)).setWidth 64
  | neg w dst => (-(regs dst).setWidth w.bits).setWidth 64
  | movsx op _ src =>
    (((regs src).setWidth op.bits).signExtend op.width.bits).setWidth 64
  | mov32_64 _ src => ((regs src).setWidth 32).setWidth 64
  | endian op dst => op.eval (regs dst)
  | ldImm64 _ v => v

/-- The register file after the instruction. -/
def RegInsn.exec (i : RegInsn) (regs : Regs) : Regs := Function.update regs i.dst (i.result regs)

/-! ## Conditional jumps -/

inductive JmpOp
  | eq | ne | ugt | uge | ult | ule | sgt | sge | slt | sle | set
  deriving DecidableEq, Repr

/-- Unsigned and signed order, and the bit test. -/
def JmpOp.eval {w : Nat} (op : JmpOp) (dst src : BitVec w) : Bool :=
  match op with
  | eq => dst.toNat = src.toNat
  | ne => dst.toNat ≠ src.toNat
  | ugt => dst.toNat > src.toNat
  | uge => dst.toNat ≥ src.toNat
  | ult => dst.toNat < src.toNat
  | ule => dst.toNat ≤ src.toNat
  | sgt => dst.toInt > src.toInt
  | sge => dst.toInt ≥ src.toInt
  | slt => dst.toInt < src.toInt
  | sle => dst.toInt ≤ src.toInt
  | set => dst.toNat &&& src.toNat ≠ 0

structure JmpInsn where
  op : JmpOp
  w : Width
  dst : Fin 12
  src : Src
  target : String
  deriving DecidableEq, Repr

/-- The jump is taken. -/
def JmpInsn.taken (j : JmpInsn) (regs : Regs) : Bool :=
  j.op.eval ((regs j.dst).setWidth j.w.bits) (j.src.value regs j.w.bits)

/-! ## The `MCInst`s -/

/-- The register of the class that operations of this width use. -/
def Width.reg : Width → Fin 12 → Reg
  | w32 => .W
  | w64 => .R

def Src.operand (src : Src) (w : Width) : MCOperand :=
  match src with
  | reg r => .reg (w.reg r)
  | imm v => .imm v.toInt

/-- One opcode for each width and each form of the second operand. -/
def Width.opcode (w : Width) (src : Src) (rr ri rr32 ri32 : Opcode) : Opcode :=
  match w, src with
  | w64, .reg _ => rr
  | w64, .imm _ => ri
  | w32, .reg _ => rr32
  | w32, .imm _ => ri32

open Opcode in
def AluOp.opcode (op : AluOp) (w : Width) (src : Src) : Opcode :=
  match op with
  | add => w.opcode src ADD_rr ADD_ri ADD_rr_32 ADD_ri_32
  | sub => w.opcode src SUB_rr SUB_ri SUB_rr_32 SUB_ri_32
  | mul => w.opcode src MUL_rr MUL_ri MUL_rr_32 MUL_ri_32
  | div => w.opcode src DIV_rr DIV_ri DIV_rr_32 DIV_ri_32
  | sdiv => w.opcode src SDIV_rr SDIV_ri SDIV_rr_32 SDIV_ri_32
  | or => w.opcode src OR_rr OR_ri OR_rr_32 OR_ri_32
  | and => w.opcode src AND_rr AND_ri AND_rr_32 AND_ri_32
  | lsh => w.opcode src SLL_rr SLL_ri SLL_rr_32 SLL_ri_32
  | rsh => w.opcode src SRL_rr SRL_ri SRL_rr_32 SRL_ri_32
  | mod => w.opcode src MOD_rr MOD_ri MOD_rr_32 MOD_ri_32
  | smod => w.opcode src SMOD_rr SMOD_ri SMOD_rr_32 SMOD_ri_32
  | xor => w.opcode src XOR_rr XOR_ri XOR_rr_32 XOR_ri_32
  | mov => w.opcode src MOV_rr MOV_ri MOV_rr_32 MOV_ri_32
  | arsh => w.opcode src SRA_rr SRA_ri SRA_rr_32 SRA_ri_32

open Opcode in
def MovsxOp.opcode : MovsxOp → Opcode
  | w64b8 => MOVSX_rr_8
  | w64b16 => MOVSX_rr_16
  | w64b32 => MOVSX_rr_32
  | w32b8 => MOVSX_rr_32_8
  | w32b16 => MOVSX_rr_32_16

/-- The class of the source register: `MOVSX_rr_32` reads a `w` register. -/
def MovsxOp.srcWidth : MovsxOp → Width
  | w64b8 | w64b16 => .w64
  | w64b32 | w32b8 | w32b16 => .w32

open Opcode in
def EndOp.opcode : EndOp → Opcode
  | le16 => LE16
  | le32 => LE32
  | le64 => LE64
  | be16 => BE16
  | be32 => BE32
  | be64 => BE64
  | bswap16 => BSWAP16
  | bswap32 => BSWAP32
  | bswap64 => BSWAP64

def RegInsn.mc : RegInsn → MCInst
  | alu .mov w dst src =>
    { opcode := AluOp.mov.opcode w src, operands := [.reg (w.reg dst), src.operand w] }
  | alu op w dst src =>
    { opcode := op.opcode w src
      operands := [.reg (w.reg dst), .reg (w.reg dst), src.operand w] }
  | neg w dst =>
    { opcode := match w with
        | .w32 => .NEG_32
        | .w64 => .NEG_64
      operands := [.reg (w.reg dst), .reg (w.reg dst)] }
  | movsx op dst src =>
    { opcode := op.opcode, operands := [.reg (op.width.reg dst), .reg (op.srcWidth.reg src)] }
  | mov32_64 dst src => { opcode := .MOV_32_64, operands := [.reg (.R dst), .reg (.W src)] }
  | endian op dst => { opcode := op.opcode, operands := [.reg (.R dst), .reg (.R dst)] }
  | ldImm64 dst v => { opcode := .LD_imm64, operands := [.reg (.R dst), .imm v.toInt] }

open Opcode in
def JmpOp.opcode (op : JmpOp) (w : Width) (src : Src) : Opcode :=
  match op with
  | eq => w.opcode src JEQ_rr JEQ_ri JEQ_rr_32 JEQ_ri_32
  | ne => w.opcode src JNE_rr JNE_ri JNE_rr_32 JNE_ri_32
  | ugt => w.opcode src JUGT_rr JUGT_ri JUGT_rr_32 JUGT_ri_32
  | uge => w.opcode src JUGE_rr JUGE_ri JUGE_rr_32 JUGE_ri_32
  | ult => w.opcode src JULT_rr JULT_ri JULT_rr_32 JULT_ri_32
  | ule => w.opcode src JULE_rr JULE_ri JULE_rr_32 JULE_ri_32
  | sgt => w.opcode src JSGT_rr JSGT_ri JSGT_rr_32 JSGT_ri_32
  | sge => w.opcode src JSGE_rr JSGE_ri JSGE_rr_32 JSGE_ri_32
  | slt => w.opcode src JSLT_rr JSLT_ri JSLT_rr_32 JSLT_ri_32
  | sle => w.opcode src JSLE_rr JSLE_ri JSLE_rr_32 JSLE_ri_32
  | set => w.opcode src JSET_rr JSET_ri JSET_rr_32 JSET_ri_32

def JmpInsn.mc (j : JmpInsn) : MCInst :=
  { opcode := j.op.opcode j.w j.src
    operands := [.reg (j.w.reg j.dst), j.src.operand j.w, .expr (.symbolRef j.target)] }

end BpfTv
