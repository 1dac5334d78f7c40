import BpfTv.Bpf.Isa

/-!
# The memory instructions of RFC 9669

Loads, stores and stores of an immediate, at a base register plus a signed 16-bit offset. `MemInsn.mc`
gives the `MCInst`s: the base and the offset are the last two operands, a load has its destination
in front of them, a store its register or its immediate.
-/

namespace BpfTv

/-- The `n` bytes at address `a`, lowest first. -/
def readBytes (mem : Mem) (a : BitVec 64) (n : Nat) : Nat :=
  Bytes.leNat (fun i => mem (a + BitVec.ofNat 64 i)) n

/-- The low `n` bytes of `v` at address `a`. -/
def writeBytes (mem : Mem) (a : BitVec 64) (n v : Nat) : Mem := fun b =>
  if (b - a).toNat < n then Bytes.byteAt v (b - a).toNat else mem b

inductive MemSize
  | b | h | w | dw
  deriving DecidableEq, Repr

def MemSize.bytes : MemSize → Nat
  | b => 1
  | h => 2
  | w => 4
  | dw => 8

/-- Loads zero-extend to an `r` register, sign-extend to an `r` register, or go to a `w` register. -/
inductive LoadOp
  | u8 | u16 | u32 | u64
  | s8 | s16 | s32
  | w8 | w16 | w32
  deriving DecidableEq, Repr

def LoadOp.size : LoadOp → MemSize
  | u8 | s8 | w8 => .b
  | u16 | s16 | w16 => .h
  | u32 | s32 | w32 => .w
  | u64 => .dw

def LoadOp.signed : LoadOp → Bool
  | s8 | s16 | s32 => true
  | _ => false

/-- The class of the destination. -/
def LoadOp.width : LoadOp → Width
  | w8 | w16 | w32 => .w32
  | _ => .w64

/-- Stores of an `r` register or of a `w` register. -/
inductive StoreOp
  | r8 | r16 | r32 | r64
  | w8 | w16 | w32
  deriving DecidableEq, Repr

def StoreOp.size : StoreOp → MemSize
  | r8 | w8 => .b
  | r16 | w16 => .h
  | r32 | w32 => .w
  | r64 => .dw

/-- The class of the source. -/
def StoreOp.width : StoreOp → Width
  | w8 | w16 | w32 => .w32
  | _ => .w64

inductive MemInsn
  | load (op : LoadOp) (dst base : Fin 12) (off : BitVec 16)
  | store (op : StoreOp) (src base : Fin 12) (off : BitVec 16)
  | storeImm (size : MemSize) (imm : BitVec 32) (base : Fin 12) (off : BitVec 16)
  deriving DecidableEq, Repr

def MemInsn.base : MemInsn → Fin 12
  | load _ _ base _ | store _ _ base _ | storeImm _ _ base _ => base

def MemInsn.off : MemInsn → BitVec 16
  | load _ _ _ off | store _ _ _ off | storeImm _ _ _ off => off

/-- The number of bytes that are accessed. -/
def MemInsn.bytes : MemInsn → Nat
  | load op _ _ _ => op.size.bytes
  | store op _ _ _ => op.size.bytes
  | storeImm size _ _ _ => size.bytes

def MemInsn.address (i : MemInsn) (regs : Regs) : BitVec 64 := regs i.base + i.off.signExtend 64

/-- The value that a load gives to its destination. -/
def LoadOp.value (op : LoadOp) (mem : Mem) (a : BitVec 64) : BitVec 64 :=
  if op.signed then (BitVec.ofNat (8 * op.size.bytes) (readBytes mem a op.size.bytes)).signExtend 64
  else BitVec.ofNat 64 (readBytes mem a op.size.bytes)

/-- The register file after the instruction. -/
def MemInsn.regs (i : MemInsn) (regs : Regs) (mem : Mem) : Regs :=
  match i with
  | load op dst _ _ => Function.update regs dst (op.value mem (i.address regs))
  | store .. | storeImm .. => regs

/-- The memory after the instruction; an immediate is sign-extended. -/
def MemInsn.mem (i : MemInsn) (regs : Regs) (mem : Mem) : Mem :=
  match i with
  | load .. => mem
  | store op src _ _ => writeBytes mem (i.address regs) op.size.bytes (regs src).toNat
  | storeImm size imm _ _ => writeBytes mem (i.address regs) size.bytes (imm.signExtend 64).toNat

theorem MemInsn.mem_frame (i : MemInsn) (regs : Regs) (m : Mem) (b : BitVec 64)
    (h : i.bytes ≤ (b - i.address regs).toNat) : i.mem regs m b = m b := by
  cases i with
  | load op dst base off => rfl
  | store op src base off => exact if_neg (Nat.not_lt.mpr h)
  | storeImm size imm base off => exact if_neg (Nat.not_lt.mpr h)

theorem MemInsn.regs_frame (i : MemInsn) (regs : Regs) (m : Mem) (r : Fin 12)
    (h : ∀ op base off, i ≠ .load op r base off) : i.regs regs m r = regs r := by
  cases i with
  | load op dst base off =>
    have hne : r ≠ dst := by
      rintro rfl
      exact h op base off rfl
    exact Function.update_of_ne hne _ _
  | store op src base off => rfl
  | storeImm size imm base off => rfl

/-! ## The `MCInst`s -/

open Opcode in
def LoadOp.opcode : LoadOp → Opcode
  | u8 => LDB
  | u16 => LDH
  | u32 => LDW
  | u64 => LDD
  | s8 => LDBSX
  | s16 => LDHSX
  | s32 => LDWSX
  | w8 => LDB32
  | w16 => LDH32
  | w32 => LDW32

open Opcode in
def StoreOp.opcode : StoreOp → Opcode
  | r8 => STB
  | r16 => STH
  | r32 => STW
  | r64 => STD
  | w8 => STB32
  | w16 => STH32
  | w32 => STW32

open Opcode in
def MemSize.immOpcode : MemSize → Opcode
  | b => STB_imm
  | h => STH_imm
  | w => STW_imm
  | dw => STD_imm

def MemInsn.mc : MemInsn → MCInst
  | load op dst base off =>
    { opcode := op.opcode, operands := [.reg (op.width.reg dst), .reg (.R base), .imm off.toInt] }
  | store op src base off =>
    { opcode := op.opcode, operands := [.reg (op.width.reg src), .reg (.R base), .imm off.toInt] }
  | storeImm size imm base off =>
    { opcode := size.immOpcode, operands := [.imm imm.toInt, .reg (.R base), .imm off.toInt] }

end BpfTv
