import BpfTv.Bpf.Memory

/-!
# The atomic instructions of RFC 9669

An atomic instruction replaces 4 or 8 bytes at a base register plus a signed 16-bit offset, in a
sequential execution. With fetch, and for an exchange, the operand register receives the old value;
a compare-and-exchange gives it to `r0`. `AtomicInsn.mc` gives the `MCInst`s; the destination of a
fetch is the register of the value.
-/

namespace BpfTv

/-- The number of bytes of a register class. -/
def Width.bytes : Width → Nat
  | .w64 => 8
  | .w32 => 4

inductive AtomicOp
  | add | and | or | xor
  deriving DecidableEq, Repr

def AtomicOp.eval {w : Nat} (op : AtomicOp) (old src : BitVec w) : BitVec w :=
  match op with
  | add => old + src
  | and => old &&& src
  | or => old ||| src
  | xor => old ^^^ src

inductive AtomicInsn
  | rmw (op : AtomicOp) (fetch : Bool) (width : Width) (src base : Fin 12) (off : BitVec 16)
  /-- The 32-bit addition that is written with an `r` register. -/
  | xaddw (src base : Fin 12) (off : BitVec 16)
  | xchg (width : Width) (src base : Fin 12) (off : BitVec 16)
  | cmpxchg (width : Width) (src base : Fin 12) (off : BitVec 16)
  deriving DecidableEq, Repr

namespace AtomicInsn

def width : AtomicInsn → Width
  | rmw _ _ width _ _ _ | xchg width _ _ _ | cmpxchg width _ _ _ => width
  | xaddw .. => .w32

/-- The operand register. -/
def src : AtomicInsn → Fin 12
  | rmw _ _ _ src _ _ | xaddw src _ _ | xchg _ src _ _ | cmpxchg _ src _ _ => src

def base : AtomicInsn → Fin 12
  | rmw _ _ _ _ base _ | xaddw _ base _ | xchg _ _ base _ | cmpxchg _ _ base _ => base

def off : AtomicInsn → BitVec 16
  | rmw _ _ _ _ _ off | xaddw _ _ off | xchg _ _ _ off | cmpxchg _ _ _ off => off

/-- The number of bytes that are accessed. -/
def bytes (i : AtomicInsn) : Nat := i.width.bytes

def address (i : AtomicInsn) (regs : Regs) : BitVec 64 := regs i.base + i.off.signExtend 64

/-- The old value. -/
def old (i : AtomicInsn) (regs : Regs) (mem : Mem) : BitVec i.width.bits :=
  BitVec.ofNat i.width.bits (readBytes mem (i.address regs) i.bytes)

/-- The value of the operand register. -/
def operand (i : AtomicInsn) (regs : Regs) : BitVec i.width.bits := (regs i.src).setWidth i.width.bits

/-- The value that is written, if one is: a compare-and-exchange writes when the old value is as
expected. -/
def written {w : Nat} (i : AtomicInsn) (expected old src : BitVec w) : Option (BitVec w) :=
  match i with
  | rmw op _ _ _ _ _ => some (op.eval old src)
  | xaddw .. => some (old + src)
  | xchg .. => some src
  | cmpxchg .. => if old = expected then some src else none

/-- The register that receives the old value. -/
def dst : AtomicInsn → Option (Fin 12)
  | rmw _ fetch _ src _ _ => if fetch then some src else none
  | xaddw .. => none
  | xchg _ src _ _ => some src
  | cmpxchg .. => some 0

/-- The register file after the instruction. -/
def regs (i : AtomicInsn) (regs : Regs) (mem : Mem) : Regs :=
  match i.dst with
  | none => regs
  | some dst => Function.update regs dst ((i.old regs mem).setWidth 64)

/-- The memory after the instruction. -/
def mem (i : AtomicInsn) (regs : Regs) (mem : Mem) : Mem :=
  match i.written ((regs 0).setWidth i.width.bits) (i.old regs mem) (i.operand regs) with
  | none => mem
  | some x => writeBytes mem (i.address regs) i.bytes x.toNat

theorem mem_frame (i : AtomicInsn) (regs : Regs) (m : Mem) (b : BitVec 64)
    (h : i.bytes ≤ (b - i.address regs).toNat) : i.mem regs m b = m b := by
  unfold AtomicInsn.mem
  cases i.written _ _ _ with
  | none => rfl
  | some x => exact if_neg (Nat.not_lt.mpr h)

theorem regs_frame (i : AtomicInsn) (regs : Regs) (m : Mem) (r : Fin 12) (h : i.dst ≠ some r) :
    i.regs regs m r = regs r := by
  unfold AtomicInsn.regs
  cases hdst : i.dst with
  | none => rfl
  | some dst =>
    have hne : r ≠ dst := by
      rintro rfl
      exact h hdst
    exact Function.update_of_ne hne _ _

end AtomicInsn

/-! ## The `MCInst`s -/

open Opcode in
def AtomicOp.opcode (op : AtomicOp) (fetch : Bool) (w : Width) : Opcode :=
  match op, fetch, w with
  | add, false, .w64 => XADDD
  | add, false, .w32 => XADDW32
  | add, true, .w64 => XFADDD
  | add, true, .w32 => XFADDW32
  | and, false, .w64 => XANDD
  | and, false, .w32 => XANDW32
  | and, true, .w64 => XFANDD
  | and, true, .w32 => XFANDW32
  | or, false, .w64 => XORD
  | or, false, .w32 => XORW32
  | or, true, .w64 => XFORD
  | or, true, .w32 => XFORW32
  | xor, false, .w64 => XXORD
  | xor, false, .w32 => XXORW32
  | xor, true, .w64 => XFXORD
  | xor, true, .w32 => XFXORW32

open Opcode in
def AtomicInsn.opcode : AtomicInsn → Opcode
  | rmw op fetch width _ _ _ => op.opcode fetch width
  | xaddw .. => XADDW
  | xchg .w64 _ _ _ => XCHGD
  | xchg .w32 _ _ _ => XCHGW32
  | cmpxchg .w64 _ _ _ => CMPXCHGD
  | cmpxchg .w32 _ _ _ => CMPXCHGW32

/-- The class in which the operand register is written. -/
def AtomicInsn.operandWidth : AtomicInsn → Width
  | xaddw .. => .w64
  | i => i.width

def AtomicInsn.mc (i : AtomicInsn) : MCInst :=
  let reg := MCOperand.reg (i.operandWidth.reg i.src)
  match i with
  | cmpxchg .. => { opcode := i.opcode, operands := [.reg (.R i.base), .imm i.off.toInt, reg] }
  | _ => { opcode := i.opcode, operands := [reg, .reg (.R i.base), .imm i.off.toInt, reg] }

end BpfTv
