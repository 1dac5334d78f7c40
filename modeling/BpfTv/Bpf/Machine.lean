import BpfTv.Bpf.Atomics
import BpfTv.Lib.Execution

/-!
# The BPF machine

A program gives the instruction at each unit of 8 bytes; the machine has registers and memory, and
keeps the list of the helpers it has called. An atomic access that is not aligned to its size is left
undefined. RFC 9669 says nothing about the caller-saved registers after a call: `Clobbers` gives their
contents, for each call of the program.
-/

namespace BpfTv

open Control

inductive Insn
  | reg (i : RegInsn)
  | mem (i : MemInsn)
  | atomic (i : AtomicInsn)
  | jmp (op : JmpOp) (w : Width) (dst : Fin 12) (src : Src) (off : BitVec 16)
  | ja (off : BitVec 16)
  /-- The jump with a 32-bit offset. -/
  | gotol (off : BitVec 32)
  /-- The call of a helper by number. -/
  | call (id : BitVec 32)
  | exit
  | nop
  deriving DecidableEq, Repr

/-- What a helper returns and the memory it leaves, by its number and the registers `r1`-`r5`. -/
abbrev Helpers := Int → List (BitVec 64) → Mem → BitVec 64 × Mem

/-- The registers `r1`-`r5` after the call at a unit. -/
abbrev Clobbers := Nat → Fin 12 → BitVec 64

/-- `χ` is what is recorded of a call. -/
structure BpfState (χ : Type) where
  regs : Regs
  mem : Mem
  calls : List χ := []

inductive BpfOutcome (χ : Type)
  | returned (r0 : BitVec 64) (mem : Mem) (calls : List χ)
  /-- An atomic access at an address that is not a multiple of its size. -/
  | unaligned
  /-- A call of `__stack_chk_fail`. -/
  | aborted

/-- A helper's number and the registers it was called with. -/
abbrev HelperCall := Int × List (BitVec 64)

/-- The argument registers. -/
def argRegs (regs : Regs) : List (BitVec 64) := [regs 1, regs 2, regs 3, regs 4, regs 5]

/-- The registers after a call that returned `x`. -/
def afterCall (regs : Regs) (x : BitVec 64) (clobbered : Fin 12 → BitVec 64) : Regs := fun r =>
  if r = 0 then x else if r ≤ 5 then clobbered r else regs r

/-- The call of helper `id`. -/
def Helpers.call (H : Helpers) (clobbered : Fin 12 → BitVec 64) (id : Int) (s : BpfState HelperCall) :
    BpfState HelperCall :=
  let (x, m) := H id (argRegs s.regs) s.mem
  { regs := afterCall s.regs x clobbered, mem := m, calls := s.calls ++ [(id, argRegs s.regs)] }

namespace Insn

/-- The number of units. -/
def units : Insn → Nat
  | reg (.ldImm64 _ _) => 2
  | _ => 1

def opcode : Insn → Opcode
  | reg i => i.mc.opcode
  | mem i => i.mc.opcode
  | atomic i => i.mc.opcode
  | jmp op w _ src _ => op.opcode w src
  | ja _ => .JMP
  | gotol _ => .JMPL
  | call _ => .JAL
  | exit => .RET
  | nop => .NOP

/-- Where control goes from unit `u`; offsets count from the next instruction. -/
def exits (i : Insn) (u : Nat) : Exit Int :=
  let next : Int := u + i.units
  match i with
  | jmp _ _ _ _ off => .cond (next + off.toInt) next
  | ja off => .goto (next + off.toInt)
  | gotol off => .goto (next + off.toInt)
  | exit => .stop
  | _ => .goto next

/-- A conditional jump is taken. -/
def taken (i : Insn) (regs : Regs) : Bool :=
  match i with
  | jmp op w dst src _ => op.eval ((regs dst).setWidth w.bits) (src.value regs w.bits)
  | _ => false

/-- What an instruction does; `helper` calls a helper. -/
def exec {χ : Type} (helper : Int → BpfState χ → BpfState χ) (i : Insn) (s : BpfState χ) :
    Except (BpfOutcome χ) (BpfState χ) :=
  match i with
  | reg i => .ok { s with regs := i.exec s.regs }
  | mem i => .ok { s with regs := i.regs s.regs s.mem, mem := i.mem s.regs s.mem }
  | atomic i =>
    if i.bytes ∣ (i.address s.regs).toNat then
      .ok { s with regs := i.regs s.regs s.mem, mem := i.mem s.regs s.mem }
    else
      .error .unaligned
  | call id => .ok (helper id.toInt s)
  | _ => .ok s

end Insn

/-- The machine that runs a program; `fell` is a unit without an instruction. -/
def bpfMachine (prog : Nat → Option Insn) (H : Helpers) (C : Clobbers) :
    Machine Int (Nat × Opcode) (BpfState HelperCall) (BpfOutcome HelperCall) where
  event k := (prog k.toNat).map fun i => (k.toNat, i.opcode)
  exit k :=
    if k < 0 then
      .fell
    else
      match prog k.toNat with
      | none => .fell
      | some i => i.exits k.toNat
  act k s :=
    match prog k.toNat with
    | none => .ok s
    | some i => i.exec (H.call (C k.toNat)) s
  test k s := (prog k.toNat).any fun i => i.taken s.regs
  result _ s := .returned (s.regs 0) s.mem s.calls

/-- The run of a program from its first instruction. -/
def bpfStart (regs : Regs) (mem : Mem) : Machine.State Int (BpfState HelperCall) (BpfOutcome HelperCall) :=
  .running 0 { regs, mem }

end BpfTv
