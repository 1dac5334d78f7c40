import BpfTv.Lib.Bytes
import BpfTv.Lib.Emit

/-!
# The LLVM IR the lifter emits

Values, instructions and terminators of the lifted function, and what they do. The semantics is
strict: a machine stops with a `Trap` as soon as an instruction is undefined behaviour or would
yield poison, so a run that reaches its end has met neither.

Lifted code accesses four kinds of memory: the allocas of the register file, the allocas of the
division helpers (`cell`), the constant global `@__bpf_tv_unspecified`, and everything else, which
is flat byte memory (the target is checked in Alive2's asm memory mode). A `gep` of a global or of
the stack block at a constant offset is the constant address itself.
-/

namespace BpfTv

inductive Ty
  | void
  | int (w : Nat)
  | ptr
  /-- `{iN, i1}`, the result of `cmpxchg`. -/
  | cmpxchg (w : Nat)
  /-- Structs and arrays. -/
  | aggregate
  deriving DecidableEq, Repr

inductive Value
  | const (w : Nat) (c : BitVec w)
  | inst (id : Nat) (ty : Ty)
  | arg (i : Nat) (ty : Ty)
  /-- `RegFile[Reg]`, the alloca behind a register. -/
  | regFile (r : Fin 12)
  /-- `@__bpf_tv_unspecified` plus `off`. -/
  | unspec (off : Nat)
  /-- `stackMem` plus `off`. -/
  | stack (off : Nat)
  /-- An object of the lifted module. -/
  | global (id : Nat)
  deriving DecidableEq, Repr

def Value.ty : Value → Ty
  | const w _ => .int w
  | inst _ t | arg _ t => t
  | regFile _ | unspec _ | stack _ | global _ => .ptr

/-- `getBitWidth`: pointers have 64 bits. -/
def Ty.bitWidth : Ty → Nat
  | int w => w
  | ptr => 64
  | void | cmpxchg _ | aggregate => 0

def Value.bitWidth (v : Value) : Nat := v.ty.bitWidth

/-! ## Functions and calls of the source module -/

structure FunctionType where
  ret : Ty
  params : List Ty
  deriving DecidableEq, Repr

/-- A function of the source module, with the attributes the lifter reads. -/
structure Function where
  name : String
  ty : FunctionType
  retSExt : Bool := false
  retZExt : Bool := false
  noReturn : Bool := false
  bpfFastcall : Bool := false
  deriving DecidableEq, Repr

/-- A call instruction of the source function: the callee (`getCalledFunction()`, none for an
indirect call) and the call-site attributes. -/
structure CallInst where
  calledFn : Option Function
  retSExt : Bool := false
  retZExt : Bool := false
  noReturn : Bool := false
  bpfFastcall : Bool := false
  deriving DecidableEq, Repr

/-! ## Instructions -/

inductive BinOp
  | add | sub | mul | and | or | xor | shl | lshr | ashr | udiv | urem | sdiv | srem
  deriving DecidableEq, Repr

inductive Pred
  | eq | ne | ugt | uge | ult | ule | sgt | sge | slt | sle
  deriving DecidableEq, Repr

inductive CastOp
  | trunc | zext | sext
  deriving DecidableEq, Repr

inductive RmwOp
  | add | and | or | xor | xchg
  deriving DecidableEq, Repr

inductive Op
  | bin (o : BinOp) (a b : Value)
  | icmp (p : Pred) (a b : Value)
  | cast (o : CastOp) (v : Value) (w : Nat)
  | bswap (v : Value)
  /-- `getelementptr i8` with one index. -/
  | gep (base idx : Value)
  | inttoptr (v : Value)
  | ptrtoint (v : Value)
  | alloca
  | load (ty : Ty) (ptr : Value)
  | store (v ptr : Value)
  /-- An address that is no multiple of `align` is undefined behaviour. -/
  | atomicrmw (o : RmwOp) (ptr val : Value) (align : Nat)
  | cmpxchg (ptr expected new : Value) (align : Nat)
  /-- `extractvalue {iN, i1} v, 0`. -/
  | extract0 (v : Value)
  /-- `src` is not part of the IR: it records the source call whose attributes the lifter applied. -/
  | call (callee : String) (ret : Ty) (args : List Value) (noReturn : Bool) (src : Option CallInst)
  | trap
  deriving DecidableEq, Repr

/-- An instruction with the number of its result. -/
structure Instr where
  id : Nat
  op : Op
  deriving DecidableEq, Repr

/-- A branch goes to a block made while lifting the same machine instruction, or to the lifted
block of a machine block. -/
inductive Target
  | sub (k : Nat)
  | bb (b : Nat)
  deriving DecidableEq, Repr

inductive Term
  | br (t : Target)
  | condBr (c : Value) (t f : Target)
  | ret (v : Option Value)
  deriving DecidableEq, Repr

/-! ## Machine states -/

inductive Ptr
  | reg (r : Fin 12)
  | cell (id : Nat)
  | unspec (off : Nat)
  | flat (a : BitVec 64)
  deriving DecidableEq, Repr

inductive RVal
  | int {w : Nat} (x : BitVec w)
  | ptr (p : Ptr)
  | pair {w : Nat} (old : BitVec w) (ok : BitVec 1)
  | void
  deriving DecidableEq, Repr

inductive Trap
  | ub | poison | illTyped
  deriving DecidableEq, Repr

abbrev Mem := BitVec 64 → BitVec 8

/-- What does not change during a run: arguments, the contents of `@__bpf_tv_unspecified`,
addresses, and what callees do. -/
structure World where
  args : Nat → RVal
  unspec : Nat → BitVec 8
  stackBase : BitVec 64
  globals : Nat → BitVec 64
  callee : String → List RVal → Mem → RVal × Mem

/-- A world of zeros. -/
def World.zero : World :=
  { args := fun _ => .void, unspec := fun _ => 0, stackBase := 0, globals := fun _ => 0
    callee := fun _ _ m => (.void, m) }

structure Rt where
  world : World
  env : Nat → Option RVal
  cells : Nat → Option RVal
  regs : Fin 12 → BitVec 64
  mem : Mem
  calls : List (String × List RVal)

/-- The state at the entry of the lifted function. -/
def Rt.start (W : World) (regs : Fin 12 → BitVec 64) (mem : Mem) : Rt :=
  { world := W, env := fun _ => none, cells := fun _ => none, regs, mem, calls := [] }

/-- Define the result of instruction `id`. -/
def Rt.set (rt : Rt) (id : Nat) (v : RVal) : Rt :=
  { rt with env := Function.update rt.env id (some v) }

def Rt.setReg (rt : Rt) (r : Fin 12) (x : BitVec 64) : Rt :=
  { rt with regs := Function.update rt.regs r x }

def Rt.setCell (rt : Rt) (id : Nat) (v : RVal) : Rt :=
  { rt with cells := Function.update rt.cells id (some v) }

/-- The `w`-bit number at address `a`. -/
def loadMem (m : Mem) (a : BitVec 64) (w : Nat) : BitVec w :=
  BitVec.ofNat w (Bytes.leNat (fun i => m (a + BitVec.ofNat 64 i)) ((w + 7) / 8))

/-- Write the bytes of `x` at address `a`. -/
def storeMem (m : Mem) (a : BitVec 64) {w : Nat} (x : BitVec w) : Mem := fun b =>
  if (b - a).toNat < (w + 7) / 8 then Bytes.byteAt x.toNat (b - a).toNat else m b

def Value.eval (rt : Rt) : Value → Except Trap RVal
  | const _ c => .ok (.int c)
  | inst id _ => match rt.env id with
    | some v => .ok v
    | none => .error .illTyped
  | arg i _ => .ok (rt.world.args i)
  | regFile r => .ok (.ptr (.reg r))
  | unspec off => .ok (.ptr (.unspec off))
  | stack off => .ok (.ptr (.flat (rt.world.stackBase + BitVec.ofNat 64 off)))
  | global id => .ok (.ptr (.flat (rt.world.globals id)))

/-- The value as a `w`-bit integer. -/
def RVal.toInt (w : Nat) : RVal → Except Trap (BitVec w)
  | @int w' x => if h : w' = w then .ok (x.cast h) else .error .illTyped
  | _ => .error .illTyped

def RVal.toPtr : RVal → Except Trap Ptr
  | ptr p => .ok p
  | _ => .error .illTyped

def Value.evalInt (rt : Rt) (w : Nat) (v : Value) : Except Trap (BitVec w) :=
  v.eval rt >>= RVal.toInt w

def Value.evalPtr (rt : Rt) (v : Value) : Except Trap Ptr := v.eval rt >>= RVal.toPtr

/-! ## Semantics -/

/-- Division by zero and the overflowing signed division are undefined behaviour, a shift amount
of at least the width gives poison, everything else wraps. -/
def BinOp.eval {w : Nat} (o : BinOp) (x y : BitVec w) : Except Trap (BitVec w) :=
  match o with
  | add => .ok (x + y)
  | sub => .ok (x - y)
  | mul => .ok (x * y)
  | and => .ok (x &&& y)
  | or => .ok (x ||| y)
  | xor => .ok (x ^^^ y)
  | shl => if y.toNat < w then .ok (x <<< y.toNat) else .error .poison
  | lshr => if y.toNat < w then .ok (x >>> y.toNat) else .error .poison
  | ashr => if y.toNat < w then .ok (x.sshiftRight y.toNat) else .error .poison
  | udiv => if y = 0 then .error .ub else .ok (x / y)
  | urem => if y = 0 then .error .ub else .ok (x % y)
  | sdiv => if y = 0 ∨ (x = BitVec.intMin w ∧ y = BitVec.allOnes w) then .error .ub else .ok (x.sdiv y)
  | srem => if y = 0 ∨ (x = BitVec.intMin w ∧ y = BitVec.allOnes w) then .error .ub else .ok (x.srem y)

def Pred.eval {w : Nat} (p : Pred) (x y : BitVec w) : Bool :=
  match p with
  | eq => x == y
  | ne => x != y
  | ugt => y.ult x
  | uge => y.ule x
  | ult => x.ult y
  | ule => x.ule y
  | sgt => y.slt x
  | sge => y.sle x
  | slt => x.slt y
  | sle => x.sle y

/-- `trunc` goes to a smaller width, `zext` and `sext` to a larger one. -/
def CastOp.eval {w : Nat} (o : CastOp) (x : BitVec w) (w' : Nat) : Except Trap (BitVec w') :=
  match o with
  | trunc => if w' < w then .ok (x.setWidth w') else .error .illTyped
  | zext => if w < w' then .ok (x.setWidth w') else .error .illTyped
  | sext => if w < w' then .ok (x.signExtend w') else .error .illTyped

/-- The bytes of `x` in the opposite order. -/
def bswap {w : Nat} (x : BitVec w) : BitVec w :=
  BitVec.ofNat w (Bytes.leNat (fun i => Bytes.byteAt x.toNat (w / 8 - 1 - i)) (w / 8))

def RmwOp.eval {w : Nat} (o : RmwOp) (old val : BitVec w) : BitVec w :=
  match o with
  | add => old + val
  | and => old &&& val
  | or => old ||| val
  | xor => old ^^^ val
  | xchg => val

def Rt.load (rt : Rt) (ty : Ty) : Ptr → Except Trap RVal
  | .reg r => match ty with
    | .int w => if w = 64 then .ok (.int (rt.regs r)) else .error .illTyped
    | .ptr => .ok (.ptr (.flat (rt.regs r)))
    | _ => .error .illTyped
  | .cell id => match rt.cells id with
    | some v => .ok v
    | none => .error .poison
  | .unspec off => match ty with
    | .int w => .ok (.int (BitVec.ofNat w (Bytes.read rt.world.unspec (off, (w + 7) / 8))))
    | _ => .error .illTyped
  | .flat a => match ty with
    | .int w => .ok (.int (loadMem rt.mem a w))
    | .ptr => .ok (.ptr (.flat (loadMem rt.mem a 64)))
    | _ => .error .illTyped

def Rt.store (rt : Rt) (v : RVal) : Ptr → Except Trap Rt
  | .reg r => match v with
    | .ptr (.flat a) => .ok (rt.setReg r a)
    | v => (v.toInt 64).map (rt.setReg r)
  | .cell id => .ok (rt.setCell id v)
  | .unspec _ => .error .ub
  | .flat a => match v with
    | .int x => .ok { rt with mem := storeMem rt.mem a x }
    | .ptr (.flat p) => .ok { rt with mem := storeMem rt.mem a p }
    | _ => .error .illTyped

def Ptr.toFlat : Ptr → Except Trap (BitVec 64)
  | flat a => .ok a
  | _ => .error .illTyped

/-- The operations on integers of width `w`. -/
def evalBin (rt : Rt) (o : BinOp) (w : Nat) (a b : Value) : Except Trap RVal := do
  let x ← a.evalInt rt w
  let y ← b.evalInt rt w
  let z ← o.eval x y
  return .int z

def evalICmp (rt : Rt) (p : Pred) (w : Nat) (a b : Value) : Except Trap RVal := do
  let x ← a.evalInt rt w
  let y ← b.evalInt rt w
  return .int (BitVec.ofBool (p.eval x y))

def evalCast (rt : Rt) (o : CastOp) (w : Nat) (v : Value) (w' : Nat) : Except Trap RVal := do
  let x ← v.evalInt rt w
  let y ← o.eval x w'
  return .int y

def evalBSwap (rt : Rt) (w : Nat) (v : Value) : Except Trap RVal := do
  let x ← v.evalInt rt w
  return .int (bswap x)

/-- Result and memory of an atomic operation at `a`. -/
def evalRmw (rt : Rt) (o : RmwOp) (a : BitVec 64) (w : Nat) (v : Value) : Except Trap (RVal × Mem) := do
  let x ← v.evalInt rt w
  let old := loadMem rt.mem a w
  return (.int old, storeMem rt.mem a (o.eval old x))

def evalCmpxchg (rt : Rt) (a : BitVec 64) (w : Nat) (e n : Value) : Except Trap (RVal × Mem) := do
  let x ← e.evalInt rt w
  let y ← n.evalInt rt w
  let old := loadMem rt.mem a w
  return (.pair old (BitVec.ofBool (old == x)), if old = x then storeMem rt.mem a y else rt.mem)

/-- The address of an access that claims an alignment. -/
def checkAlign (a : BitVec 64) (align : Nat) : Except Trap Unit :=
  if align ∣ a.toNat then .ok () else .error .ub

def Instr.exec (i : Instr) (rt : Rt) : Except Trap Rt :=
  match i.op with
  | .bin o a b => return rt.set i.id (← evalBin rt o a.bitWidth a b)
  | .icmp p a b => return rt.set i.id (← evalICmp rt p a.bitWidth a b)
  | .cast o v w => return rt.set i.id (← evalCast rt o v.bitWidth v w)
  | .bswap v => return rt.set i.id (← evalBSwap rt v.bitWidth v)
  | .gep base idx => do
    let a ← (← base.evalPtr rt).toFlat
    let x ← idx.evalInt rt 64
    return rt.set i.id (.ptr (.flat (a + x)))
  | .inttoptr v => do
    let x ← v.evalInt rt 64
    return rt.set i.id (.ptr (.flat x))
  | .ptrtoint v => do
    let a ← (← v.evalPtr rt).toFlat
    return rt.set i.id (.int a)
  | .alloca => return rt.set i.id (.ptr (.cell i.id))
  | .load ty p => do
    let v ← rt.load ty (← p.evalPtr rt)
    return rt.set i.id v
  | .store v p => do
    rt.store (← v.eval rt) (← p.evalPtr rt)
  | .atomicrmw o p v align => do
    let a ← (← p.evalPtr rt).toFlat
    checkAlign a align
    let (old, m) ← evalRmw rt o a v.bitWidth v
    return { rt with mem := m }.set i.id old
  | .cmpxchg p e n align => do
    let a ← (← p.evalPtr rt).toFlat
    checkAlign a align
    let (old, m) ← evalCmpxchg rt a e.bitWidth e n
    return { rt with mem := m }.set i.id old
  | .extract0 v => do
    match ← v.eval rt with
    | .pair old _ => return rt.set i.id (.int old)
    | _ => throw .illTyped
  | .call callee _ args _ _ => do
    let vs ← args.mapM (Value.eval rt)
    let (v, m) := rt.world.callee callee vs rt.mem
    return { rt with mem := m, calls := rt.calls ++ [(callee, vs)] }.set i.id v
  | .trap => throw .ub

def Target.local? : Target → Option Nat
  | sub k => some k
  | bb _ => none

/-- The blocks of a lifted machine instruction that a terminator leads to. -/
def Term.jump (t : Term) (rt : Rt) : Except Trap (Option Nat) :=
  match t with
  | .br t => .ok t.local?
  | .condBr c t f => do
    let x ← c.evalInt rt 1
    return if x = 1 then t.local? else f.local?
  | .ret _ => .ok none

/-- The IR as an instruction set of the builder. -/
def ir : Emit.Sem Instr Term Rt Trap := ⟨Instr.exec, Term.jump⟩

/-- The code written for one machine instruction. -/
abbrev Region := Emit.Code Instr Term

/-! ## Evaluation lemmas -/

@[simp] theorem toInt_int {w : Nat} (x : BitVec w) : (RVal.int x).toInt w = .ok x := by
  simp [RVal.toInt]

@[simp] theorem toPtr_ptr (p : Ptr) : (RVal.ptr p).toPtr = .ok p := rfl

@[simp] theorem set_env_self (rt : Rt) (id : Nat) (v : RVal) : (rt.set id v).env id = some v := by
  simp [Rt.set]

theorem set_env_of_ne (rt : Rt) {id id' : Nat} (v : RVal) (h : id' ≠ id) :
    (rt.set id v).env id' = rt.env id' := by
  simp [Rt.set, Function.update_of_ne h]

@[simp] theorem set_regs (rt : Rt) (id : Nat) (v : RVal) : (rt.set id v).regs = rt.regs := rfl
@[simp] theorem set_mem (rt : Rt) (id : Nat) (v : RVal) : (rt.set id v).mem = rt.mem := rfl
@[simp] theorem set_world (rt : Rt) (id : Nat) (v : RVal) : (rt.set id v).world = rt.world := rfl
@[simp] theorem set_calls (rt : Rt) (id : Nat) (v : RVal) : (rt.set id v).calls = rt.calls := rfl
@[simp] theorem set_cells (rt : Rt) (id : Nat) (v : RVal) : (rt.set id v).cells = rt.cells := rfl

end BpfTv
