import BpfTv.Llvm.Ssa
import BpfTv.Lifter.FrameSlots

/-!
# Per-object stack blocks

`rewriteStackObjects` takes the slots of source allocas out of the lifted stack block. It first
classifies every use of the block's address: an address at a constant offset in a slot is planned for
replacement, an address in no slot stays and its uses are classified in turn, and a use that fits
neither way stops the rewrite. Only then the plans are carried out.

Offsets are `int64_t`, here `BitVec 64`. The plans that a call of a classifier appends to the lists of
plans are its result. The alignment that the last loop of the pass puts on accesses is left out.
-/

namespace BpfTv

/-- The offset of the first byte of a slot in the stack block. -/
def StackSlot.start (s : StackSlot) : Int := StackFrameTopOffset + s.offset

namespace Ssa

/-- The slot that covers a byte of the stack block. -/
def slotAt (slots : List StackSlot) (c : BitVec 64) : Option StackSlot :=
  slots.find? fun s => s.start ≤ c.toInt ∧ c.toInt < s.start + s.size

/-- An address to move to `rel` behind the start of an object, plus `varIdx`. -/
structure GepPlan where
  gep : Instr
  slot : StackSlot
  rel : BitVec 64
  varIdx : Option Val := none
  deriving DecidableEq, Repr

structure IntPlan where
  inst : Instr
  slot : StackSlot
  rel : BitVec 64
  deriving DecidableEq, Repr

structure Plans where
  gepPlans : List GepPlan := []
  intPlans : List IntPlan := []
  deriving DecidableEq, Repr

instance : Append Plans := ⟨fun a b => ⟨a.gepPlans ++ b.gepPlans, a.intPlans ++ b.intPlans⟩⟩

/-- The rewrite stops at a user that it cannot classify; `recursion` is a chain of more addresses than
the classifiers are allowed to follow. -/
inductive Stop
  | bail (why : String) (v : User)
  | recursion
  deriving DecidableEq, Repr

/-- `accumulateConstantOffset`. -/
def accumulateConstantOffset : List GepStep → List Val → Option (BitVec 64)
  | .field off :: steps, _ :: idxs =>
    (accumulateConstantOffset steps idxs).map (BitVec.ofNat 64 off + ·)
  | .scale n :: steps, .int _ c :: idxs =>
    (accumulateConstantOffset steps idxs).map (c.signExtend 64 * BitVec.ofNat 64 n + ·)
  | .scale _ :: _, _ => none
  | _, _ => some 0

/-- The other operand of an addition of a constant, and the constant. -/
def addParts : List Val → Option (Val × BitVec 64)
  | [a, .int _ k] => some (a, k.signExtend 64)
  | [.int _ k, b] => some (b, k.signExtend 64)
  | _ => none

/-- The variable part and the constant base of an index. -/
def constantBase (F : Fn) : Val → Option (Val × BitVec 64)
  | .inst id =>
    match F.inst? id with
    | some i => if i.op = .binop .add then addParts i.ops else none
    | none => none
  | _ => none

/-- The loop over the users of an address. -/
def forUsers (f : User → Except Stop Plans) : List User → Except Stop Plans
  | [] => .ok {}
  | u :: us => do
    let p ← f u
    let q ← forUsers f us
    return p ++ q

section

variable (F : Fn) (U : F.UseLists) (slots : List StackSlot)

def planGep (gep : Instr) (s : StackSlot) (total : BitVec 64) (varIdx : Option Val) : Plans :=
  { gepPlans := [⟨gep, s, total - BitVec.ofInt 64 s.start, varIdx⟩] }

def planInt (inst : Instr) (s : StackSlot) (total : BitVec 64) : Plans :=
  { intPlans := [⟨inst, s, total - BitVec.ofInt 64 s.start⟩] }

/-- A `gep` with a variable index: its slot is the one of its constant base. -/
def classifyVarGep (gep : Instr) (i8 : Bool) (idxs : List Val) (c : BitVec 64) : Except Stop Plans :=
  match i8, idxs with
  | true, [idx] =>
    match constantBase F idx with
    | none => throw (.bail "variable-index gep without constant base" (.instr gep))
    | some (var, k) =>
      match slotAt slots (c + k) with
      | none => throw (.bail "variable-index gep base outside slots" (.instr gep))
      | some s => return planGep gep s (c + k) (some var)
  | _, _ => throw (.bail "non-canonical variable-index gep" (.instr gep))

mutual

/-- Classify the uses of a pointer to byte `c` of the stack block. -/
def classifyPtr : Nat → Val → BitVec 64 → Except Stop Plans
  | 0, _, _ => throw .recursion
  | depth + 1, p, c =>
    forUsers (fun u =>
      match u with
      | .instr i =>
        match i.op with
        | .gep i8 steps =>
          match accumulateConstantOffset steps i.ops.tail with
          | some off =>
            match slotAt slots (c + off) with
            | some s => return planGep i s (c + off) none
            | none => classifyPtr depth (.inst i.id) (c + off)
          | none => classifyVarGep F slots i i8 i.ops.tail c
        | .ptrtoint => classifyIntUses depth i c
        | .load _ =>
          if (slotAt slots c).isSome then throw (.bail "direct access at a slot-covered base" u)
          else return {}
        | .store _ =>
          if i.ops[1]? = some p ∧ slotAt slots c = none then return {}
          else throw (.bail "residual frame pointer stored as data" u)
        | .call _ => return {}
        | .icmp _ => return {}
        | _ => throw (.bail "residual pointer user" u)
      | .term t =>
        match t.op with
        | .call _ => return {}
        | _ => throw (.bail "residual pointer user" u)
      | .phi _ => throw (.bail "residual pointer user" u)) (U.users p)

/-- Classify the uses of the integer address `pti` of byte `c` of the stack block. -/
def classifyIntUses : Nat → Instr → BitVec 64 → Except Stop Plans
  | 0, _, _ => throw .recursion
  | depth + 1, pti, c =>
    forUsers (fun u =>
      match u with
      | .instr i =>
        match i.op with
        | .binop .add =>
          match addParts i.ops with
          | none => throw (.bail "add of frame address with non-constant" u)
          | some (_, k) => classifyAddr depth i (c + k)
        | .binop _ => throw (.bail "non-add arithmetic on frame address" u)
        | .inttoptr => classifyAddr depth i c
        | .icmp _ => return {}
        | _ => throw (.bail "frame-address integer user" u)
      | _ => throw (.bail "frame-address integer user" u)) (U.users (.inst pti.id))

/-- Classify the address `total` that `inst` computes. -/
def classifyAddr : Nat → Instr → BitVec 64 → Except Stop Plans
  | 0, _, _ => throw .recursion
  | depth + 1, inst, total =>
    match slotAt slots total with
    | some s => return planInt inst s total
    | none =>
      if inst.op = .inttoptr then classifyPtr depth (.inst inst.id) total
      else
        forUsers (fun u =>
          match u with
          | .instr i =>
            match i.op with
            | .inttoptr => classifyPtr depth (.inst i.id) total
            | .icmp _ => return {}
            | _ => throw (.bail "residual integer address user" u)
          | _ => throw (.bail "residual integer address user" u)) (U.users (.inst inst.id))

end

end

/-! ## Carrying out the plans -/

/-- The function under the rewrite, the objects made so far, and the next new id. -/
structure Rewrite where
  F : Fn
  objs : List (StackSlot × Nat) := []
  next : Nat
  deriving DecidableEq, Repr

/-- What the 16-aligned frame guarantees for the address of a slot. -/
def frameAlign (s : StackSlot) : Nat :=
  if s.start % 16 = 0 then 16 else if s.start % 8 = 0 then 8 else if s.start % 4 = 0 then 4
  else if s.start % 2 = 0 then 2 else 1

/-- The object of a slot. -/
def objAlloca (id : Nat) (s : StackSlot) : Instr :=
  { id, name := "bpftv_stkobj", ty := .ptr, op := .alloca s.size (max s.align (frameAlign s)), ops := [] }

def objFor (R : Rewrite) (s : StackSlot) : Rewrite × Nat :=
  match R.objs.lookup s with
  | some obj => (R, obj)
  | none =>
    ({ F := R.F.insertEntry (objAlloca R.next s), objs := R.objs ++ [(s, R.next)], next := R.next + 1 },
      R.next)

/-- `gep i8, obj, idx`. -/
def gepI8 (id obj : Nat) (idx : Val) : Instr :=
  { id, ty := .ptr, op := .gep true [.scale 1], ops := [.inst obj, idx] }

/-- The instructions that take the place of a planned `gep`; the last one is `np`. -/
def newGep (np obj : Nat) (rel : BitVec 64) : Option Val → List Instr
  | none => [gepI8 np obj (.int 64 rel)]
  | some var =>
    [{ id := np + 1, ty := .int 64, op := .binop .add, ops := [var, .int 64 rel] },
      gepI8 np obj (.inst (np + 1))]

def applyGep (R : Rewrite) (p : GepPlan) : Rewrite :=
  let (R, obj) := objFor R p.slot
  let np := R.next
  let F := R.F.insertBefore p.gep.id (newGep np obj p.rel p.varIdx)
  let F := F.replaceAllUsesWith p.gep.id (.inst np)
  { R with F := F.eraseFromParent p.gep.id, next := np + 2 }

/-- The `inttoptr` users of an address become `np`. -/
def foldCasts (np : Nat) (F : Fn) : List User → Fn
  | [] => F
  | .instr i :: us =>
    if i.op = .inttoptr then
      foldCasts np ((F.replaceAllUsesWith i.id (.inst np)).eraseFromParent i.id) us
    else foldCasts np F us
  | _ :: us => foldCasts np F us

section

variable (U : ∀ F : Fn, F.UseLists)

def applyInt (R : Rewrite) (p : IntPlan) : Rewrite :=
  let (R, obj) := objFor R p.slot
  let np := R.next
  let F := R.F.insertBefore p.inst.id [gepI8 np obj (.int 64 p.rel)]
  if p.inst.op = .inttoptr then
    let F := F.replaceAllUsesWith p.inst.id (.inst np)
    { R with F := F.eraseFromParent p.inst.id, next := np + 2 }
  else
    let ni := np + 1
    let F := F.insertBefore p.inst.id [{ id := ni, ty := .int 64, op := .ptrtoint, ops := [.inst np] }]
    let F := foldCasts np F ((U F).users (.inst p.inst.id))
    let F := F.replaceAllUsesWith p.inst.id (.inst ni)
    { R with F := F.eraseFromParent p.inst.id, next := np + 2 }

def applyPlans (F : Fn) (plans : Plans) : Rewrite :=
  plans.intPlans.foldl (applyInt U) (plans.gepPlans.foldl applyGep { F, next := F.fresh })

end

/-- `getName().starts_with`. -/
def Instr.nameStartsWith (i : Instr) (s : String) : Bool := s.toList.isPrefixOf i.name.toList

/-- The lifted stack block. -/
def stackMem (F : Fn) : Option Instr :=
  (F.blocks.head?.elim [] (·.body)).find? fun i =>
    match i.op with
    | .alloca _ _ => i.nameStartsWith "stack"
    | .call (.function name) => name = "myalloc" && i.nameStartsWith "stack"
    | _ => false

/-- `rewriteStackObjects`; `U` has the use lists of every function that it comes to, and `depth` bounds the
recursion of the classifiers. -/
def rewriteStackObjects (U : ∀ F : Fn, F.UseLists) (depth : Nat) (F : Fn) (slots : List StackSlot) :
    Except Stop Rewrite :=
  if slots = [] then return { F, next := F.fresh }
  else
    match stackMem F with
    | none => return { F, next := F.fresh }
    | some stack => do
      let plans ← classifyPtr F (U F) slots depth (.inst stack.id) 0
      return applyPlans U F plans

end Ssa

end BpfTv
