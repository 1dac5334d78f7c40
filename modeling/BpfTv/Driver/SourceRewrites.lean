import BpfTv.Llvm.Ssa
import BpfTv.Lifter.SourceLocations

/-!
# Rewrites of the source function

What the driver and the lifter do to the semantic copy of the source function between `addDebugInfo`
and the parse of its assembly. Two of the rewrites keep the line map up to date with what they erase.
-/

namespace BpfTv.Ssa

/-- The return type of the source function. -/
inductive RetTy
  | int (w : Nat)
  | vector (bits : Nat)
  | float (bits : Nat)
  | ptr
  | void
  | unsupported
  deriving DecidableEq, Repr

def RetTy.bits : RetTy → Nat
  | int w => w
  | vector bits | float bits => bits
  | ptr => 64
  | void | unsupported => 0

/-- The source function with the line map; instructions are never numbered twice. -/
structure Source where
  fn : Fn
  retTy : RetTy := .void
  sext : Bool := false
  zext : Bool := false
  /-- A line without an entry has a null pointer. -/
  lineMap : Nat → Option Nat := fun _ => none
  /-- The number of the next instruction that is created. -/
  next : Nat

/-- The instructions of a block in their order. -/
def Block.members (b : Block) : List Nat := b.phis.map (·.id) ++ b.body.map (·.id) ++ [b.term.id]

def Fn.members (F : Fn) : List Nat := F.blocks.flatMap Block.members

namespace Source

/-- `addDebugInfo` -/
def addDebugInfo (S : Source) : Source :=
  { S with lineMap := (BpfTv.addDebugInfo (S.fn.blocks.map Block.members)).lineMap }

/-- `std::erase_if(lineMap, …)` and `eraseFromParent` -/
def erase (S : Source) (id : Nat) : Source :=
  { S with
    fn := S.fn.eraseFromParent id
    lineMap := fun line => (S.lineMap line).filter (· ≠ id) }

def replaceAllUsesWith (S : Source) (old : Nat) (new : Val) : Source :=
  { S with fn := S.fn.replaceAllUsesWith old new }

end Source

/-! ## Inline asm -/

/-- The inline asm that is called, if its template is empty. -/
def Instr.emptyAsm (i : Instr) : Option InlineAsm :=
  match i.op with
  | .call (.asm ia) => if ia.asmString.isEmpty then some ia else none
  | _ => none

def Source.stripEmptyInlineAsm (S : Source) : Source :=
  let dead := S.fn.instrs.filter fun i => i.emptyAsm.isSome && i.ty = .void
  dead.foldl (fun S ci => S.erase ci.id) S

/-- The call argument of each constraint: inputs consume an argument slot each, in order. -/
def argOf : List ConstraintInfo → Nat → List (Option Nat)
  | [], _ => []
  | c :: cs, arg =>
    if c.type = .isInput then some arg :: argOf cs (arg + 1) else none :: argOf cs arg

/-- The inputs that the outputs are tied to, if every output is a direct register. -/
def outVal (cinfos : List ConstraintInfo) (ops : List Val) : Option (List Val) :=
  let outputs := cinfos.filter (·.type = .isOutput)
  if outputs.any (·.isIndirect) then none
  else
    outputs.mapM fun c => do
      guard (0 ≤ c.MatchingInput)
      let arg ← ((argOf cinfos 0)[c.MatchingInput.toNat]?).join
      ops[arg]?

/-- A user that takes one field out of an aggregate, with what it is replaced by. -/
def extracts (F : Fn) (outVal : List Val) : User → Option (Instr × Val)
  | .instr ev =>
    match ev.op with
    | .extractvalue [k] => do
      let v ← outVal[k]?
      guard (F.tyOf v = some ev.ty)
      return (ev, v)
    | _ => none
  | _ => none

theorem extracts_some {O : List Val} {u : User} {e : Instr × Val} (h : extracts F O u = some e) :
    u = .instr e.1 := by
  unfold extracts at h
  split at h
  · split at h
    · simp only [Option.bind_eq_bind, Option.bind_eq_some_iff, Option.guard_eq_some'] at h
      obtain ⟨v, _, _, _, h⟩ := h
      cases h
      rfl
    · cases h
  · cases h

theorem mem_mapM_some {α β : Type} {f : α → Option β} {xs : List α} {ys : List β} (h : xs.mapM f = some ys) :
    ∀ y ∈ ys, ∃ x ∈ xs, f x = some y := by
  induction xs generalizing ys with
  | nil =>
    cases h
    simp
  | cons x xs ih =>
    simp only [List.mapM_cons, Option.bind_eq_bind, Option.bind_eq_some_iff] at h
    obtain ⟨y, hy, ys, hys, h⟩ := h
    cases h
    intro z hz
    rcases List.mem_cons.mp hz with rfl | hz
    · exact ⟨x, List.mem_cons_self .., hy⟩
    · obtain ⟨x', hx', hz⟩ := ih hys z hz
      exact ⟨x', List.mem_cons_of_mem _ hx', hz⟩

def Ty.isStruct : Ty → Bool
  | struct _ => true
  | _ => false

namespace Source

/-- One extractvalue. -/
def replaceExtract (S : Source) (e : Instr × Val) : Source :=
  (S.replaceAllUsesWith e.1.id e.2).erase e.1.id

section

variable (U : ∀ F : Fn, F.UseLists)

/-- One call of the loop, if it is an identity; the calls that are dead then are collected. -/
def identityCall (S : Source) (dead : List Nat) (id : Nat) : Option (Source × List Nat) := do
  let ci ← S.fn.inst? id
  let ia ← ci.emptyAsm
  guard (ci.ty ≠ .void)
  let outVal ← outVal ia.constraints ci.ops
  if ci.ty.isStruct then
    guard (outVal ≠ [])
    -- users must all be single-index extractvalues
    let evs ← ((U S.fn).users (.inst id)).mapM (extracts S.fn outVal)
    return (evs.foldl replaceExtract S, dead ++ [id])
  else
    let [v] := outVal | none
    guard (S.fn.tyOf v = some ci.ty)
    return (S.replaceAllUsesWith id v, dead ++ [id])

def replaceIdentityCall (s : Source × List Nat) (id : Nat) : Source × List Nat :=
  (identityCall U s.1 s.2 id).getD s

def replaceIdentityInlineAsm (S : Source) : Source :=
  let (S, dead) := (S.fn.instrs.map (·.id)).foldl (replaceIdentityCall U) (S, [])
  dead.foldl erase S

end

end Source

/-! ## Helper calls by number -/

def Instr.rewriteHelperCall (i : Instr) : Instr :=
  match i.op with
  | .call (.number _ id) =>
    if id.msb then i else { i with op := .call (.function ("__bpf_helper_" ++ toString id.toNat)) }
  | _ => i

def Source.rewriteHelperCallsByNumber (S : Source) : Source :=
  { S with fn := S.fn.expand fun i => [i.rewriteHelperCall] }

/-! ## The widened return value -/

/-- The casts that `adjustSrc` creates. -/
inductive RetCast
  | bitcast | zext | sext
  deriving DecidableEq, Repr

def RetCast.op : RetCast → Op
  | bitcast => .other 0
  | zext => .other 1
  | sext => .other 2

namespace Source

/-- The returned value is extended. -/
def widens (S : Source) : Bool := (S.sext || S.zext) && S.retTy.bits ≠ 32 && S.retTy.bits ≠ 64

/-- The casts in front of a return instruction, with their types. -/
def casts (S : Source) : List (RetCast × Ty) :=
  (match S.retTy with
    | .vector bits => [(.bitcast, .int bits)]
    | _ => []) ++
  if S.zext then [(.zext, .int 64)]
  else if S.retTy.bits < 32 then [(.sext, .int 32), (.zext, .int 64)]
  else [(.sext, .int 64)]

/-- Each cast takes the value of the one in front of it. -/
def castChain (next : Nat) (v : Val) : List (RetCast × Ty) → List Instr × Val
  | [] => ([], v)
  | (c, ty) :: cs =>
    let (is, u) := castChain (next + 1) (.inst next) cs
    ({ id := next, ty, op := c.op, ops := [v] } :: is, u)

/-- A block with a return instruction; `next` is the first number that is free. -/
def widenBlock (S : Source) (b : Block) (next : Nat) : Except LiftError (Block × Nat) :=
  if b.term.op = .ret then
    match b.term.ops with
    | [retVal] =>
      let (is, v) := castChain next retVal S.casts
      let RI := next + S.casts.length
      return ({ b with body := b.body ++ is, term := { b.term with id := RI, ops := [v] } }, RI + 1)
    | _ => throw (.assertion "return value")
  else
    return (b, next)

def widenBlocks (S : Source) : List Block → Nat → Except LiftError (List Block × Nat)
  | [], next => return ([], next)
  | b :: bs, next => do
    let (b', next) ← S.widenBlock b next
    let (bs', next) ← S.widenBlocks bs next
    return (b' :: bs', next)

def widenReturns (S : Source) : Except LiftError Source := do
  if S.widens then
    let (blocks, next) ← S.widenBlocks S.fn.blocks S.next
    return { S with fn := { S.fn with blocks }, next, retTy := .int 64 }
  else
    return S

/-- The blocks and the arguments go over to a function with the new return type. -/
def adjustSrc (S : Source) : Except LiftError Source :=
  match S.retTy with
  | .unsupported => throw (.exit ("ERROR: Unsupported Function Return Type: Only int, ptr, vec, " ++
      "float, and void supported for now"))
  | .vector bits =>
    if 128 < bits then throw (.exit "ERROR: Unsupported Function Return: vector > 128 bits")
    else S.widenReturns
  | _ =>
    if 64 < S.retTy.bits then
      throw (.exit "ERROR: Scalar return values larger than 64 bits are not supported")
    else S.widenReturns

end Source

/-! ## Sequences of rewrites -/

inductive SourceRewrite
  | stripEmptyInlineAsm
  | replaceIdentityInlineAsm
  | rewriteHelperCallsByNumber
  | adjustSrc
  deriving DecidableEq, Repr

section

variable (U : ∀ F : Fn, F.UseLists)

def Source.apply (S : Source) : SourceRewrite → Except LiftError Source
  | .stripEmptyInlineAsm => return S.stripEmptyInlineAsm
  | .replaceIdentityInlineAsm => return S.replaceIdentityInlineAsm U
  | .rewriteHelperCallsByNumber => return S.rewriteHelperCallsByNumber
  | .adjustSrc => S.adjustSrc

def Source.run (S : Source) (rs : List SourceRewrite) : Except LiftError Source := rs.foldlM (Source.apply U) S

end

end BpfTv.Ssa
