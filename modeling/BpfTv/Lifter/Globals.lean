import BpfTv.Mc.Inst

/-!
# Symbols and lifted globals

`demangle`, `lazyAddGlobal` and `lookupGlobal`. Objects of the lifted module have an identity
(`GlobalObj.id`): a symbol that is lifted twice has two objects. Placeholders of deferred globals
are objects of kind `dummy` until `replaceAllUsesWith` and `eraseFromParent` remove them.
-/

namespace BpfTv

/-- A global variable of the source module; only declarations are looked up. -/
structure SrcGlobal where
  name : String
  isDeclaration : Bool
  isConstant : Bool
  align : Option Nat
  deriving DecidableEq, Repr

/-- What `lazyAddGlobal` searches: the name of the function being lifted, the functions and globals
of the source module, and the globals of the assembly. -/
structure ModuleInfo where
  liftedFnName : String
  liftedFnTy : FunctionType
  functions : List Function
  globals : List SrcGlobal
  MCglobals : List MCGlobal
  deriving DecidableEq, Repr

/-- The source module of bytes mode: one function and nothing to look up. -/
def ModuleInfo.bytes (name : String) (ty : FunctionType) : ModuleInfo := ⟨name, ty, [], [], []⟩

/-- An element of a lifted initializer; `ptr` is the object `target` plus `offset`. -/
inductive InitItem
  | byte (b : BitVec 8)
  | ptr (target : Nat) (offset : Int)
  deriving DecidableEq, Repr

inductive GlobalKind
  | function (f : Function)
  | data (items : List InitItem) (isConstant : Bool) (align : Nat)
  | declaration (isConstant : Bool) (align : Option Nat)
  | dummy
  deriving DecidableEq, Repr

/-- An object of the lifted module. -/
structure GlobalObj where
  id : Nat
  name : String
  kind : GlobalKind
  deriving DecidableEq, Repr

/-- `LLVMglobals` holds the latest entry of a key first. -/
structure Globals where
  nextId : Nat
  objs : List GlobalObj
  LLVMglobals : List (String × Nat)
  deferredGlobs : List (String × Nat)
  deriving DecidableEq, Repr

/-- The identity of the lifted function itself. -/
def liftedFnId : Nat := 0

/-- The module before anything is looked up: it holds the lifted function. -/
def Globals.init (M : ModuleInfo) : Globals :=
  { nextId := 1
    objs := [⟨liftedFnId, M.liftedFnName, .function { name := M.liftedFnName, ty := M.liftedFnTy }⟩]
    LLVMglobals := []
    deferredGlobs := [] }

def Globals.obj? (G : Globals) (id : Nat) : Option GlobalObj := G.objs.find? fun o => o.id = id

/-- `LLVMglobals.find`. -/
def Globals.find? (G : Globals) (name : String) : Option Nat := G.LLVMglobals.lookup name

/-- `LLVMglobals[name] = id`. -/
def Globals.setGlobal (G : Globals) (name : String) (id : Nat) : Globals :=
  { G with LLVMglobals := (name, id) :: G.LLVMglobals }

/-- Create an object; its identity is new. -/
def Globals.create (G : Globals) (name : String) (kind : GlobalKind) : Nat × Globals :=
  (G.nextId, { G with nextId := G.nextId + 1, objs := G.objs ++ [⟨G.nextId, name, kind⟩] })

/-- `demangle`: `.Lfoo$local` and `.L.foo` become `foo` and `.foo`. The source asserts that `name`
is not empty; here the empty name is itself. -/
def demangle (name : String) : String :=
  let cs := name.toList
  if ".L".toList <+: cs ∧ "$local".toList <:+ cs then
    String.ofList ((cs.drop 2).take (cs.length - 2 - "$local".length))
  else if ".L.".toList <+: cs then
    String.ofList (cs.drop 2)
  else
    name

/-- `intrinsic_names`. -/
def intrinsic_names : List (String × String) :=
  [("memcpy", "llvm.memcpy.p0.p0.i64"), ("memset", "llvm.memset.p0.i64"),
   ("memmove", "llvm.memmove.p0.p0.i64"),
   ("__llvm_memset_element_unordered_atomic_16", "llvm.memset.element.unordered.atomic.p0.i32"),
   ("cosf", "llvm.cos.f32"), ("coshf", "llvm.cosh.f32"), ("powf", "llvm.pow.f32"),
   ("pow", "llvm.pow.f64"), ("expf", "llvm.exp.f32"), ("exp", "llvm.exp.f64"),
   ("exp10f", "llvm.exp10.f32"), ("exp10", "llvm.exp10.f64"),
   ("ldexpf", "llvm.ldexp.f32.i32"), ("sincos", "llvm.cos.f64")]

/-- `implicit_intrinsics`. -/
def implicit_intrinsics : List (String × FunctionType) :=
  [("llvm.memset.p0.i64", ⟨.void, [.ptr, .int 8, .int 64, .int 1]⟩)]

/-- `copyFunctionToTarget`: the copy keeps the name, the type and the attributes below. Of the
attributes the lifter reads, `bpf_fastcall` is not copied. -/
def copyFunctionToTarget (f : Function) : Function := { f with bpfFastcall := false }

/-- One symbol item of an initializer: the object of the symbol when it is in `LLVMglobals`, the
placeholder when it is in the deferred queue, else a new placeholder that joins the queue. -/
def Globals.refSym (G : Globals) (sym : String) : Nat × Globals :=
  match G.find? sym with
  | some id => (id, G)
  | none =>
    match G.deferredGlobs.find? fun d => d.1 = sym with
    | some d => (d.2, G)
    | none =>
      let (dummy, G) := G.create (sym ++ "_tmp") .dummy
      (dummy, { G with deferredGlobs := G.deferredGlobs ++ [(demangle sym, dummy)] })

/-- The initializer of a global of the assembly. -/
def Globals.initItems (G : Globals) : List RODataItem → List InitItem × Globals
  | [] => ([], G)
  | .byte b :: items =>
    let (vals, G) := G.initItems items
    (.byte b :: vals, G)
  | .offsetSym sym offset :: items =>
    let (con, G) := G.refSym sym
    let (vals, G) := G.initItems items
    (.ptr con offset :: vals, G)

/-- `g.section.starts_with(".rodata") || g.section == ".text"`. -/
def MCGlobal.isConstant (g : MCGlobal) : Bool :=
  ".rodata".toList.isPrefixOf g.section_.toList || g.section_ = ".text"

/-- `lazyAddGlobal`. -/
def lazyAddGlobal (M : ModuleInfo) (newGlobal : String) (G : Globals) :
    Except LiftError (Nat × Globals) :=
  let newGlobal := (intrinsic_names.lookup newGlobal).getD newGlobal
  if newGlobal = "__stack_chk_fail" then
    .ok (G.create "__stack_chk_fail" (.declaration false none))
  else if newGlobal = M.liftedFnName then
    .ok (liftedFnId, G)
  else
    match M.functions.find? fun f => f.name = newGlobal with
    | some f => .ok (G.create newGlobal (.function (copyFunctionToTarget f)))
    | none =>
      match M.MCglobals.find? fun g => demangle g.name = newGlobal with
      | some g =>
        let (items, G) := G.initItems g.data
        .ok (G.create (demangle g.name) (.data items g.isConstant g.align))
      | none =>
        match M.globals.find? fun g => g.isDeclaration && g.name = newGlobal with
        | some g => .ok (G.create g.name (.declaration g.isConstant g.align))
        | none =>
          match implicit_intrinsics.lookup newGlobal with
          | some ty => .ok (G.create newGlobal (.function { name := newGlobal, ty }))
          | none => .error (.exit ("ERROR: global symbol '" ++ newGlobal ++ "' not found"))

/-- `old->replaceAllUsesWith(new)`. -/
def InitItem.replace (old new : Nat) : InitItem → InitItem
  | .byte b => .byte b
  | .ptr t offset => .ptr (if t = old then new else t) offset

def GlobalObj.replace (old new : Nat) (o : GlobalObj) : GlobalObj :=
  match o.kind with
  | .data items c a => { o with kind := .data (items.map (InitItem.replace old new)) c a }
  | _ => o

/-- Replace all uses of the placeholder and erase it. -/
def Globals.patch (G : Globals) (dummy id : Nat) : Globals :=
  { G with objs := (G.objs.filter fun o => o.id ≠ dummy).map (GlobalObj.replace dummy id) }

/-- One iteration of the loop of `lookupGlobal`, on a queue that starts with `d`. -/
def Globals.processDeferred (M : ModuleInfo) (d : String × Nat) (rest : List (String × Nat))
    (G : Globals) : Except LiftError Globals := do
  let (g2, G) ← lazyAddGlobal M d.1 { G with deferredGlobs := rest }
  return (G.patch d.2 g2).setGlobal d.1 g2

/-- `while (!deferredGlobs.empty())`, for at most `fuel` iterations. -/
def Globals.processAll (M : ModuleInfo) : Nat → Globals → Except LiftError Globals
  | fuel, G =>
    match G.deferredGlobs with
    | [] => .ok G
    | d :: rest =>
      match fuel with
      | 0 => .error .outOfFuel
      | fuel + 1 => do
        let G ← G.processDeferred M d rest
        processAll M fuel G

/-- `lookupGlobal`. -/
def lookupGlobal (M : ModuleInfo) (fuel : Nat) (nm : String) (G : Globals) :
    Except LiftError (Nat × Globals) :=
  let name := demangle nm
  match G.find? name with
  | some id => .ok (id, G)
  | none => do
    let (g, G) ← lazyAddGlobal M name G
    let G ← (G.setGlobal name g).processAll M fuel
    return (g, G)

end BpfTv
