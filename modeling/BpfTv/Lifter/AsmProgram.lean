import BpfTv.Lifter.InsnRegions
import BpfTv.Lifter.SourceLocations
import BpfTv.Lifter.TextMode

/-!
# The program of an assembly file

`Assembles` says which program of the BPF machine the assembly of a function is. The machine has an address
for each symbol; where a symbol is called, it stands for what `lazyAddGlobal` finds for it. A call is of a
function of the module: it passes and returns values of the types of the function, extended as the function or
the source call at its line says, and leaves the registers that it clobbers unspecified.
-/

namespace BpfTv

open Control

variable {M : ModuleInfo} {lineMap : Nat → Option SrcInst} {body cs : List Callback} {I J : MCInst}
  {S S' : Streamer} {c : Callback}

/-! ## Instructions -/

/-- An instruction of the assembly, its symbols resolved. -/
inductive AsmInsn
  /-- An instruction that is no call and has no symbol but the label of a branch. -/
  | insn (i : Insn)
  /-- The address of a symbol. -/
  | address (dst : Fin 12) (sym : String)
  /-- A call of `FC`, for the source call `llvmCI`. -/
  | call (FC : Function) (llvmCI : CallInst) (calleeName : String)
  /-- A call of `__stack_chk_fail`. -/
  | stackCheckFail

/-- The machine instruction is the instruction of the program. -/
inductive Denotes (M : ModuleInfo) (I : MCInst) : AsmInsn → Prop
  | insn {i : Insn} {l : String} (hop : I.opcode = i.opcode) (hne : i.opcode ≠ .JAL)
      (hops : I.operands = i.labelled l) : Denotes M I (.insn i)
  | address {dst : Fin 12} {e : MCExpr} {sym : String} (hop : I.opcode = .LD_imm64)
      (hops : I.operands = [.reg (.R dst), .expr e]) (hsym : e.symbol? = some sym) :
      Denotes M I (.address dst (demangle (demangle sym)))
  | direct {e : MCExpr} {sym : String} {r : Resolution} {FC : Function} {llvmCI : CallInst}
      (hop : I.opcode = .JAL) (hops : I.operands = [.expr e]) (hsym : e.symbol? = some sym)
      (hr : M.resolve (demangle (demangle sym)) = some r) (hname : r.name M ≠ "__stack_chk_fail")
      (hFC : r.function? M = some FC) (hloc : I.loc = some (.call llvmCI)) :
      Denotes M I (.call FC llvmCI (r.name M))
  | stackCheckFail {e : MCExpr} {sym : String} {r : Resolution} (hop : I.opcode = .JAL)
      (hops : I.operands = [.expr e]) (hsym : e.symbol? = some sym)
      (hr : M.resolve (demangle (demangle sym)) = some r) (hname : r.name M = "__stack_chk_fail") :
      Denotes M I .stackCheckFail
  /-- A helper called by number. -/
  | helper {id : Int} {r : Resolution} {FC : Function} {llvmCI : CallInst} (hop : I.opcode = .JAL)
      (hops : I.operands = [.imm id]) (hr : M.resolve (demangle (helperName id)) = some r)
      (hFC : r.function? M = some FC) (hloc : I.loc = some (.call llvmCI)) :
      Denotes M I (.call FC llvmCI (helperName id))

theorem Denotes.congr {a : AsmInsn} (h : Denotes M I a) (hop : I.opcode = J.opcode)
    (hops : I.operands = J.operands) (hloc : I.loc = J.loc) : Denotes M J a := by
  cases h with
  | insn hop' hne hops' => exact .insn (hop ▸ hop') hne (hops ▸ hops')
  | address hop' hops' hsym => exact .address (hop ▸ hop') (hops ▸ hops') hsym
  | direct hop' hops' hsym hr hname hFC hloc' =>
    exact .direct (hop ▸ hop') (hops ▸ hops') hsym hr hname hFC (hloc ▸ hloc')
  | stackCheckFail hop' hops' hsym hr hname => exact .stackCheckFail (hop ▸ hop') (hops ▸ hops') hsym hr hname
  | helper hop' hops' hr hFC hloc' => exact .helper (hop ▸ hop') (hops ▸ hops') hr hFC (hloc ▸ hloc')

/-! ## The machine -/

/-- `r0` after a call that returned `x`; the bits that nobody promises are those of `z`. -/
def CallSite.returned (c : CallSite) (z : BitVec 64) : RVal → BitVec 64
  | @RVal.int w y => enforced c.sext c.zext y ((z >>> w).setWidth (64 - w))
  | .ptr (.flat a) => a
  | _ => z

/-- The call; the callee leaves `z` in the registers that it clobbers. -/
def CallSite.exec (c : CallSite) (W : World) (z : Fin 12 → BitVec 64) (s : BpfState (String × List RVal)) :
    BpfState (String × List RVal) :=
  let (x, mem) := W.callee c.callee (c.args s.regs) s.mem
  { regs := afterCall s.regs (c.returned (z 0) x) (if c.fastcall then s.regs else z)
    mem
    calls := s.calls ++ [(c.callee, c.args s.regs)] }

namespace AsmInsn

def taken (a : AsmInsn) (regs : Regs) : Bool :=
  match a with
  | insn i => i.taken regs
  | _ => false

/-- What an instruction does; `addr` has the addresses of the symbols, of `W` it matters what the callees
do. -/
def exec (a : AsmInsn) (W : World) (addr : String → BitVec 64) (z : Fin 12 → BitVec 64)
    (s : BpfState (String × List RVal)) :
    Except (BpfOutcome (String × List RVal)) (BpfState (String × List RVal)) :=
  match a with
  | insn i => i.exec (fun _ s => s) s
  | address dst sym => .ok { s with regs := Function.update s.regs dst (addr sym) }
  | call FC llvmCI calleeName => .ok ((CallSite.call FC llvmCI calleeName).exec W z s)
  | stackCheckFail => .error .aborted

end AsmInsn

/-- The machine that runs the program of a stream. -/
def asmMachine (body : List Callback) (prog : Nat → Option AsmInsn) (W : World) (addr : String → BitVec 64)
    (C : Clobbers) :
    Machine Nat (MCInst × Nat) (BpfState (String × List RVal)) (BpfOutcome (String × List RVal)) where
  toFlow := asmFlow body
  act p s :=
    match prog p with
    | none => .ok s
    | some a => a.exec W addr (C p) s
  test p s := (prog p).any fun a => a.taken s.regs
  result _ s := .returned (s.regs 0) s.mem s.calls

/-! ## The instructions of a stream -/

/-- The instructions of a stream, each with the source instruction of its line. -/
def locatedInsts (lineMap : Nat → Option SrcInst) (cs : List Callback) : List MCInst :=
  List.zipWith (fun I line => { I with loc := lineMap (line.getD 0) }) (insts cs) (locs cs)

/-- The stream is the program `prog` in a module. -/
def Assembles (M : ModuleInfo) (lineMap : Nat → Option SrcInst) (body : List Callback)
    (prog : Nat → Option AsmInsn) : Prop :=
  ∀ p, Option.Rel (Denotes M) (locatedInsts lineMap body)[p]? (prog p)

theorem located_of_flat (h : StreamInv body S)
    (hlocs : (placed (flat S.MF.BBs)).map (·.loc) = (locs body).map fun line => lineMap (line.getD 0))
    (hI : I ∈ flat S.MF.BBs) {p : Nat} (hp : I.place = some p) :
    (locatedInsts lineMap body)[p]? = some { I with place := none } := by
  have hmem : I ∈ placed (flat S.MF.BBs) := List.mem_filter.mpr ⟨hI, by rw [hp]; rfl⟩
  obtain ⟨j, hj⟩ := List.getElem?_of_mem hmem
  have hobs : ((insts body).zipIdx)[j]? = some (asmObs I) := by
    rw [← h.insts, List.getElem?_map, hj]
    rfl
  rw [List.getElem?_zipIdx, Nat.zero_add] at hobs
  obtain ⟨J, hJ, hJI⟩ := Option.map_eq_some_iff.mp hobs
  have hasm : J = I.asm := congrArg Prod.fst hJI
  obtain rfl : j = p := by
    have hplace := congrArg Prod.snd hJI
    simpa [asmObs, hp] using hplace
  have hloc : ((locs body).map fun line => lineMap (line.getD 0))[j]? = some I.loc := by
    rw [← hlocs, List.getElem?_map, hj]
    rfl
  rw [List.getElem?_map] at hloc
  obtain ⟨line, hline, hloc⟩ := Option.map_eq_some_iff.mp hloc
  rw [locatedInsts, List.getElem?_zipWith, hJ, hline]
  show some { J with loc := lineMap (line.getD 0) } = _
  rw [hasm, hloc]
  rfl

/-! ## A whole file -/

/-- A file: alignment, the function up to `.Lfunc_end0`, and what follows. -/
structure AsmFile where
  pre : List Callback := []
  body : List Callback
  secName : String
  data : List Callback := []

def AsmFile.callbacks (f : AsmFile) : List Callback :=
  f.pre ++ f.body ++ .emitLabel f.secName ".Lfunc_end0" :: f.data

/-- A file with one function. -/
structure AsmFile.OneFunction (f : AsmFile) : Prop where
  pre : ∀ c ∈ f.pre, ∃ align, c = .emitValueToAlignment align
  body : TextStream f.body
  section_ : isDebugSection f.secName = false
  data : ∀ c ∈ f.data, c.inst? = none

theorem streamInv_aligned (align : Nat) : StreamInv [] { curAlign := align } where
  ended := rfl
  name := rfl
  cnt := rfl
  built := .nil
  insts := rfl
  unplaced := fun _ h => nomatch h
  nodup := List.nodup_nil
  names := fun _ h => nomatch h
  marks := fun _ _ h => nomatch h
  isOpen := fun _ bs b h => by simp at h
  started := fun h => absurd rfl h

theorem emit_pre (h : ∀ c ∈ cs, ∃ align, c = .emitValueToAlignment align) (align : Nat) :
    ∃ align', cs.foldlM (Streamer.emit lineMap) { curAlign := align } = .ok { curAlign := align' } := by
  induction cs generalizing align with
  | nil => exact ⟨align, rfl⟩
  | cons c cs ih =>
    obtain ⟨⟨a, rfl⟩, hcs⟩ := List.forall_mem_cons.mp h
    exact ih hcs a

theorem emit_ended (hend : S.FunctionEnded = true) (hc : c.inst? = none) (h : S.emit lineMap c = .ok S') :
    S'.MF.BBs = S.MF.BBs ∧ S'.FunctionEnded = true := by
  obtain ⟨gs, data, hadd⟩ := addConstant_eq S
  cases c with
  | emitLabel secName lab =>
    cases h
    simp only [Streamer.emitLabel, hadd]
    split
    · exact ⟨rfl, hend⟩
    · split <;> simp [hend]
  | emitInstruction opcode operands => cases hc
  | emitValueImpl value =>
    simp only [Streamer.emit, Streamer.emitValueImpl] at h
    split at h
    · cases h
      exact ⟨rfl, hend⟩
    · split at h
      · cases h
        exact ⟨rfl, hend⟩
      · cases h
        exact ⟨rfl, hend⟩
      · cases h
  | emitFill numBytes fillValue =>
    simp only [Streamer.emit, Streamer.emitFill] at h
    split at h
    · cases h
      exact ⟨rfl, hend⟩
    · split at h
      · cases h
        exact ⟨rfl, hend⟩
      · cases h
  | emitELFSize =>
    cases h
    rw [hadd]
    exact ⟨rfl, hend⟩
  | emitDwarfLocDirective line | emitBytes data | emitValueToAlignment align | emitCommonSymbol sym size align =>
    cases h
    exact ⟨rfl, hend⟩

theorem emit_data (hend : S.FunctionEnded = true) (hcs : ∀ c ∈ cs, c.inst? = none)
    (h : cs.foldlM (Streamer.emit lineMap) S = .ok S') : S'.MF.BBs = S.MF.BBs := by
  induction cs generalizing S with
  | nil =>
    cases h
    rfl
  | cons c cs ih =>
    obtain ⟨hc, hcs⟩ := List.forall_mem_cons.mp hcs
    rw [List.foldlM_cons] at h
    obtain ⟨S₁, hS₁, h⟩ := except_bind_ok h
    obtain ⟨hBBs, hend₁⟩ := emit_ended hend hc hS₁
    exact (ih hend₁ hcs h).trans hBBs

theorem emit_end {secName : String} (hsec : isDebugSection secName = false) :
    (S.emitLabel secName ".Lfunc_end0").MF.BBs = S.MF.BBs ∧
      (S.emitLabel secName ".Lfunc_end0").FunctionEnded = true := by
  obtain ⟨gs, data, hadd⟩ := addConstant_eq S
  simp [Streamer.emitLabel, hsec, hadd]

theorem file_blocks {f : AsmFile} {MF : MCFunction} (hf : f.OneFunction)
    (hMF : asmFunction lineMap f.callbacks = .ok MF) : ∃ S, StreamInv f.body S ∧
      (placed (flat S.MF.BBs)).map (·.loc) = (locs f.body).map (fun line => lineMap (line.getD 0)) ∧
      generateSuccessors (checkEntryBlock (removeEmptyBlocks S.MF.BBs)) = .ok MF.BBs := by
  obtain ⟨align, hpre⟩ := emit_pre hf.pre 1
  obtain ⟨S, hS, hinv⟩ := (streamInv_aligned align).run lineMap f.body hf.body
  have hlocs := emitAll_locs none (fun h => absurd rfl h) rfl hS
  obtain ⟨hBBs, hend⟩ := emit_end (S := S) hf.section_
  unfold asmFunction at hMF
  obtain ⟨S', hall, hMF⟩ := except_bind_ok hMF
  obtain ⟨MBBs, hsucc, hMF⟩ := except_bind_ok hMF
  cases hMF
  have hrest : f.data.foldlM (Streamer.emit lineMap) (S.emitLabel f.secName ".Lfunc_end0") = .ok S' := by
    unfold Streamer.emitAll AsmFile.callbacks at hall
    rw [List.foldlM_append, List.foldlM_append] at hall
    obtain ⟨S₁, hS₁, hall⟩ := except_bind_ok hall
    obtain ⟨S₂, hS₂, hS₁⟩ := except_bind_ok hS₁
    obtain rfl := Except.ok.inj (hpre.symm.trans hS₂)
    obtain rfl := Except.ok.inj (hS.symm.trans hS₁)
    exact hall
  refine ⟨S, hinv, hlocs, ?_⟩
  show generateSuccessors _ = .ok MBBs
  rw [← hBBs, ← emit_data hend hf.data hrest]
  exact hsucc

end BpfTv
