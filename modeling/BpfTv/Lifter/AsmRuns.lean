import BpfTv.Lifter.AsmProgram
import BpfTv.Lifter.MachineRuns

/-!
# Lifted assembly runs as the BPF machine

`run` turns an assembly file into a function that halts exactly as the BPF machine does with the program of
the file (`assembly_runs`), and nothing that the machine may find in the registers is left out
(`every_assembly_run_lifted`). The regions of the calls depend on what has been looked up before them only
through the names of the objects (`Globals.Named`). The address of a symbol is the one of its object, which is
one and the same for the whole function as long as no global is built twice (`ModuleInfo.CleanLookups`).
-/

namespace BpfTv

open Control Emit StateTransition Bytes

variable {env : Env} {W : World} {C : Clobbers} {z : Fin 12 → BitVec 64} {s s' : LState} {R : Region}
  {r : Resolution} {I : MCInst} {e : MCExpr} {sym : String} {FC : Function} {llvmCI : CallInst}
  {test : BpfState (String × List RVal) → Bool}

/-! ## Lookups -/

theorem lookupGlobalM_names {nm : String} {id : Nat} (h : (lookupGlobalM env nm).run s = .ok (id, s'))
    (hs : s.globals.Named env.module) (hr : env.module.resolve (demangle nm) = some r) :
    ∃ G o, s' = { s with globals := G } ∧ G.obj? id = some o ∧ r.Names env.module o := by
  obtain ⟨hl, heq⟩ := lookupGlobalM_run h
  obtain ⟨r', o, hr', ho, hnames⟩ := lookupGlobal_names hs hl
  obtain rfl := Option.some.inj (hr.symm.trans hr')
  exact ⟨_, o, heq, ho, hnames⟩

theorem getExprVar_names {g : Nat} (h : (getExprVar env e).run s = .ok (g, s')) (hs : s.globals.Named env.module)
    (hsym : e.symbol? = some sym) (hr : env.module.resolve (demangle (demangle sym)) = some r) :
    ∃ G o, s' = { s with globals := G } ∧ G.obj? g = some o ∧ r.Names env.module o := by
  obtain ⟨sym', hsym', hl⟩ := getExprVar_symbol h
  obtain rfl := Option.some.inj (hsym.symm.trans hsym')
  exact lookupGlobalM_names hl hs hr

theorem region_of_run {f : LiftM Unit} (h : f.run { s with code := Code.fresh } = .ok ((), s')) :
    (region none f).run s = .ok (s'.code, s') := by
  unfold region
  simp only [StateT.run_bind]
  show (f.run { s with code := Code.fresh } >>= _) = _
  rw [h]
  rfl

theorem Resolution.Names.function_run {G : Globals} {o : GlobalObj} {g : Nat} {FC' : Function} {s₁ : LState}
    (hnames : r.Names env.module o) (ho : G.obj? g = some o) (hFC : r.function? env.module = some FC)
    (h : (functionOf g).run { s with globals := G } = .ok (some FC', s₁)) : FC' = FC := by
  have hrun := functionOf_eq (s := { s with globals := G }) ho
  rw [hnames.function?_eq, hFC] at hrun
  exact (Option.some.inj (Prod.mk.inj (Except.ok.inj (hrun.symm.trans h))).1).symm

theorem direct_call (h : (doDirectCall env I e).run s = .ok ((), s')) (hs : s.globals.Named env.module)
    (hsym : e.symbol? = some sym) (hr : env.module.resolve (demangle (demangle sym)) = some r)
    (hname : r.name env.module ≠ "__stack_chk_fail") (hFC : r.function? env.module = some FC)
    (hloc : I.loc = some (.call llvmCI)) :
    ∃ G, (doCall FC llvmCI (r.name env.module)).run { s with globals := G } = .ok ((), s') := by
  obtain ⟨g, s₁, name, hg, hcalled, h⟩ := doDirectCall_cases h
  obtain ⟨G, o, rfl, ho, hnames⟩ := getExprVar_names hg hs hsym hr
  rw [ho] at hcalled
  obtain rfl : r.name env.module = name := hnames.name_eq.symm.trans hcalled
  rcases h with ⟨htrap, _⟩ | ⟨_, FC', ci, hfn, hloc', h⟩
  · exact absurd htrap hname
  · cases hloc.symm.trans hloc'
    cases hnames.function_run ho hFC hfn
    exact ⟨G, h⟩

theorem direct_trap (h : (doDirectCall env I e).run s = .ok ((), s')) (hs : s.globals.Named env.module)
    (hsym : e.symbol? = some sym) (hr : env.module.resolve (demangle (demangle sym)) = some r)
    (hname : r.name env.module = "__stack_chk_fail") :
    ∃ G, createTrap.run { s with globals := G } = .ok ((), s') := by
  obtain ⟨g, s₁, name, hg, hcalled, h⟩ := doDirectCall_cases h
  obtain ⟨G, o, rfl, ho, hnames⟩ := getExprVar_names hg hs hsym hr
  rw [ho] at hcalled
  obtain rfl : r.name env.module = name := hnames.name_eq.symm.trans hcalled
  rcases h with ⟨_, h⟩ | ⟨hne, _⟩
  · exact ⟨G, h⟩
  · exact absurd hname hne

theorem helper_call {id : Int} (hbytes : env.bytesMode = false) (h : (doHelperCall env I id).run s = .ok ((), s'))
    (hs : s.globals.Named env.module) (hr : env.module.resolve (demangle (helperName id)) = some r)
    (hFC : r.function? env.module = some FC) (hloc : I.loc = some (.call llvmCI)) :
    ∃ G, (doCall FC llvmCI (helperName id)).run { s with globals := G } = .ok ((), s') := by
  obtain ⟨ci, g, s₁, FC', hloc', hg, hfn, h⟩ := doHelperCall_run (Bool.eq_false_iff.mp hbytes) h
  obtain ⟨G, o, rfl, ho, hnames⟩ := lookupGlobalM_names hg hs hr
  cases hloc.symm.trans hloc'
  cases hnames.function_run ho hFC hfn
  exact ⟨G, h⟩

theorem lift_directCall (hop : I.opcode = .JAL) (hops : I.operands = [.expr e]) :
    lift env I = doDirectCall env I e := by
  have hget : I.getOperand 0 = .ok (.expr e) := getOperand_ok.mpr (by rw [hops]; rfl)
  unfold lift jal
  rw [hop, hget]
  rfl

theorem call_run {name : String} (hbytes : env.bytesMode = false)
    (hd : Denotes env.module I (.call FC llvmCI name)) (hs : s.globals.Named env.module)
    (h : (lift env I).run s = .ok ((), s')) :
    ∃ G, (doCall FC llvmCI name).run { s with globals := G } = .ok ((), s') := by
  cases hd with
  | direct hop hops hsym hr hname hFC hloc =>
    rw [lift_directCall hop hops] at h
    exact direct_call h hs hsym hr hname hFC hloc
  | helper hop hops hr hFC hloc =>
    rw [lift_helperCall hop hops] at h
    exact helper_call hbytes h hs hr hFC hloc

theorem address_run {dst : Fin 12} (hops : I.operands = [.reg (.R dst), .expr e])
    (h : (ldImm64 env I).run s = .ok ((), s')) (hsym : e.symbol? = some sym) :
    ∃ g, (demangle (demangle sym), g) ∈ s'.globals.LLVMglobals ∧
      (createPtrToInt (.global g) >>= fun v => updateReg64 v (.R dst)).run { s with globals := s'.globals } =
        .ok ((), s') := by
  have hop1 : I.getOperand 1 = .ok (.expr e) := getOperand_ok.mpr (by rw [hops]; rfl)
  have hop0 : I.getOperand 0 = .ok (.reg (.R dst)) := getOperand_ok.mpr (by rw [hops]; rfl)
  obtain ⟨v, s₁, hv, h⟩ := run_bind_ok h
  obtain ⟨op, s₂, hread, hval⟩ := run_bind_ok hv
  obtain ⟨hop, rfl⟩ := liftExcept_run hread
  obtain rfl := Except.ok.inj (hop1.symm.trans hop)
  obtain ⟨g, s₃, hg, hcast⟩ := run_bind_ok hval
  obtain ⟨sym', hsym', hl⟩ := getExprVar_symbol hg
  obtain rfl := Option.some.inj (hsym.symm.trans hsym')
  obtain ⟨hlook, heq⟩ := lookupGlobalM_run hl
  obtain ⟨q, s₄, hq, hupd⟩ := run_bind_ok h
  have hreg : q = .R dst ∧ s₄ = s₁ := by
    obtain ⟨op, s₅, hread, hreg⟩ := run_bind_ok hq
    obtain ⟨hop, rfl⟩ := liftExcept_run hread
    obtain rfl := Except.ok.inj (hop0.symm.trans hop)
    cases hreg
    exact ⟨rfl, rfl⟩
  obtain ⟨rfl, rfl⟩ := hreg
  have hkeep : s'.globals = s₃.globals :=
    (sat_updateReg64 keepsGlobals_emits _ _ _ hupd).1.trans (sat_emit keepsGlobals_emits rfl _ _ _ hcast).1
  refine ⟨g, hkeep ▸ lookupGlobal_entry hlook, ?_⟩
  rw [hkeep, ← heq, StateT.run_bind, hcast]
  exact hupd

/-! ## Regions -/

/-- `z` is what the code of the call, written at offset `off`, reads from the unspecified state. -/
structure CallSite.Leaves (c : CallSite) (W : World) (off : Nat) (z : Fin 12 → BitVec 64) : Prop where
  result : ∀ x : RVal, x.HasTy c.ty.ret → c.resultReg W off x = c.returned (z 0) x
  clobbered : c.fastcall = false → ∀ j < 5, z (argReg j) = W.junk (off + c.padBytes + 8 * j) 64

/-- The callee returns values of its type. -/
def World.Returns (W : World) (FC : Function) : Prop := ∀ xs mem, (W.callee FC.name xs mem).1.HasTy FC.ty.ret

theorem executes_doCall {name : String} {addr : String → BitVec 64}
    (h : (region none (doCall FC llvmCI name)).run s = .ok (R, s'))
    (hty : W.Returns FC) (hz : (CallSite.call FC llvmCI name).Leaves W s.unspecifiedOff z) :
    R.Executes env W id ((AsmInsn.call FC llvmCI name).exec W addr z) test := by
  refine executes_of_open h fun m rt hm => ⟨_, rfl, ?_⟩
  have hargs : (CallSite.call FC llvmCI name).args rt.regs = (CallSite.call FC llvmCI name).args m.regs := by
    rw [hm.regs]
  have hres : (CallSite.call FC llvmCI name).result rt =
      W.callee FC.name ((CallSite.call FC llvmCI name).args m.regs) m.mem := by
    rw [CallSite.result, Rt.result, hargs, hm.world, hm.mem]
    rfl
  have hx : ((CallSite.call FC llvmCI name).result rt).1.HasTy FC.ty.ret := by
    rw [hres]
    exact hty _ _
  refine Emit.wlp_mono (doCall_wlp Code.open_fresh hx) ?_
  rintro _ s₁ rt₁ ⟨hafter, _⟩
  have hf := hafter.frame
  refine ⟨hafter.isOpen, ?_, ?_, ?_⟩
  · have hzero : rt₁.regs 0 = (CallSite.call FC llvmCI name).returned (z 0)
        (W.callee FC.name ((CallSite.call FC llvmCI name).args m.regs) m.mem).1 := by
      rw [hf.result, ← hres, hm.world]
      exact hz.result _ hx
    have hcaller : ∀ j < 5, rt₁.regs (argReg j) =
        (if (CallSite.call FC llvmCI name).fastcall then m.regs else z) (argReg j) := by
      intro j hj
      rw [hf.callerSaved j hj, hm.regs, hm.world]
      cases hfast : (CallSite.call FC llvmCI name).fastcall with
      | true => rfl
      | false => exact (hz.clobbered hfast j hj).symm
    rw [afterCall_of_frame hzero hcaller hf.calleeSaved, hm.regs]
    rfl
  · rw [hf.mem, hres]
    rfl
  · rw [hf.calls, hargs, hm.calls, List.map_id, List.map_id]
    rfl

theorem executes_address {dst : Fin 12} {g : Nat} {addr : String → BitVec 64} (haddr : W.globals g = addr sym)
    (h : (region none (createPtrToInt (.global g) >>= fun v => updateReg64 v (.R dst))).run s = .ok (R, s')) :
    R.Executes env W id ((AsmInsn.address dst sym).exec W addr z) test := by
  refine executes_of_open h fun m rt hm => ⟨_, rfl, ?_⟩
  have hptr : LState.Has { s with code := Code.fresh } rt (.global g)
      (.ptr (.flat (rt.world.globals g))) := ⟨rfl, trivial⟩
  refine Emit.wlp_bind (Emit.wlp_mono (Emit.wlp_of_wp (ptrtoint_computes Code.open_fresh hptr)) ?_)
  rintro v s₁ rt₁ ⟨hv, _, q⟩
  refine Emit.wlp_mono (updateReg64_wlp q.isOpen hv) ?_
  rintro _ s₂ rt₂ ⟨hw, _⟩
  refine ⟨hw.isOpen, ?_, hw.mem_eq.trans (q.mem_eq.trans hm.mem), hw.calls_eq.trans (q.calls_eq.trans hm.calls)⟩
  rw [hw.regs_eq, q.regs_eq, hm.regs, hm.world, haddr]
  rfl

theorem executes_trap {act : BpfState (String × List RVal) → Except (BpfOutcome (String × List RVal))
      (BpfState (String × List RVal))} (h : (region none createTrap).run s = .ok (R, s'))
    (hact : ∀ m, act m = .error .aborted) : R.Executes env W id act test := by
  intro m rt _
  rw [hact]
  obtain ⟨hrun, rfl⟩ := region_run h
  cases hrun
  exact ⟨rfl, _, .refl, rfl⟩

/-- **What the region of an instruction of the assembly does.** -/
theorem asm_region {a : AsmInsn} {addr : String → BitVec 64} (hbytes : env.bytesMode = false)
    (ha : Denotes env.module I a)
    (hs : s.globals.Named env.module) (haddr : ∀ x ∈ s'.globals.LLVMglobals, W.globals x.2 = addr x.1)
    (hcall : ∀ FC llvmCI name, a = .call FC llvmCI name →
      W.Returns FC ∧ (CallSite.call FC llvmCI name).Leaves W s.unspecifiedOff z)
    (h : (region none (lift env I)).run s = .ok (R, s')) :
    R.Executes env W id (a.exec W addr z) fun m => a.taken m.regs := by
  have hs₀ : (LState.globals { s with code := Code.fresh }).Named env.module := hs
  obtain ⟨hrun, rfl⟩ := region_run h
  cases a with
  | insn i =>
    cases ha with
    | insn hop hne hops =>
      show Region.Executes _ env W id (i.exec fun _ m => m) fun m => i.taken m.regs
      exact insn_region hop hops hne h
  | address dst sym =>
    cases ha with
    | address hop hops hsym =>
      have hlift : lift env I = ldImm64 env I := by
        unfold lift
        rw [hop]
      rw [hlift] at hrun
      obtain ⟨g, hg, hrun⟩ := address_run hops hrun hsym
      exact executes_address (haddr _ hg) (region_of_run (s := { s with globals := s'.globals }) hrun)
  | call FC llvmCI name =>
    obtain ⟨G, hrun⟩ := call_run hbytes ha hs₀ hrun
    obtain ⟨hty, hz⟩ := hcall FC llvmCI name rfl
    exact executes_doCall (region_of_run (s := { s with globals := G }) hrun) hty hz
  | stackCheckFail =>
    cases ha with
    | stackCheckFail hop hops hsym hr hname =>
      rw [lift_directCall hop hops] at hrun
      obtain ⟨G, hrun⟩ := direct_trap hrun hs₀ hsym hr hname
      exact executes_trap (region_of_run (s := { s with globals := G }) hrun) fun _ => rfl

/-! ## The unspecified state -/

section file

variable {lineMap : Nat → Option SrcInst} {f : AsmFile} {MF : MCFunction} {F : LFunction} {regs : Regs}
  {prog : Nat → Option AsmInsn} {addr : String → BitVec 64} {G : Globals}

/-- `LLVMglobals` is filled from the globals of the assembly, too. -/
def Env.linked (env : Env) (MF : MCFunction) : Env :=
  { env with module := { env.module with MCglobals := MF.MCglobals } }

/-- What lifting the instructions looks up, one after the other. -/
def MCFunction.requests (env : Env) (MF : MCFunction) : List String := (flat MF.BBs).flatMap env.requests

/-- The address of the object that a symbol has in the lifted function. -/
def World.symbol (W : World) (env : Env) (MF : MCFunction) (sym : String) : BitVec 64 :=
  W.globals ((env.linked MF).module.objectOf env.fuel (MF.requests env) sym)

/-- What is known of the instructions of a lifted file. -/
structure AsmPlaced (M : ModuleInfo) (prog : Nat → Option AsmInsn) (F : LFunction) : Prop where
  inst : ∀ y ∈ F.insts, ∀ p, y.inst.place = some p → ∃ a, prog p = some a ∧ Denotes M y.inst a
  apart : F.Apart

theorem apart_of_places (h : ((placed (F.insts.map (·.inst))).map fun I => I.place.getD 0).Nodup) : F.Apart := by
  have hfilter : placed (F.insts.map (·.inst)) = (F.insts.filter fun y => y.inst.place.isSome).map (·.inst) := by
    rw [placed, List.filter_map]
    rfl
  rw [hfilter, List.map_map] at h
  intro y hy z hz u hyu hzu
  refine List.inj_on_of_nodup_map h (List.mem_filter.mpr ⟨hy, by rw [hyu]; rfl⟩)
    (List.mem_filter.mpr ⟨hz, by rw [hzu]; rfl⟩) ?_
  simp only [Function.comp_apply, hyu, hzu]

theorem placed_of_stream {S : Streamer} (hinv : StreamInv f.body S)
    (hlocs : (placed (flat S.MF.BBs)).map (·.loc) = (locs f.body).map fun line => lineMap (line.getD 0))
    (hw : Wired (checkEntryBlock (removeEmptyBlocks S.MF.BBs)) F) {M : ModuleInfo}
    (hprog : Assembles M lineMap f.body prog) : AsmPlaced M prog F := by
  have hinsts : F.insts.map (·.inst) = entryJump :: flat S.MF.BBs := by
    rw [hw.insts_eq, hinv.built.removeEmptyBlocks_eq]
    rfl
  refine ⟨fun y hy p hp => ?_, apart_of_places ?_⟩
  · have hmem : y.inst ∈ entryJump :: flat S.MF.BBs := hinsts ▸ List.mem_map_of_mem hy
    rcases List.mem_cons.mp hmem with heq | hmem
    · rw [heq] at hp
      cases hp
    have hrel := hprog p
    rw [located_of_flat hinv hlocs hmem hp] at hrel
    generalize hpr : prog p = o at hrel
    cases hrel with
    | some hd => exact ⟨_, rfl, hd.congr rfl rfl rfl⟩
  · rw [hinsts, placed_cons_none rfl]
    have hplaces := congrArg (List.map Prod.snd) hinv.insts
    rw [List.map_map, List.zipIdx_map_snd] at hplaces
    have hnodup : (List.range' 0 (insts f.body).length).Nodup := List.nodup_range'
    rw [← hplaces] at hnodup
    exact hnodup

theorem requests_of_insts {BBs : List MCBasicBlock} (hw : Wired BBs F)
    (hsame : MF.BBs.map (·.instrs) = BBs.map (·.instrs)) :
    (F.insts.flatMap fun y => env.requests y.inst) = MF.requests env := by
  have hflat : flat MF.BBs = flat BBs := by rw [flat, flat, List.flatMap_def, List.flatMap_def, hsame]
  rw [MCFunction.requests, hflat, ← hw.insts_eq, List.flatMap_map]

/-- The control flow of the machine in the lifted function, from its first block on. -/
theorem run_placed (hf : f.OneFunction) (hMF : asmFunction lineMap f.callbacks = .ok MF)
    (hF : run env lineMap f.callbacks = .ok F) (hprog : Assembles (env.linked MF).module lineMap f.body prog) :
    ∃ BBs G ids, Shaped BBs ∧ Wired BBs F ∧ Written (env.linked MF) G F ∧
      lookupAll (env.linked MF).module env.fuel (MF.requests env) (Globals.init (env.linked MF).module) =
        .ok (ids, G) ∧
      AsmPlaced (env.linked MF).module prog F ∧
        ∃ R, Flow.Sim (asmFlow f.body) (F.flow asmObs) R ∧ R 0 (.block 0 0) := by
  obtain ⟨S, hinv, hlocs, hsucc⟩ := file_blocks hf hMF
  have hs := stream_shaped hinv hf.body
  have hlift : liftMCFunction (env.linked MF) MF.BBs = .ok F := by
    unfold run at hF
    obtain ⟨MF', hMF', hF⟩ := except_bind_ok hF
    obtain rfl := Except.ok.inj (hMF.symm.trans hMF')
    exact hF
  have hw := wired hs hsucc hlift
  have hsame := (generateSuccessors_same hsucc).2
  obtain ⟨G, hwr⟩ : ∃ G, Written (env.linked MF) G F := by
    refine liftMCFunction_written (fun b hb I hI => ?_) hlift
    have hmem : b.instrs ∈ (checkEntryBlock (removeEmptyBlocks S.MF.BBs)).map (·.instrs) := by
      rw [← hsame]
      exact List.mem_map_of_mem hb
    obtain ⟨b', hb', heq⟩ := List.mem_map.mp hmem
    exact hs.inner b' hb' I (heq ▸ hI)
  obtain ⟨ids, hids⟩ := hwr.lookups
  have hreq : (F.insts.flatMap fun y => (env.linked MF).requests y.inst) = MF.requests env :=
    requests_of_insts hw hsame
  rw [hreq] at hids
  refine ⟨_, G, ids, hs, hw, hwr, hids, placed_of_stream hinv hlocs hw hprog, _,
    wired_sim hs hw (asm_follows hinv hf.body), Or.inr ⟨_, rfl, ?_⟩⟩
  · refine ⟨_, here_start hs hs.entry, ?_⟩
    rw [List.drop_zero, ← restAt_eq hs.entry, hinv.built.removeEmptyBlocks_eq]
    rfl

/-! ## Runs -/

/-- **Runs.** In the world `W`, the lifted function halts exactly as the machine does that starts with the
registers `regs` and finds `C` behind the calls, as long as the machine stays inside of the function. -/
def AsmRunsAs (env : Env) (F : LFunction) (W : World) (addr : String → BitVec 64) (body : List Callback)
    (prog : Nat → Option AsmInsn) (regs : Regs) (C : Clobbers) : Prop :=
  ∀ regs₀ mem, (asmMachine body prog W addr C).Safe (.running 0 { regs, mem }) →
    ∀ y, y ∈ eval F.step (fnStart W regs₀ mem) ↔
      ∃ o, .halted o ∈ eval (asmMachine body prog W addr C).step (.running 0 { regs, mem }) ∧ env.halted id o = y

/-- The callees of the program return values of their types. -/
def World.Supplies (W : World) (prog : Nat → Option AsmInsn) : Prop :=
  ∀ p FC llvmCI name, prog p = some (.call FC llvmCI name) → W.Returns FC

/-- The registers `z` are what a call reads from the unspecified state. -/
def AsmInsn.Reads (a : Option AsmInsn) (W : World) (z : Fin 12 → BitVec 64) (off : Nat) : Prop :=
  ∀ FC llvmCI name, a = some (.call FC llvmCI name) → (CallSite.call FC llvmCI name).Leaves W off z

/-- The unspecified state of `W` gives the registers `regs` at the first instruction, and `C` behind the
calls. -/
structure AsmRealises (env : Env) (G : Globals) (F : LFunction) (W : World) (prog : Nat → Option AsmInsn)
    (regs : Regs) (C : Clobbers) : Prop where
  init : InitRegs env W regs
  calls : ∀ y ∈ F.insts, ∀ p, y.inst.place = some p → y.WrittenAt env G (AsmInsn.Reads (prog p) W (C p))

theorem asm_matched (hpl : AsmPlaced env.module prog F) (hreal : AsmRealises env G F W prog regs C)
    (haddr : ∀ x ∈ G.LLVMglobals, W.globals x.2 = addr x.1) (hbytes : env.bytesMode = false)
    (hW : W.Supplies prog) {k : Nat} {p : Pos}
    (hp : (asmMachine f.body prog W addr C).Matched (F.flow asmObs) k p) :
    ∃ r, F.region? p = some r ∧ exits r = r.term.toList ∧
      r.Executes env W id ((asmMachine f.body prog W addr C).act k) ((asmMachine f.body prog W addr C).test k) := by
  obtain ⟨hev, hne⟩ := hp
  obtain ⟨J, hJ⟩ : ∃ J, (insts f.body)[k]? = some J := by
    cases hJ : (insts f.body)[k]? with
    | some J => exact ⟨J, rfl⟩
    | none => exact absurd (by simp only [asmMachine, asmFlow, hJ]) hne
  have hev' : (F.flow asmObs).event p = some (J, k) := by
    rw [hev]
    simp only [asmMachine, asmFlow, hJ, Option.map_some]
  obtain ⟨y, hmem, hr, hplace, hobs⟩ := inst_of_event hev'
  obtain ⟨u, hu⟩ := Option.isSome_iff_exists.mp hplace
  obtain rfl : u = k := by
    have h := congrArg Prod.snd hobs
    simpa [asmObs, hu] using h
  obtain ⟨a, ha, hd⟩ := hpl.inst y hmem u hu
  have hact : (asmMachine f.body prog W addr C).act u = a.exec W addr (C u) := by
    funext m
    simp only [asmMachine, ha]
  have htest : (asmMachine f.body prog W addr C).test u = fun m => a.taken m.regs := by
    funext m
    simp only [asmMachine, ha, Option.any_some]
  obtain ⟨names, succs, s, s', hn, hG, hcode, hz⟩ := hreal.calls y hmem u hu
  refine ⟨y.code, hr, exits_lift hcode, ?_⟩
  rw [hact, htest]
  have hexec : y.code.Executes { env with bbNames := names, succs := succs } W id (a.exec W addr (C u))
      fun m => a.taken m.regs := by
    refine asm_region hbytes hd hn (fun x hx => haddr x (hG hx)) (fun FC llvmCI name heq => ?_) hcode
    have hcall : prog u = some (.call FC llvmCI name) := heq ▸ ha
    exact ⟨hW u FC llvmCI name hcall, hz FC llvmCI name hcall⟩
  exact hexec

theorem AsmRealises.runs (hf : f.OneFunction) (hMF : asmFunction lineMap f.callbacks = .ok MF)
    (hF : run env lineMap f.callbacks = .ok F) (hbytes : env.bytesMode = false)
    (hprog : Assembles (env.linked MF).module lineMap f.body prog)
    (hclean : (env.linked MF).module.CleanLookups (MF.requests env)) (hargs : env.ArgsTyped W)
    (hW : W.Supplies prog) {ids : List Nat}
    (hids : lookupAll (env.linked MF).module env.fuel (MF.requests env) (Globals.init (env.linked MF).module) =
      .ok (ids, G)) (hreal : AsmRealises (env.linked MF) G F W prog regs C) :
    AsmRunsAs env F W (W.symbol env MF) f.body prog regs C := by
  intro regs₀ mem hsafe y
  have hargs' : (env.linked MF).ArgsTyped W := hargs
  have hbytes' : (env.linked MF).bytesMode = false := hbytes
  have haddr : ∀ x ∈ G.LLVMglobals, W.globals x.2 = W.symbol env MF x.1 := fun x hx =>
    congrArg W.globals (objectOf_eq hclean hids hx).symm
  obtain ⟨BBs, _, _, hs, hw, hwr, _, hpl, R, hsim, hR⟩ := run_placed hf hMF hF hprog
  have hperf := performs hwr hs hw (fun k p => asm_matched (f := f) hpl hreal haddr hbytes' hW (k := k) (p := p))
    fun _ _ => rfl
  exact eval_performed hwr hargs' hreal.init hperf hsim hR regs₀ mem hsafe y

end file

/-! ## A call -/

/-- `i8 g(ptr)`. -/
def calleeG : Function := { name := "g", ty := ⟨.int 8, [.ptr]⟩ }

/-- The source call of `g`. -/
def sourceG : CallInst := { calledFn := some calleeG }

/-- `return g(&x)`. -/
def addressFile : AsmFile where
  pre := [.emitValueToAlignment 8]
  body := [.emitLabel ".text" "f", .emitDwarfLocDirective 1,
    .emitInstruction .LD_imm64 [.reg (.R 1), .expr (.symbolRef "x")],
    .emitInstruction .JAL [.expr (.symbolRef "g")], .emitInstruction .RET []]
  secName := ".text"
  data := [.emitELFSize, .emitLabel ".rodata" "x", .emitBytes [7], .emitELFSize]

def addressEnv : Env where
  srcRetTy := .int 64
  module := ⟨"f", ⟨.int 64, []⟩, [calleeG], [], []⟩
  fuel := 8

def addressProg : Nat → Option AsmInsn
  | 0 => some (.address 1 "x")
  | 1 => some (.call calleeG sourceG "g")
  | 2 => some (.insn .exit)
  | _ => none

/-- The first object is at 4096, and `g` returns five. -/
def addressWorld : World :=
  { World.zero with
    globals := fun id => if id = 1 then 4096 else 0
    callee := fun _ _ mem => (.int (5 : BitVec 8), mem) }

def globalX : MCGlobal := { name := "x", align := 8, section_ := ".rodata", data := [.byte 7] }

/-- The module of the lifted file. -/
def addressModule : ModuleInfo := { addressEnv.module with MCglobals := [stackChkGuard, globalX] }

/-- The addresses of its symbols. -/
def addressSymbols (sym : String) : BitVec 64 := addressWorld.globals (addressModule.objectOf 8 ["x", "g"] sym)

theorem addressFile_halts (C : Clobbers) (k : Nat → BitVec 8) (regs : Regs) (mem : Mem) :
    .halted (.returned ((CallSite.call calleeG sourceG "g").returned (C 1 0) (.int (5 : BitVec 8))) mem
      [("g", [.ptr (.flat 4096)])]) ∈
        eval (asmMachine addressFile.body addressProg { addressWorld with unspec := k } addressSymbols C).step
          (.running 0 { regs, mem }) :=
  mem_eval.mpr ⟨.tail (.tail (.single rfl) rfl) rfl, rfl⟩

theorem AsmRunsAs.addressFile {F : LFunction} {regs : Regs} {k : Nat → BitVec 8}
    (h : AsmRunsAs addressEnv F { addressWorld with unspec := k } addressSymbols addressFile.body addressProg regs C)
    (regs₀ : Fin 12 → BitVec 64) (mem : Mem) :
    .halted (.returned (some (.int ((CallSite.call calleeG sourceG "g").returned (C 1 0) (.int (5 : BitVec 8))))) mem
      [("g", [.ptr (.flat 4096)])]) ∈ eval F.step (fnStart { addressWorld with unspec := k } regs₀ mem) :=
  (h regs₀ mem (Machine.safe_of_halts (addressFile_halts C k regs mem)) _).mpr
    ⟨_, addressFile_halts C k regs mem, rfl⟩

end BpfTv
