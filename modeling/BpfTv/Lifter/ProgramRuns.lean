import BpfTv.Lifter.MachineRuns

/-!
# Lifted programs run as the BPF machine

`runBytes` turns a byte program into a function that halts exactly as the BPF machine does
(`program_runs`), started with the registers and with the clobbered registers that the unspecified state
holds (`Realises`). What `platformInit` and the helper calls leave unspecified is not narrowed: every entry
of the program and every choice of clobbered registers is one for some unspecified state
(`every_run_lifted`).
-/

namespace BpfTv

open Control Emit StateTransition Bytes

variable {env : Env} {W : World} {H : Helpers} {C : Clobbers} {F : LFunction} {dis : Disassembler}
  {bytes : List (BitVec 8)} {prog : Nat → Option Insn} {regs : Regs} {mem : Mem} {i : Insn} {u : Nat}
  {p : Pos} {r : Region} {G : Globals}

/-! ## The blocks of a byte program -/

theorem runBytes_written (hdis : DisassemblerSpec dis) (hF : runBytes env dis bytes = .ok F) :
    ∃ G, Written { env with bytesMode := true } G F := by
  unfold runBytes at hF
  cases hinsns : decodeProgram dis bytes with
  | error e => rw [hinsns] at hF; cases hF
  | ok insns =>
    cases hBBs : blocksOfInsns insns with
    | error e => simp only [hinsns, hBBs, bind, Except.bind] at hF; cases hF
    | ok BBs =>
      obtain ⟨leaders, ds, MF, _, hchain, hinv, rfl⟩ :=
        blocksOfInsns_filled (decodeProgram_chain hdis hinsns).1 hBBs
      simp only [hinsns, hBBs, bind, Except.bind] at hF
      cases hM : generateSuccessors (checkEntryBlock (removeEmptyBlocks MF.BBs)) with
      | error e => rw [hM] at hF; cases hF
      | ok MBBs =>
        rw [hM] at hF
        refine liftMCFunction_written (fun b hb I hI => ?_) hF
        have hmem : b.instrs ∈ (checkEntryBlock (removeEmptyBlocks MF.BBs)).map (·.instrs) := by
          rw [← (generateSuccessors_same hM).2]
          exact List.mem_map_of_mem hb
        obtain ⟨b', hb', heq⟩ := List.mem_map.mp hmem
        exact (bytes_shaped hchain hinv).inner b' hb' I (heq ▸ hI)

/-- What is known of the instructions of a lifted program: each of them is the one of the program at its
unit, no two are at one unit. -/
structure Placed (prog : Nat → Option Insn) (F : LFunction) : Prop where
  inst : ∀ y ∈ F.insts, ∀ u, y.inst.place = some u → ∃ i l, prog u = some i ∧ y.inst.opcode = i.opcode ∧
    y.inst.operands = i.labelled l
  apart : F.Apart

theorem insts_of_filled {ds : List DecodedInsn} {leaders : List Nat} {MF : MCFunction}
    (hinv : FillInv leaders ds MF) (hw : Wired (checkEntryBlock (removeEmptyBlocks MF.BBs)) F) :
    F.insts.map (·.inst) = entryJump :: ds.map (·.inst) := by
  rw [hw.insts_eq, hinv.built.removeEmptyBlocks_eq, ← hinv.flat]
  rfl

theorem placed_of_filled {ds : List DecodedInsn} {leaders : List Nat} {MF : MCFunction}
    (hchain : Chain dis bytes (Filled (ds.map (·.unit)) leaders) 0 ds) (hinv : FillInv leaders ds MF)
    (hw : Wired (checkEntryBlock (removeEmptyBlocks MF.BBs)) F) (hlab : Chain dis bytes Labelled 0 ds)
    (hprog : Disassembles dis bytes prog) : Placed prog F := by
  have hinsts := insts_of_filled hinv hw
  have hmem : ∀ y ∈ F.insts, ∀ u, y.inst.place = some u → ∃ d ∈ ds, d.inst = y.inst ∧ d.unit = u := by
    intro y hy u hu
    have hy' : y.inst ∈ entryJump :: ds.map (·.inst) := hinsts ▸ List.mem_map_of_mem hy
    rcases List.mem_cons.mp hy' with h | h
    · rw [h] at hu
      cases hu
    · obtain ⟨d, hd, hdy⟩ := List.mem_map.mp h
      obtain ⟨_, _, _, _, hpl, _⟩ := program_inst hprog hlab hd
      rw [hdy, hu] at hpl
      exact ⟨d, hd, hdy, (Option.some.inj hpl).symm⟩
  refine ⟨fun y hy u hu => ?_, fun y hy z hz u hyu hzu => ?_⟩
  · obtain ⟨d, hd, hdy, rfl⟩ := hmem y hy u hu
    obtain ⟨i, l, hi, hop, _, hops⟩ := program_inst hprog hlab hd
    exact ⟨i, l, hi, hdy ▸ hop, hdy ▸ hops⟩
  · obtain ⟨d, hd, _, rfl⟩ := hmem y hy u hyu
    obtain ⟨x, hx, _⟩ := insts_at hchain hinv hw hd
    have hone : ∀ w ∈ F.insts, w.inst.place = some d.unit → w = x := fun w hw hpl => by
      have hwx : w ∈ F.insts.filter fun x => x.inst.place = some d.unit :=
        List.mem_filter.mpr ⟨hw, by simpa using hpl⟩
      rwa [hx, List.mem_singleton] at hwx
    rw [hone y hy hyu, hone z hz hzu]

/-! ## The unspecified state -/

/-- The registers `c` are what the code of a call, written at offset `off`, reads from the unspecified
state. -/
def LInst.Reads (y : LInst) (W : World) (c : Fin 12 → BitVec 64) (off : Nat) : Prop :=
  y.inst.opcode = .JAL → ∀ j < 5, c (argReg j) = W.junk (off + 8 * j) 64

/-- The unspecified state of `W` gives the registers `regs` at the first instruction, and `C` behind the
calls. -/
structure Realises (env : Env) (G : Globals) (F : LFunction) (W : World) (regs : Regs) (C : Clobbers) : Prop where
  init : InitRegs env W regs
  calls : ∀ y ∈ F.insts, ∀ u, y.inst.place = some u → y.WrittenAt env G (y.Reads W (C u))

theorem exists_clobbers (hwr : Written env G F) (hpl : Placed prog F) (W : World) :
    ∃ C : Clobbers, ∀ y ∈ F.insts, ∀ u, y.inst.place = some u → y.WrittenAt env G (y.Reads W (C u)) := by
  refine exists_written (Q := fun _ y c off => y.Reads W c off) hwr hpl.apart fun y _ u _ off => ?_
  refine ⟨fun q => W.junk (off + 8 * (q.val - 1)) 64, fun _ j hj => ?_⟩
  have hval : (argReg j).val - 1 = j := by rw [argReg_val hj, Nat.add_sub_cancel_left]
  exact congrArg (fun k => W.junk (off + 8 * k) 64) hval

theorem eq_call (h : i.opcode = .JAL) : ∃ id, i = .call id := by
  cases i with
  | reg i => exact absurd h (regInsn_straight i).2
  | mem i => exact absurd h (memInsn_straight i).2
  | atomic i => exact absurd h (atomicInsn_straight i).2
  | jmp op w dst src off =>
    have hcond := jmp_isCondJump op w src
    rw [show op.opcode w src = .JAL from h] at hcond
    cases hcond
  | call id => exact ⟨id, rfl⟩
  | _ => cases h

theorem call_offset {I : MCInst} {id : Int} {s s' : LState} (hbytes : env.bytesMode = true)
    (hop : I.opcode = .JAL) (hops : I.operands = [.imm id]) (h : (region none (lift env I)).run s = .ok (r, s')) :
    s'.unspecifiedOff = s.unspecifiedOff + 8 * 5 := by
  obtain ⟨hrun, rfl⟩ := region_run h
  rw [lift_helperCall hop hops] at hrun
  let W₀ : World := { World.zero with callee := fun _ _ m => (.int (0 : BitVec 64), m) }
  have hty : ((CallSite.helper env hbytes I id).result (Rt.start W₀ (fun _ => 0) fun _ => 0)).1.HasTy (.int 64) :=
    .int (by decide) _
  obtain ⟨_, _, _, hoff⟩ := doHelperCall_wlp hbytes I id Code.open_fresh hty () s' hrun
  rw [hoff]
  rfl

theorem fills_calls {a b : LState} (hbytes : env.bytesMode = true) (hpl : Placed prog F) (W : World)
    (C : Clobbers) (h : WrittenInsts env a b F.insts) (hn : a.globals.Named env.module)
    (hidle : a.globals.deferredGlobs = []) : Fills a.unspecifiedOff b.unspecifiedOff fun k =>
      ∀ y ∈ F.insts, ∀ u, y.inst.place = some u →
        y.WrittenAt env b.globals (y.Reads { W with unspec := k } (C u)) := by
  refine fills_written (Q := fun u y k off => y.Reads { W with unspec := k } (C u) off) h hn hidle ?_
  intro y hy u hu names succs s s' _ hcode
  by_cases hop : y.inst.opcode = .JAL
  · obtain ⟨i, l, _, hi, hops⟩ := hpl.inst y hy u hu
    obtain ⟨id, rfl⟩ := eq_call (hi.symm.trans hop)
    have hsize : s'.unspecifiedOff = s.unspecifiedOff + 8 * 5 := by
      refine call_offset ?_ hop hops hcode
      exact hbytes
    have hrow := Fills.row (R := fun j k => C u (argReg j) =
        ({ W with unspec := k } : World).junk (s.unspecifiedOff + 8 * j) 64) 5 fun j _ =>
      (fills_junk (w := 64) (a := s.unspecifiedOff + 8 * j) W (C u (argReg j))).mono fun k hk => hk.symm
    exact (hrow.widen (Nat.le_refl _) hsize.ge).mono fun k hk _ => hk
  · exact .of_true fun k hJ => absurd hJ hop

/-- **Any run.** Every registers at the first instruction and behind the calls are those of some unspecified
state. -/
theorem exists_unspec (hbytes : env.bytesMode = true) (hwr : Written env G F) (hpl : Placed prog F)
    (hty : env.ArgsTyped W) (hregs : EntryRegs env W regs) (C : Clobbers) :
    ∃ u, Realises env G F { W with unspec := u } regs C := by
  obtain ⟨s₁, s₂, hinit, hinsts, rfl⟩ := hwr.init
  obtain ⟨hoff, _⟩ := init_region hty hinit (fun _ => 0) fun _ => 0
  obtain ⟨hn, hidle⟩ := platformInit_start hinit
  have hcalls := fills_calls hbytes hpl W C hinsts hn hidle
  have hfills := (fills_initRegs hty hregs).and (hoff ▸ hcalls) (Nat.zero_le _) (hoff ▸ hinsts.le)
  obtain ⟨u, hinit, hcalls⟩ := hfills.exists
  exact ⟨u, hinit, hcalls⟩

/-! ## The regions of a byte program -/

theorem matched_region (hpl : Placed prog F) (hreal : Realises env G F W regs C) (hbytes : env.bytesMode = true)
    (hW : W.Hosts H) {k : Int} (hp : (bpfMachine prog H C).Matched (F.flow unitObs) k p) :
    ∃ r, F.region? p = some r ∧ exits r = r.term.toList ∧
      r.Executes env W HelperCall.lifted ((bpfMachine prog H C).act k) ((bpfMachine prog H C).test k) := by
  obtain ⟨hev, hne⟩ := hp
  have hk : ¬k < 0 := fun hk => hne (if_pos hk)
  have hi : ∃ i, prog k.toNat = some i := by
    cases hi : prog k.toNat with
    | some i => exact ⟨i, rfl⟩
    | none => exact absurd (by simp only [bpfMachine, if_neg hk, hi]) hne
  obtain ⟨i, hi⟩ := hi
  have hact : (bpfMachine prog H C).act k = i.exec (H.call (C k.toNat)) := by
    funext m
    simp only [bpfMachine, hi]
  have htest : (bpfMachine prog H C).test k = fun m => i.taken m.regs := by
    funext m
    simp only [bpfMachine, hi, Option.any_some]
  have hev' : (F.flow unitObs).event p = some (k.toNat, i.opcode) := by
    rw [hev]
    simp only [bpfMachine, hi, Option.map_some]
  obtain ⟨y, hmem, hr, hplace, hobs⟩ := inst_of_event hev'
  obtain ⟨u, hu⟩ := Option.isSome_iff_exists.mp hplace
  obtain rfl : u = k.toNat := by
    have h := congrArg Prod.fst hobs
    simpa [unitObs, hu] using h
  obtain ⟨i', l, hi', hop, hops⟩ := hpl.inst y hmem _ hu
  obtain rfl : i = i' := Option.some.inj (hi.symm.trans hi')
  obtain ⟨names, succs, s, s', _, _, hcode, hc⟩ := hreal.calls y hmem _ hu
  refine ⟨y.code, hr, exits_lift hcode, ?_⟩
  rw [hact, htest]
  have hexec : y.code.Executes { env with bbNames := names, succs := succs } W HelperCall.lifted
      (i.exec (H.call (C k.toNat))) fun m => i.taken m.regs := by
    by_cases hcall : i.opcode = .JAL
    · obtain ⟨id, rfl⟩ := eq_call hcall
      have hid : y.inst.operands = [.imm id.toInt] := hops
      rw [lift_helperCall (hop.trans hcall) hid] at hcode
      refine executes_call ?_ hW hcode (hc (hop.trans hcall))
      exact hbytes
    · exact insn_region hop hops hcall hcode
  exact hexec

/-- **Runs.** In the world `W`, the lifted function halts exactly as the machine does that starts with the
registers `regs` and finds `C` behind the calls, as long as the machine stays inside of the program. -/
def RunsAs (env : Env) (F : LFunction) (W : World) (prog : Nat → Option Insn) (H : Helpers) (regs : Regs)
    (C : Clobbers) : Prop :=
  ∀ regs₀ mem, (bpfMachine prog H C).Safe (bpfStart regs mem) → ∀ y, y ∈ eval F.step (fnStart W regs₀ mem) ↔
    ∃ o, .halted o ∈ eval (bpfMachine prog H C).step (bpfStart regs mem) ∧ env.halted HelperCall.lifted o = y

/-- The control flow of the machine in the lifted function, from its first block on. -/
theorem runBytes_placed (hdis : DisassemblerSpec dis) (hF : runBytes env dis bytes = .ok F)
    (hprog : Disassembles dis bytes prog) : ∃ BBs, Shaped BBs ∧ Wired BBs F ∧ Placed prog F ∧
      ∀ H C, ∃ R, Flow.Sim (bpfMachine prog H C).toFlow (F.flow unitObs) R ∧ R 0 (.block 0 0) := by
  obtain ⟨insns, leaders, ds, MF, hinsns, hall, hchain, hinv, hw⟩ := runBytes_wired hdis hF
  have hs := bytes_shaped hchain hinv
  have hlab := labelled_chain hdis hinsns hall
  refine ⟨_, hs, hw, placed_of_filled hchain hinv hw hlab hprog, fun H C => ⟨_, wired_sim hs hw
    (machine_follows hchain hinv hdis hprog H C), Or.inr ⟨_, ⟨.refl, 0, ds, rfl, hchain, rfl⟩, ?_⟩⟩⟩
  have hstart := stands_init hchain hinv
  exact ⟨_, here_start hs hs.entry, (restAt_eq hs.entry).symm.trans hstart.symm⟩

theorem Realises.runs (hdis : DisassemblerSpec dis) (hF : runBytes env dis bytes = .ok F)
    (hprog : Disassembles dis bytes prog) (hW : W.Hosts H) (hargs : env.ArgsTyped W)
    (hreal : Realises { env with bytesMode := true } G F W regs C) : RunsAs env F W prog H regs C := by
  intro regs₀ mem hsafe y
  obtain ⟨G, hwr⟩ := runBytes_written hdis hF
  have hargs' : Env.ArgsTyped { env with bytesMode := true } W := hargs
  obtain ⟨BBs, hs, hw, hpl, hflow⟩ := runBytes_placed hdis hF hprog
  obtain ⟨R, hsim, hR⟩ := hflow H C
  have hperf := performs hwr hs hw (fun k p => matched_region hpl hreal rfl hW (k := k) (p := p)) fun _ _ => rfl
  exact eval_performed hwr hargs' hreal.init hperf hsim hR regs₀ mem hsafe y

/-- **Lifted programs run as the BPF machine.** Whatever the arguments and the unspecified state are, the
lifted function halts exactly as the machine does from some registers that the program may be entered
with. -/
theorem program_runs (env : Env) (dis : Disassembler) (bytes : List (BitVec 8)) (prog : Nat → Option Insn)
    (hdis : DisassemblerSpec dis) (hprog : Disassembles dis bytes prog) (F : LFunction)
    (hF : runBytes env dis bytes = .ok F) (H : Helpers) (W : World) (hW : W.Hosts H) (hargs : env.ArgsTyped W) :
    ∃ regs C, EntryRegs env W regs ∧ RunsAs env F W prog H regs C := by
  obtain ⟨G, hwr⟩ := runBytes_written hdis hF
  obtain ⟨_, _, _, hpl, _⟩ := runBytes_placed hdis hF hprog
  obtain ⟨C, hC⟩ := exists_clobbers hwr hpl W
  obtain ⟨s₁, _, hinit, _⟩ := hwr.init
  have hargs' : Env.ArgsTyped { env with bytesMode := true } W := hargs
  obtain ⟨_, _, rt, _, _, _, _, _, _, hregs⟩ := init_region hargs' hinit (fun _ => 0) fun _ => 0
  exact ⟨rt.regs, C, ⟨hregs.entry.frame, hregs.entry.args⟩, Realises.runs hdis hF hprog hW hargs ⟨hregs, hC⟩⟩

/-- **Nothing is left out.** The program entered with any registers, finding any registers behind its calls,
is the lifted function for some unspecified state. -/
theorem every_run_lifted (env : Env) (dis : Disassembler) (bytes : List (BitVec 8)) (prog : Nat → Option Insn)
    (hdis : DisassemblerSpec dis) (hprog : Disassembles dis bytes prog) (F : LFunction)
    (hF : runBytes env dis bytes = .ok F) (H : Helpers) (W : World) (hW : W.Hosts H) (hargs : env.ArgsTyped W)
    (regs : Regs) (hregs : EntryRegs env W regs) (C : Clobbers) :
    ∃ u, RunsAs env F { W with unspec := u } prog H regs C := by
  obtain ⟨G, hwr⟩ := runBytes_written hdis hF
  obtain ⟨_, _, _, hpl, _⟩ := runBytes_placed hdis hF hprog
  have hargs' : Env.ArgsTyped { env with bytesMode := true } W := hargs
  obtain ⟨u, hreal⟩ := exists_unspec (by rfl) hwr hpl hargs' ⟨hregs.frame, hregs.args⟩ C
  exact ⟨u, Realises.runs hdis hF hprog hW hargs hreal⟩

/-! ## A call -/

/-- `call 5; exit`. -/
def callExit : List (BitVec 8) := [0x85, 0, 0, 0, 5, 0, 0, 0, 0x95, 0, 0, 0, 0, 0, 0, 0]

def callExitProg : Nat → Option Insn
  | 0 => some (.call 5)
  | 1 => some .exit
  | _ => none

def callExitEnv : Env := { srcRetTy := .int 64, module := ⟨"call", ⟨.int 64, []⟩, [], [], []⟩ }

/-- Every helper returns five. -/
def fiveHelpers : Helpers := fun _ _ mem => (5, mem)

def fiveWorld : World := { World.zero with callee := fun _ _ mem => (.int (5 : BitVec 64), mem) }

theorem fiveWorld_hosts : fiveWorld.Hosts fiveHelpers := fun _ _ _ => rfl

theorem callExit_boundary (h : Boundary callDisassembler callExit u) : u = 0 ∨ u = 1 ∨ u = 2 := by
  have hsize : ∀ x, callDisassembler (unitBytes callExit 0) = some x ∨
      callDisassembler (unitBytes callExit 1) = some x → x.size = 8 := by
    rintro x (h | h) <;> cases h <;> rfl
  induction h with
  | start => exact Or.inl rfl
  | @next u x _ hx ih =>
    obtain rfl | rfl | rfl := ih
    · rw [hsize x (Or.inl hx)]
      exact Or.inr (Or.inl rfl)
    · rw [hsize x (Or.inr hx)]
      exact Or.inr (Or.inr rfl)
    · cases hx

theorem callExit_disassembles : Disassembles callDisassembler callExit callExitProg := by
  intro u hu
  obtain rfl | rfl | rfl := callExit_boundary hu
  · exact .some ⟨rfl, rfl, [.imm32 5], ⟨rfl, .cons (Or.inl rfl) .nil⟩, rfl⟩
  · exact .some ⟨rfl, rfl, [], ⟨rfl, .nil⟩, rfl⟩
  · exact .none

theorem callExit_halts (H : Helpers) (C : Clobbers) (regs : Regs) (mem : Mem) :
    .halted (.returned (H 5 (argRegs regs) mem).1 (H 5 (argRegs regs) mem).2 [(5, argRegs regs)]) ∈
      eval (bpfMachine callExitProg H C).step (bpfStart regs mem) :=
  mem_eval.mpr ⟨.tail (.single rfl) rfl, rfl⟩

theorem callExit_lifted : ∃ F, runBytes callExitEnv callDisassembler callExit = .ok F :=
  ok_of_isSome (by decide +kernel)

theorem RunsAs.callExit {F : LFunction} (h : RunsAs callExitEnv F W callExitProg fiveHelpers regs C)
    (regs₀ : Fin 12 → BitVec 64) (mem : Mem) : .halted (.returned (some (.int (5 : BitVec 64))) mem
      [(helperName 5, (argRegs regs).map .int)]) ∈ eval F.step (fnStart W regs₀ mem) :=
  (h regs₀ mem (Machine.safe_of_halts (callExit_halts fiveHelpers C regs mem)) _).mpr
    ⟨_, callExit_halts fiveHelpers C regs mem, rfl⟩

/-- The lifted function returns what the helper does. -/
theorem program_runs_call : ∃ F, runBytes callExitEnv callDisassembler callExit = .ok F ∧ ∀ regs₀ mem, ∃ args,
    .halted (.returned (some (.int (5 : BitVec 64))) mem [(helperName 5, args)]) ∈
      eval F.step (fnStart fiveWorld regs₀ mem) := by
  obtain ⟨F, hF⟩ := callExit_lifted
  obtain ⟨regs, C, _, hruns⟩ := program_runs _ _ _ _ callDisassembler_spec callExit_disassembles F hF fiveHelpers
    fiveWorld fiveWorld_hosts nofun
  exact ⟨F, hF, fun regs₀ mem => ⟨_, hruns.callExit regs₀ mem⟩⟩

/-- The helper may be called with any number in `r1`. -/
theorem every_run_lifted_call : ∃ F, runBytes callExitEnv callDisassembler callExit = .ok F ∧
    ∀ x : BitVec 64, ∃ u, ∀ regs₀ mem, .halted (.returned (some (.int (5 : BitVec 64))) mem
      [(helperName 5, [.int x, .int (0 : BitVec 64), .int (0 : BitVec 64), .int (0 : BitVec 64),
        .int (0 : BitVec 64)])]) ∈ eval F.step (fnStart { fiveWorld with unspec := u } regs₀ mem) := by
  obtain ⟨F, hF⟩ := callExit_lifted
  refine ⟨F, hF, fun x => ?_⟩
  let regs : Regs := fun r => if r = 1 then x else if r = 10 then BitVec.ofNat 64 stackBytes else 0
  have hregs : EntryRegs callExitEnv fiveWorld regs := ⟨rfl, nofun⟩
  obtain ⟨u, hruns⟩ := every_run_lifted _ _ _ _ callDisassembler_spec callExit_disassembles F hF fiveHelpers
    fiveWorld fiveWorld_hosts nofun regs hregs fun _ _ => 0
  exact ⟨u, hruns.callExit⟩

end BpfTv
