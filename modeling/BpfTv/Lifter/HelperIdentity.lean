import BpfTv.Lifter.CalleeAgreement
import BpfTv.Lifter.RunOff
import Mathlib.Tactic.IntervalCases

/-!
# Helpers of a lifted byte program

The called function of a call is given by its source-register field and its immediate. `runBytes`
refuses source field 1 and lifts every other call to the external function that is named after the
immediate alone (`calleesAt_call`). So two calls go to the same function exactly when they should as
long as calls with one immediate have one source field (`helper_identity`).
-/

namespace BpfTv

variable {dis : Disassembler} {bytes : List (BitVec 8)} {x : Disassembled} {u : Nat} {env : Env}
  {s s' : LState} {I : MCInst} {F : LFunction}

/-! ## The calls of a program -/

/-- The instructions of a program, from the first one on. -/
inductive Boundary (dis : Disassembler) (bytes : List (BitVec 8)) : Nat → Prop
  | start : Boundary dis bytes 0
  | next {u : Nat} {x : Disassembled} :
      Boundary dis bytes u → dis (unitBytes bytes u) = some x → Boundary dis bytes (u + x.size / 8)

/-- There is a call at unit `u`. -/
def CallAt (dis : Disassembler) (bytes : List (BitVec 8)) (u : Nat) : Prop :=
  Boundary dis bytes u ∧ ∃ x, dis (unitBytes bytes u) = some x ∧ x.opcode = .JAL

/-- The 32-bit immediate. -/
def immField (bs : List (BitVec 8)) : BitVec 32 := BitVec.ofNat 32 (field bs 4 4)

/-- The function that the call at unit `u` calls. -/
def calledFunction (bytes : List (BitVec 8)) (u : Nat) : BitVec 4 × BitVec 32 :=
  (srcField (unitBytes bytes u), immField (unitBytes bytes u))

/-- What the lifter relies on: the disassembled call carries only the immediate. -/
def CallSpec (dis : Disassembler) : Prop :=
  ∀ bs x, dis bs = some x → x.opcode = .JAL →
    ∃ v : Int, x.operands = [.imm v] ∧ BitVec.ofInt 32 v = immField bs

/-! ## The lifted calls -/

/-- The function that a written call calls. -/
def Op.callee? : Op → Option String
  | .call name _ _ _ _ => some name
  | _ => none

def Region.callees (r : Region) : List String := r.instrs.filterMap (·.op.callee?)

/-- The lifted instructions. -/
def LFunction.insts (F : LFunction) : List LInst := F.blocks.flatMap (·.body)

/-- The functions that are called by what has been lifted from the instruction at unit `u`. -/
def LFunction.calleesAt (F : LFunction) (u : Nat) : List String :=
  (F.insts.filter fun x => x.inst.place = some u).flatMap fun x => Region.callees x.code

/-- Every call of the program is one of a helper, and is lifted to one call; two of them go to the same
function if and only if the program's do. -/
structure HelperIdentity (dis : Disassembler) (bytes : List (BitVec 8)) (F : LFunction) : Prop where
  represented : ∀ u, CallAt dis bytes u → srcField (unitBytes bytes u) = 0 ∨ srcField (unitBytes bytes u) = 2
  same : ∀ u v, CallAt dis bytes u → CallAt dis bytes v → ∃ f g, F.calleesAt u = [f] ∧ F.calleesAt v = [g] ∧
    (f = g ↔ calledFunction bytes u = calledFunction bytes v)

/-! ## Writing a helper call -/

/-- No call has been written. -/
def NoCall (s s' : LState) : Prop := (Region.callees s'.code).Perm (Region.callees s.code)

theorem callee_of_plain {op : Op} (h : op.plain = true) : op.callee? = none := by
  cases op with
  | call => cases h
  | _ => rfl

theorem noCall_moves : Moves NoCall where
  refl _ := .refl _
  trans _ _ _ h h' := h'.trans h
  push s op hop hopen := by
    have hp := collect_push Op.callee? hopen ⟨s.next, op⟩
    rwa [callee_of_plain hop, Option.toList_none, List.append_nil] at hp
  pushUnspec s w _ hopen := by
    have hp := collect_push Op.callee? hopen ⟨s.next, .load (.int w) (.unspec s.unspecifiedOff)⟩
    rwa [show Op.callee? (.load (.int w) (.unspec s.unspecifiedOff)) = none from rfl, Option.toList_none,
      List.append_nil] at hp
  close s t _ := by
    show (Region.callees (s.code.close t)).Perm _
    rw [Region.callees, instrs_close]
    exact .refl _
  newBlock s := by
    show (Region.callees s.code.newBlock).Perm _
    simp [Region.callees, Emit.Code.instrs, Emit.Code.newBlock]
  setBlock _ _ := .refl _

theorem noCall_blockwise : Blockwise NoCall .univ := noCall_moves.blockwise fun _ _ => .refl _

theorem callees_doHelperCall {id : Int} (hbytes : env.bytesMode = true)
    (h : (doHelperCall env I id).run s = .ok ((), s')) :
    0 ≤ id ∧ (Region.callees s'.code).Perm (Region.callees s.code ++ [helperName id]) := by
  have hR := noCall_blockwise.compat.toEmits
  obtain ⟨_, s₁, hexit, h⟩ := run_bind_ok h
  obtain ⟨hcode₁, hid⟩ := hR.exitIf s () s₁ hexit
  rw [if_pos hbytes] at h
  obtain ⟨a1, s₂, hread, h⟩ := run_bind_ok h
  have hcode₂ := (sat_readReg64 hR s₁ a1 s₂ hread).1
  obtain ⟨a2, s₃, hread, h⟩ := run_bind_ok h
  have hcode₃ := (sat_readReg64 hR s₂ a2 s₃ hread).1
  obtain ⟨a3, s₄, hread, h⟩ := run_bind_ok h
  have hcode₄ := (sat_readReg64 hR s₃ a3 s₄ hread).1
  obtain ⟨a4, s₅, hread, h⟩ := run_bind_ok h
  have hcode₅ := (sat_readReg64 hR s₄ a4 s₅ hread).1
  obtain ⟨a5, s₆, hread, h⟩ := run_bind_ok h
  have hcode₆ := (sat_readReg64 hR s₅ a5 s₆ hread).1
  obtain ⟨CI, s₇, hemit, h⟩ := run_bind_ok h
  have hcall : (Region.callees s₇.code).Perm (Region.callees s₆.code ++ [helperName id]) := by
    simp only [StateT.run, emit] at hemit
    split at hemit
    · rename_i hopen
      cases hemit
      exact collect_push Op.callee? hopen _
    · cases hemit
  have hrest : NoCall s₇ s' := (hR.bind (sat_forM hR (fun _ => sat_invalidateReg hR) callerSaved)
    (fun _ _ => sat_updateReg64 hR) s₇ () s' h).1
  have hreads : NoCall s s₆ := ((((hcode₆.trans hcode₅).trans hcode₄).trans hcode₃).trans hcode₂).trans hcode₁
  exact ⟨Int.not_lt.mp hid, hrest.trans (hcall.trans (hreads.append_right _))⟩

theorem callees_region {id : Int} {prev : Option Term} {r : Region} (hbytes : env.bytesMode = true)
    (hI : I.opcode = .JAL) (hop : I.operands = [.imm id])
    (h : (region prev (lift env I)).run s = .ok (r, s')) : 0 ≤ id ∧ Region.callees r = [helperName id] := by
  obtain ⟨hlift, rfl⟩ := region_run h
  have hjal : lift env I = jal env I := by
    unfold lift
    rw [hI]
  rw [hjal] at hlift
  obtain ⟨op, s₁, hread, hlift⟩ := run_bind_ok hlift
  obtain ⟨hget, rfl⟩ := liftExcept_run hread
  obtain rfl : op = .imm id := by
    rw [getOperand_ok, hop] at hget
    exact (Option.some.inj hget).symm
  obtain ⟨hid, hp⟩ := callees_doHelperCall hbytes hlift
  exact ⟨hid, List.perm_singleton.mp hp⟩

theorem helperName_inj {i j : Int} (hi : 0 ≤ i) (hj : 0 ≤ j) (h : helperName i = helperName j) : i = j := by
  obtain ⟨m, rfl⟩ := Int.eq_ofNat_of_zero_le hi
  obtain ⟨n, rfl⟩ := Int.eq_ofNat_of_zero_le hj
  have hl := congrArg String.toList h
  simp only [helperName, String.toList_append, List.append_cancel_left_eq] at hl
  exact congrArg Int.ofNat (toString_inj (String.toList_inj.mp hl))

/-! ## From the program to the lifted instructions -/

section boundary

variable {P : List (BitVec 8) → Disassembled → DecodedInsn → Prop} {ds : List DecodedInsn}

theorem Chain.boundary (h : Chain dis bytes P 0 ds) (hb : Boundary dis bytes u) :
    ∃ rest, Chain dis bytes P u rest ∧ rest <:+ ds := by
  induction hb with
  | start => exact ⟨ds, h, List.suffix_refl ds⟩
  | @next u x _ hx ih =>
    obtain ⟨rest, hrest, hsuff⟩ := ih
    cases hrest with
    | nil hnone =>
      rw [hx] at hnone
      cases hnone
    | @cons _ y d rest hy _ hunits _ _ hrest =>
      rw [hx] at hy
      cases hy
      exact ⟨rest, hunits ▸ hrest, (List.suffix_cons d rest).trans hsuff⟩

theorem Chain.at_boundary (h : Chain dis bytes P 0 ds) (hb : Boundary dis bytes u)
    (hx : dis (unitBytes bytes u) = some x) : ∃ d ∈ ds, d.unit = u ∧ P (unitBytes bytes u) x d := by
  obtain ⟨rest, hrest, hsuff⟩ := h.boundary hb
  cases hrest with
  | nil hnone =>
    rw [hx] at hnone
    cases hnone
  | @cons _ y d rest hy hunit _ _ hd _ =>
    rw [hx] at hy
    cases hy
    exact ⟨d, hsuff.mem List.mem_cons_self, hunit, hd⟩

theorem Chain.filter_unit (h : Chain dis bytes P u ds) {d : DecodedInsn} (hd : d ∈ ds) :
    ds.filter (fun e => e.unit = d.unit) = [d] := by
  induction h with
  | nil _ => cases hd
  | @cons u x e ds _ hunit _ hpos _ hrest ih =>
    have hlater := hrest.le_unit
    rcases List.mem_cons.mp hd with rfl | hd
    · have hnone : ds.filter (fun e => e.unit = d.unit) = [] := by
        refine List.filter_eq_nil_iff.mpr fun e he => ?_
        have hle := hlater e he
        simp only [decide_eq_true_eq]
        omega
      rw [List.filter_cons_of_pos (by simp), hnone]
    · have hle := hlater d hd
      rw [List.filter_cons_of_neg (by simp only [decide_eq_true_eq]; omega), ih hd]

end boundary

/-- The decoder comes to every instruction. -/
theorem decode_boundary (hdis : DisassemblerSpec dis) (hb : Boundary dis bytes u)
    {insns : List DecodedInsn} (h : decode dis bytes bytes.length 0 = .ok insns) :
    ∃ fuel rest, decode dis bytes fuel (8 * u) = .ok rest := by
  induction hb with
  | start => exact ⟨_, insns, h⟩
  | next _ hx ih =>
    obtain ⟨fuel, rest, hrest⟩ := ih
    exact (decode_next hdis hx hrest).2

/-- A call carries its immediate, sign-extended. -/
def CallInsn (bs : List (BitVec 8)) (x : Disassembled) (d : DecodedInsn) : Prop :=
  x.opcode = .JAL → d.inst.opcode = .JAL ∧ d.inst.operands = [.imm (immField bs).toInt]

theorem callInsn_extended (hcall : CallSpec dis) {bs : List (BitVec 8)} {d : DecodedInsn}
    (hx : dis bs = some x) (hd : Decoded bs x d) (h : signExtendImms d.inst = .ok I) :
    CallInsn bs x { d with inst := I } := by
  intro hop
  obtain ⟨v, hv, hfield⟩ := hcall bs x hx hop
  obtain ⟨hdop, _, hoperands⟩ := hd
  have hext : signExtendImms d.inst = .ok { d.inst with operands := [.imm (v.bmod (2 ^ 32))] } := by
    obtain ⟨⟨op, ops, loc, place⟩, unit, units⟩ := d
    obtain rfl : op = .JAL := hdop.trans hop
    obtain rfl : ops = [.imm v] := hoperands.trans hv
    rfl
  rw [hext] at h
  cases h
  refine ⟨hdop.trans hop, ?_⟩
  rw [← hfield, BitVec.toInt_ofInt]

theorem callInsn_decodeProgram (hdis : DisassemblerSpec dis) (hcall : CallSpec dis)
    {insns : List DecodedInsn} (h : decodeProgram dis bytes = .ok insns) :
    Chain dis bytes CallInsn 0 insns ∧ ∃ decoded, decode dis bytes bytes.length 0 = .ok decoded := by
  unfold decodeProgram at h
  cases hd : decode dis bytes bytes.length 0 with
  | error e =>
    rw [hd] at h
    cases h
  | ok decoded =>
    simp only [hd, bind, Except.bind] at h
    split at h
    · cases h
    have hall := mapM_except_ok h
    refine ⟨(decode_chain (u := 0) hdis hd).map hall fun bs x d d' hx hd' hdec => ?_, decoded, rfl⟩
    cases hI : signExtendImms d.inst with
    | error e =>
      rw [hI] at hd'
      cases hd'
    | ok I =>
      rw [hI] at hd'
      cases hd'
      exact ⟨rfl, rfl, callInsn_extended hcall hx hdec hI⟩

theorem callInsn_rewritten {bs : List (BitVec 8)} {insns : List DecodedInsn} {d d' : DecodedInsn}
    (hd : CallInsn bs x d) (h : rewriteTarget insns d = .ok d') :
    d'.unit = d.unit ∧ d'.units = d.units ∧ CallInsn bs x d' := by
  unfold rewriteTarget at h
  split at h
  · rename_i hbr
    have hop : x.opcode ≠ .JAL := by
      intro hx
      rw [(hd hx).1] at hbr
      cases hbr
    cases ht : branchTargetUnit d with
    | error e => rw [ht] at h; cases h
    | ok t =>
      simp only [ht, bind, Except.bind] at h
      split at h <;> cases h
      exact ⟨rfl, rfl, fun hx => absurd hx hop⟩
  · cases h
    exact ⟨rfl, rfl, hd⟩

/-! ## The lifted instructions -/

theorem liftInsts_run {Is : List MCInst} {prev last : Option Term} {body : List LInst}
    (h : (liftInsts env Is prev).run s = .ok ((body, last), s')) :
    ∀ y ∈ body, ∃ p t t', (region p (lift env y.inst)).run t = .ok (y.code, t') := by
  induction Is generalizing s prev body with
  | nil =>
    cases h
    exact fun y hy => nomatch hy
  | cons I Is ih =>
    obtain ⟨code, s₁, hcode, h⟩ := run_bind_ok h
    obtain ⟨⟨body', last'⟩, s₂, hrest, h⟩ := run_bind_ok h
    cases h
    exact List.forall_mem_cons.mpr ⟨⟨prev, s, s₁, hcode⟩, ih hrest⟩

theorem lifted_inst {MBBs : List MCBasicBlock} (h : liftMCFunction env MBBs = .ok F) :
    ∀ y ∈ F.insts, ∃ names succs p t t',
      (region p (lift { env with bbNames := names, succs := succs } y.inst)).run t = .ok (y.code, t') := by
  intro y hy
  obtain ⟨B, hB, hyB⟩ := List.mem_flatMap.mp hy
  obtain ⟨_, hblocks⟩ := liftMCFunction_ok h
  obtain ⟨i, hi⟩ := List.getElem?_of_mem hB
  obtain ⟨hlt, rfl⟩ := List.getElem?_eq_some_iff.mp hi
  have hltM : i < MBBs.length := hblocks.length_eq ▸ hlt
  obtain ⟨s, s', hrun⟩ := hblocks.get (i := i) hltM hlt
  obtain ⟨⟨body, last⟩, s₁, hbody, hrun⟩ := run_bind_ok hrun
  obtain ⟨tail, s₂, _, hrun⟩ := run_bind_ok hrun
  have hBbody : F.blocks[i].body = body := congrArg (fun p => p.1.body) (Except.ok.inj hrun).symm
  rw [hBbody] at hyB
  obtain ⟨p, t, t', hcode⟩ := liftInsts_run hbody y hyB
  exact ⟨_, _, p, t, t', hcode⟩

theorem Wired.insts_eq {BBs : List MCBasicBlock} (hw : Wired BBs F) : F.insts.map (·.inst) = flat BBs := by
  have hbody : F.blocks.map (fun B => B.body.map (·.inst)) = BBs.map (·.instrs) := by
    refine List.ext_getElem (by rw [List.length_map, List.length_map, hw.length]) fun i hi hi' => ?_
    rw [List.length_map] at hi hi'
    rw [List.getElem_map, List.getElem_map]
    exact hw.insts i _ _ (List.getElem?_eq_getElem hi') (List.getElem?_eq_getElem hi)
  rw [LFunction.insts, List.map_flatMap, flat, List.flatMap_def, List.flatMap_def, hbody]

theorem runBytes_lifted (hF : runBytes env dis bytes = .ok F) :
    ∃ MBBs, liftMCFunction { env with bytesMode := true } MBBs = .ok F := by
  unfold runBytes at hF
  cases hinsns : decodeProgram dis bytes with
  | error e => rw [hinsns] at hF; cases hF
  | ok insns =>
    cases hBBs : blocksOfInsns insns with
    | error e => simp only [hinsns, hBBs, bind, Except.bind] at hF; cases hF
    | ok BBs =>
      simp only [hinsns, hBBs, bind, Except.bind] at hF
      cases hM : generateSuccessors (checkEntryBlock (removeEmptyBlocks BBs)) with
      | error e => rw [hM] at hF; cases hF
      | ok MBBs =>
        rw [hM] at hF
        exact ⟨MBBs, hF⟩

theorem insts_at {ds : List DecodedInsn} {leaders : List Nat} {MF : MCFunction} {d : DecodedInsn}
    (hchain : Chain dis bytes (Filled (ds.map (·.unit)) leaders) 0 ds) (hinv : FillInv leaders ds MF)
    (hw : Wired (checkEntryBlock (removeEmptyBlocks MF.BBs)) F) (hd : d ∈ ds) :
    ∃ y, (F.insts.filter fun x => x.inst.place = some d.unit) = [y] ∧ y.inst = d.inst := by
  have hkeep := hinv.built.removeEmptyBlocks_eq
  have hinsts : F.insts.map (·.inst) = entryJump :: ds.map (·.inst) := by
    rw [hw.insts_eq, hkeep, ← hinv.flat]
    rfl
  have hplace : ds.filter (fun e => e.inst.place = some d.unit) = [d] := by
    rw [← hchain.filter_unit hd]
    refine List.filter_congr fun e he => ?_
    obtain ⟨_, _, ⟨_, hpl, _⟩, _⟩ := hchain.exists_mem e he
    simp [hpl]
  have hmap : (F.insts.filter fun x => x.inst.place = some d.unit).map (·.inst) = [d.inst] := by
    calc (F.insts.filter fun x => x.inst.place = some d.unit).map (·.inst)
        = (F.insts.map (·.inst)).filter (fun I => I.place = some d.unit) := by
          rw [List.filter_map]
          rfl
      _ = (ds.map (·.inst)).filter (fun I => I.place = some d.unit) := by
          rw [hinsts, List.filter_cons_of_neg (by simp [entryJump])]
      _ = (ds.filter fun e => e.inst.place = some d.unit).map (·.inst) := by
          rw [List.filter_map]
          rfl
      _ = [d.inst] := by rw [hplace, List.map_singleton]
  obtain ⟨y, hy, hinst⟩ := List.map_eq_singleton_iff.mp hmap
  exact ⟨y, hy, hinst⟩

/-- What is called at a call of the program. -/
theorem calleesAt_call (hdis : DisassemblerSpec dis) (hcall : CallSpec dis) (hF : runBytes env dis bytes = .ok F)
    (hu : CallAt dis bytes u) : srcField (unitBytes bytes u) ≠ 1 ∧
      0 ≤ (immField (unitBytes bytes u)).toInt ∧
      F.calleesAt u = [helperName (immField (unitBytes bytes u)).toInt] := by
  obtain ⟨hb, x, hx, hop⟩ := hu
  obtain ⟨insns, leaders, ds, MF, hinsns, hall, hchain, hinv, hw⟩ := runBytes_wired hdis hF
  obtain ⟨hcalls, decoded, hdec⟩ := callInsn_decodeProgram hdis hcall hinsns
  have hcalls' : Chain dis bytes CallInsn 0 ds :=
    hcalls.map hall fun bs y d d' _ hd hi => callInsn_rewritten hi hd
  obtain ⟨fuel, rest, hrest⟩ := decode_boundary hdis hb hdec
  refine ⟨(decode_next hdis hx hrest).1 hop, ?_⟩
  obtain ⟨d, hd, hunit, hinst⟩ := hcalls'.at_boundary hb hx
  obtain ⟨hdop, hdoperands⟩ := hinst hop
  obtain ⟨y, hy, hyinst⟩ := insts_at hchain hinv hw hd
  obtain ⟨MBBs, hlift⟩ := runBytes_lifted hF
  have hmem : y ∈ F.insts := List.mem_of_mem_filter (hy ▸ List.mem_singleton_self y)
  obtain ⟨_, _, p, t, t', hcode⟩ := lifted_inst hlift y hmem
  obtain ⟨hid, hcallees⟩ := callees_region rfl (hyinst ▸ hdop) (hyinst ▸ hdoperands) hcode
  refine ⟨hid, ?_⟩
  rw [hunit] at hy
  rw [LFunction.calleesAt, hy, List.flatMap_singleton, hcallees]

/-- **Helper identity.** The calls of a lifted program go to the functions they should if and only if no
source field is a reserved one and calls with one immediate have one source field. -/
theorem helper_identity (env : Env) (dis : Disassembler) (bytes : List (BitVec 8)) (hdis : DisassemblerSpec dis)
    (hcall : CallSpec dis) (F : LFunction) (hF : runBytes env dis bytes = .ok F) :
    HelperIdentity dis bytes F ↔
      (∀ u, CallAt dis bytes u → srcField (unitBytes bytes u) ≤ 2) ∧
        ∀ u v, CallAt dis bytes u → CallAt dis bytes v →
          immField (unitBytes bytes u) = immField (unitBytes bytes v) →
          srcField (unitBytes bytes u) = srcField (unitBytes bytes v) := by
  have hvalid : ∀ b : BitVec 4, b ≠ 1 → (b = 0 ∨ b = 2 ↔ b ≤ 2) := by decide
  constructor
  · intro h
    refine ⟨fun u hu => ?_, fun u v hu hv himm => ?_⟩
    · have hlocal := (calleesAt_call hdis hcall hF hu).1
      exact (hvalid _ hlocal).mp (h.represented u hu)
    · obtain ⟨f, g, hf, hg, hiff⟩ := h.same u v hu hv
      rw [(calleesAt_call hdis hcall hF hu).2.2, List.singleton_inj] at hf
      rw [(calleesAt_call hdis hcall hF hv).2.2, List.singleton_inj, ← himm, hf] at hg
      exact congrArg Prod.fst (hiff.mp hg)
  · rintro ⟨hsrc, himm⟩
    refine ⟨fun u hu => ?_, fun u v hu hv => ?_⟩
    · have hlocal := (calleesAt_call hdis hcall hF hu).1
      exact (hvalid _ hlocal).mpr (hsrc u hu)
    · obtain ⟨_, hu0, hfu⟩ := calleesAt_call hdis hcall hF hu
      obtain ⟨_, hv0, hfv⟩ := calleesAt_call hdis hcall hF hv
      refine ⟨_, _, hfu, hfv, fun heq => ?_, fun heq => ?_⟩
      · have hvalue := BitVec.eq_of_toInt_eq (helperName_inj hu0 hv0 heq)
        exact Prod.ext (himm u v hu hv hvalue) hvalue
      · rw [show immField (unitBytes bytes u) = immField (unitBytes bytes v) from congrArg Prod.snd heq]

/-! ## Two calls -/

/-- The instructions of the programs below, as LLVM disassembles them. -/
def callDisassembler : Disassembler := fun bs =>
  if bs.length < 8 then
    none
  else if bs.head? = some 0x85 then
    some ⟨.JAL, [.imm (field bs 4 4)], 8⟩
  else if bs.head? = some 0x95 then
    some ⟨.RET, [], 8⟩
  else
    none

theorem callDisassembler_spec : DisassemblerSpec callDisassembler where
  size bs d h := by
    unfold callDisassembler at h
    split at h
    · cases h
    rename_i hlen
    split at h
    · cases h
      exact ⟨Or.inl rfl, Nat.not_lt.mp hlen⟩
    split at h <;> cases h
    exact ⟨Or.inl rfl, Nat.not_lt.mp hlen⟩
  branch bs d h hbr := by
    unfold callDisassembler at h
    split at h
    · cases h
    split at h
    · cases h
      cases hbr
    split at h <;> cases h
    cases hbr

theorem callDisassembler_call : CallSpec callDisassembler := by
  intro bs x h hop
  unfold callDisassembler at h
  split at h
  · cases h
  split at h
  · cases h
    exact ⟨field bs 4 4, rfl, BitVec.ofInt_natCast ..⟩
  split at h <;> cases h
  cases hop

/-- A helper by static ID, one by BTF ID, and `exit`. -/
def twoCalls (id btf : BitVec 8) : List (BitVec 8) :=
  [0x85, 0, 0, 0, id, 0, 0, 0, 0x85, 0x20, 0, 0, btf, 0, 0, 0, 0x95, 0, 0, 0, 0, 0, 0, 0]

theorem twoCalls_first (id btf : BitVec 8) : CallAt callDisassembler (twoCalls id btf) 0 :=
  ⟨.start, _, rfl, rfl⟩

theorem twoCalls_second (id btf : BitVec 8) : CallAt callDisassembler (twoCalls id btf) 1 := by
  have hfirst : callDisassembler (unitBytes (twoCalls id btf) 0) =
      some ⟨.JAL, [.imm (field (unitBytes (twoCalls id btf) 0) 4 4)], 8⟩ := rfl
  have hnext : Boundary callDisassembler (twoCalls id btf) (0 + 8 / 8) := .next .start hfirst
  exact ⟨hnext, _, rfl, rfl⟩

theorem twoCalls_callAt {id btf : BitVec 8} (h : CallAt callDisassembler (twoCalls id btf) u) :
    u = 0 ∨ u = 1 := by
  have hsize : ∀ bs y, callDisassembler bs = some y → y.size = 8 := by
    intro bs y hy
    unfold callDisassembler at hy
    split at hy
    · cases hy
    split at hy
    · cases hy
      rfl
    split at hy <;> cases hy
    rfl
  obtain ⟨hb, x, hx, hop⟩ := h
  have hle := (callDisassembler_spec.size _ _ hx)
  rw [hsize _ _ hx, unitBytes, List.length_drop] at hle
  have hlen : (twoCalls id btf).length = 24 := rfl
  have hu : u ≤ 2 := by omega
  have hexit : callDisassembler (unitBytes (twoCalls id btf) 2) = some ⟨.RET, [], 8⟩ := rfl
  interval_cases u
  · exact Or.inl rfl
  · exact Or.inr rfl
  · rw [hexit] at hx
    cases hx
    cases hop

def helperEnv : Env := { module := ⟨"helpers", ⟨.void, []⟩, [], [], []⟩ }

theorem helper_identity_two : ∃ F, runBytes helperEnv callDisassembler (twoCalls 1 2) = .ok F ∧
    HelperIdentity callDisassembler (twoCalls 1 2) F := by
  obtain ⟨F, hF⟩ := ok_of_isSome (x := runBytes helperEnv callDisassembler (twoCalls 1 2)) (by decide +kernel)
  refine ⟨F, hF, (helper_identity _ _ _ callDisassembler_spec callDisassembler_call F hF).mpr ⟨fun u hu => ?_,
    fun u v hu hv himm => ?_⟩⟩
  · rcases twoCalls_callAt hu with rfl | rfl <;> decide +kernel
  · have hne : immField (unitBytes (twoCalls 1 2) 0) ≠ immField (unitBytes (twoCalls 1 2) 1) := by decide +kernel
    rcases twoCalls_callAt hu with rfl | rfl <;> rcases twoCalls_callAt hv with rfl | rfl
    · rfl
    · exact absurd himm hne
    · exact absurd himm.symm hne
    · rfl

/-- With one number both calls go to one function. -/
theorem helper_identity_fails : ∃ F, runBytes helperEnv callDisassembler (twoCalls 1 1) = .ok F ∧
    CallAt callDisassembler (twoCalls 1 1) 0 ∧ CallAt callDisassembler (twoCalls 1 1) 1 ∧
    calledFunction (twoCalls 1 1) 0 ≠ calledFunction (twoCalls 1 1) 1 ∧
    F.calleesAt 0 = ["__bpf_helper_1"] ∧ F.calleesAt 1 = ["__bpf_helper_1"] := by
  obtain ⟨F, hF⟩ := ok_of_isSome (x := runBytes helperEnv callDisassembler (twoCalls 1 1)) (by decide +kernel)
  have hcallees := fun u (hu : CallAt callDisassembler (twoCalls 1 1) u) =>
    (calleesAt_call callDisassembler_spec callDisassembler_call hF hu).2.2
  refine ⟨F, hF, twoCalls_first 1 1, twoCalls_second 1 1, by decide +kernel, ?_, ?_⟩
  · rw [hcallees 0 (twoCalls_first 1 1)]
    decide +kernel
  · rw [hcallees 1 (twoCalls_second 1 1)]
    decide +kernel

end BpfTv
