import BpfTv.Bpf.Machine
import BpfTv.Lifter.HelperIdentity
import BpfTv.Lifter.Immediates

/-!
# The instructions of a byte program

`Disassembles` says which program of the BPF machine the bytes are. What `runBytes` puts into the blocks
is that program, with labels in place of offsets (`Labelled`), and the machine walks along the blocks
(`machine_follows`).
-/

namespace BpfTv

open Control

/-! ## Operands -/

/-- The operands in assembly; a branch has its offset. -/
def Insn.operands : Insn → List MCOperand
  | reg i => i.mc.operands
  | mem i => i.mc.operands
  | atomic i => i.mc.operands
  | jmp _ w dst src off => [.reg (w.reg dst), src.operand w, .imm off.toInt]
  | ja off => [.imm off.toInt]
  | gotol off => [.imm off.toInt]
  | call id => [.imm id.toInt]
  | exit | nop => []

/-- The operands when the target of a branch has the label `l`. -/
def Insn.labelled (l : String) : Insn → List MCOperand
  | jmp _ w dst src _ => [.reg (w.reg dst), src.operand w, .expr (.symbolRef l)]
  | ja _ | gotol _ => [.expr (.symbolRef l)]
  | i => i.operands

/-- The disassembler reads `x` where the instruction `i` is encoded. -/
structure Insn.Reads (i : Insn) (x : Disassembled) : Prop where
  opcode : x.opcode = i.opcode
  size : x.size = 8 * i.units
  fields : ∃ fs, Encodes { opcode := x.opcode, operands := x.operands } fs ∧ fs.map Field.operand = i.operands

/-- The bytes are the program `prog`: at every boundary the disassembler reads its instruction, or finds
none where there is none. -/
def Disassembles (dis : Disassembler) (bytes : List (BitVec 8)) (prog : Nat → Option Insn) : Prop :=
  ∀ u, Boundary dis bytes u → Option.Rel Insn.Reads (prog u) (dis (unitBytes bytes u))

variable {dis : Disassembler} {bytes bs : List (BitVec 8)} {prog : Nat → Option Insn} {x : Disassembled}
  {i : Insn} {u : Nat} {k : Int} {d d' : DecodedInsn} {ds insns : List DecodedInsn} {l : String}

/-! ## Kinds of instructions -/

theorem regInsn_straight (i : RegInsn) : i.mc.opcode.isTerminator = false ∧ i.mc.opcode ≠ .JAL := by
  cases i with
  | alu op w dst src => cases op <;> cases w <;> cases src <;> exact ⟨rfl, nofun⟩
  | neg w dst => cases w <;> exact ⟨rfl, nofun⟩
  | movsx op dst src => cases op <;> exact ⟨rfl, nofun⟩
  | mov32_64 dst src => exact ⟨rfl, nofun⟩
  | endian op dst => cases op <;> exact ⟨rfl, nofun⟩
  | ldImm64 dst v => exact ⟨rfl, nofun⟩

theorem memInsn_straight (i : MemInsn) : i.mc.opcode.isTerminator = false ∧ i.mc.opcode ≠ .JAL := by
  cases i with
  | load op dst base off => cases op <;> exact ⟨rfl, nofun⟩
  | store op src base off => cases op <;> exact ⟨rfl, nofun⟩
  | storeImm size imm base off => cases size <;> exact ⟨rfl, nofun⟩

theorem atomicInsn_straight (i : AtomicInsn) : i.mc.opcode.isTerminator = false ∧ i.mc.opcode ≠ .JAL := by
  cases i with
  | rmw op fetch w src base off => cases op <;> cases fetch <;> cases w <;> exact ⟨rfl, nofun⟩
  | xaddw src base off => exact ⟨rfl, nofun⟩
  | xchg w src base off => cases w <;> exact ⟨rfl, nofun⟩
  | cmpxchg w src base off => cases w <;> exact ⟨rfl, nofun⟩

theorem jmp_isCondJump (op : JmpOp) (w : Width) (src : Src) : (op.opcode w src).isCondJump = true := by
  cases op <;> cases w <;> cases src <;> rfl

theorem jmp_slots (op : JmpOp) (w : Width) (src : Src) : ∃ s,
    (op.opcode w src).form.map Form.slots = some [.reg, s, .off16] := by
  cases src with
  | reg r => exact ⟨.reg, by cases op <;> cases w <;> rfl⟩
  | imm v => exact ⟨.imm32, by cases op <;> cases w <;> rfl⟩

/-! ## Offsets -/

theorem off16_offset {f : Field} {o : MCOperand} {v : Int} {off : BitVec 16} (hslot : f.slot = .off16)
    (hd : f.Delivered o) (hop : f.operand = .imm off.toInt) (ho : o = .imm v) : BitVec.ofInt 16 v = off := by
  cases f with
  | off16 w =>
    obtain rfl : w = off := BitVec.eq_of_toInt_eq (MCOperand.imm.inj hop)
    subst ho
    rcases hd with h | h
    · rw [MCOperand.imm.inj h, BitVec.ofInt_natCast, BitVec.ofNat_toNat, BitVec.setWidth_eq]
    · rw [MCOperand.imm.inj h, BitVec.ofInt_toInt]
  | _ => cases hslot

theorem imm32_offset {f : Field} {o : MCOperand} {v : Int} {off : BitVec 32} (hslot : f.slot = .imm32)
    (hd : f.Delivered o) (hop : f.operand = .imm off.toInt) (ho : o = .imm v) : BitVec.ofInt 32 v = off := by
  cases f with
  | imm32 w =>
    obtain rfl : w = off := BitVec.eq_of_toInt_eq (MCOperand.imm.inj hop)
    subst ho
    rcases hd with h | h
    · rw [MCOperand.imm.inj h, BitVec.ofInt_natCast, BitVec.ofNat_toNat, BitVec.setWidth_eq]
    · rw [MCOperand.imm.inj h, BitVec.ofInt_toInt]
  | _ => cases hslot

theorem branchOffset_jmp {op : JmpOp} {w : Width} {dst : Fin 12} {src : Src} {off : BitVec 16}
    (hdis : DisassemblerSpec dis) (hx : dis bs = some x) (hr : (Insn.jmp op w dst src off).Reads x) :
    branchOffset bs x.opcode = off.toInt := by
  have hop : x.opcode = op.opcode w src := hr.opcode
  have hc := jmp_isCondJump op w src
  obtain ⟨fs, henc, hfs⟩ := hr.fields
  obtain ⟨s, hs⟩ := jmp_slots op w src
  have hslots : fs.map Field.slot = [.reg, s, .off16] := by
    have h := henc.slots
    simp only [hop, hs] at h
    exact (Option.some.inj h).symm
  obtain ⟨pre, v, hops, _, hoff⟩ := hdis.branch bs x hx (by rw [hop, Opcode.isBranch_eq, hc, Bool.true_or])
  obtain ⟨f, _, a, _, rfl, ha, _, _, hrest, hslots⟩ := fields_cons henc.operands hslots
  obtain ⟨g, _, b, _, rfl, rfl, _, _, hrest, hslots⟩ := fields_cons hrest hslots
  obtain ⟨k, _, c, _, rfl, rfl, hk, hc', hrest, hslots⟩ := fields_cons hrest hslots
  obtain ⟨rfl, rfl⟩ := fields_nil hrest hslots
  have hlast : c = .imm v := by
    have h := congrArg List.getLast? (hops.symm.trans ha)
    simpa using h.symm
  have hval : k.operand = .imm off.toInt := by
    simp only [List.map_cons, List.map_nil, Insn.operands, List.cons.injEq] at hfs
    exact hfs.2.2.1
  have hne : x.opcode ≠ .JMPL := by
    intro heq
    rw [← hop, heq] at hc
    cases hc
  have hv := off16_offset hk hc' hval hlast
  rw [OffsetOperand, if_neg hne, hv] at hoff
  rw [branchOffset, if_neg hne, ← hoff]

theorem branchOffset_ja {off : BitVec 16} (hdis : DisassemblerSpec dis) (hx : dis bs = some x)
    (hr : (Insn.ja off).Reads x) : branchOffset bs x.opcode = off.toInt := by
  have hop : x.opcode = .JMP := hr.opcode
  obtain ⟨fs, henc, hfs⟩ := hr.fields
  have hslots : fs.map Field.slot = [.off16] := by
    have h := henc.slots
    simp only [hop] at h
    exact (Option.some.inj h).symm
  obtain ⟨pre, v, hops, _, hoff⟩ := hdis.branch bs x hx (by rw [hop]; rfl)
  obtain ⟨k, _, c, _, rfl, ha, hk, hc', hrest, hslots⟩ := fields_cons henc.operands hslots
  obtain ⟨rfl, rfl⟩ := fields_nil hrest hslots
  have hlast : c = .imm v := by
    have h := congrArg List.getLast? (hops.symm.trans ha)
    simpa using h.symm
  have hv := off16_offset hk hc' (List.head_eq_of_cons_eq hfs) hlast
  rw [hop, OffsetOperand, if_neg (by decide), hv] at hoff
  rw [hop, branchOffset, if_neg (by decide), ← hoff]

theorem branchOffset_gotol {off : BitVec 32} (hdis : DisassemblerSpec dis) (hx : dis bs = some x)
    (hr : (Insn.gotol off).Reads x) : branchOffset bs x.opcode = off.toInt := by
  have hop : x.opcode = .JMPL := hr.opcode
  obtain ⟨fs, henc, hfs⟩ := hr.fields
  have hslots : fs.map Field.slot = [.imm32] := by
    have h := henc.slots
    simp only [hop] at h
    exact (Option.some.inj h).symm
  obtain ⟨pre, v, hops, _, hoff⟩ := hdis.branch bs x hx (by rw [hop]; rfl)
  obtain ⟨k, _, c, _, rfl, ha, hk, hc', hrest, hslots⟩ := fields_cons henc.operands hslots
  obtain ⟨rfl, rfl⟩ := fields_nil hrest hslots
  have hlast : c = .imm v := by
    have h := congrArg List.getLast? (hops.symm.trans ha)
    simpa using h.symm
  have hv := imm32_offset hk hc' (List.head_eq_of_cons_eq hfs) hlast
  rw [hop, OffsetOperand, if_pos rfl, hv] at hoff
  rw [hop, branchOffset, if_pos rfl, ← hoff]

/-! ## The machine and its control flow -/

/-- Where an instruction is read, the machine goes where the bytes say. -/
theorem exits_eq_of_reads (hdis : DisassemblerSpec dis) (hx : dis (unitBytes bytes u) = some x)
    (hr : i.Reads x) : (bpfFlow dis bytes).exit u = i.exits u := by
  have hu : ¬(u : Int) < 0 := by omega
  have hsize : x.size / 8 = i.units := by
    rw [hr.size]
    omega
  have hflow : (bpfFlow dis bytes).exit u = if x.opcode.isReturn then .stop
      else if x.opcode.isCondJump then
        .cond (u + i.units + branchOffset (unitBytes bytes u) x.opcode) (u + i.units)
      else if x.opcode.isUnconditionalBranch then .goto (u + i.units + branchOffset (unitBytes bytes u) x.opcode)
      else .goto (u + i.units) := by
    simp only [bpfFlow, hu, if_false, Int.toNat_natCast, hx, hsize]
  have hop := hr.opcode
  have hstraight : i.opcode.isTerminator = false → (bpfFlow dis bytes).exit u = .goto (u + i.units) := by
    intro ht
    obtain ⟨hc, hj, hret⟩ := Opcode.straight_flags ht
    simp only [hflow, hop, hc, hj, hret, Bool.false_eq_true, if_false]
  cases i with
  | reg i => exact hstraight (regInsn_straight i).1
  | mem i => exact hstraight (memInsn_straight i).1
  | atomic i => exact hstraight (atomicInsn_straight i).1
  | call id => exact hstraight rfl
  | nop => exact hstraight rfl
  | exit =>
    have hret : x.opcode.isReturn = true := by rw [hop]; rfl
    rw [hflow, if_pos hret]
    rfl
  | jmp op w dst src off =>
    have hc : x.opcode.isCondJump = true := by
      rw [hop]
      exact jmp_isCondJump op w src
    have hret : ¬x.opcode.isReturn = true := by simp [(Opcode.cond_flags hc).2.2]
    rw [hflow, if_neg hret, if_pos hc, branchOffset_jmp hdis hx hr]
    rfl
  | ja off =>
    have hj : x.opcode.isUnconditionalBranch = true := by rw [hop]; rfl
    obtain ⟨_, hc, hret⟩ := Opcode.jump_flags hj
    simp only [hflow, hc, hj, hret, Bool.false_eq_true, if_false, if_true, branchOffset_ja hdis hx hr]
    rfl
  | gotol off =>
    have hj : x.opcode.isUnconditionalBranch = true := by rw [hop]; rfl
    obtain ⟨_, hc, hret⟩ := Opcode.jump_flags hj
    simp only [hflow, hc, hj, hret, Bool.false_eq_true, if_false, if_true, branchOffset_gotol hdis hx hr]
    rfl

/-- The machine and the control flow of the bytes do the same at a boundary. -/
theorem machine_agrees (hdis : DisassemblerSpec dis) (hprog : Disassembles dis bytes prog) (H : Helpers)
    (C : Clobbers) (hb : Boundary dis bytes u) :
    (bpfMachine prog H C).event u = (bpfFlow dis bytes).event u ∧
      (bpfMachine prog H C).exit u = (bpfFlow dis bytes).exit u := by
  have hu : ¬(u : Int) < 0 := by omega
  have hrel := hprog u hb
  cases hp : prog u with
  | none =>
    rw [hp] at hrel
    generalize hx : dis (unitBytes bytes u) = o at hrel
    cases hrel
    simp [bpfMachine, bpfFlow, hx, hp]
  | some i =>
    rw [hp] at hrel
    generalize hx : dis (unitBytes bytes u) = o at hrel
    cases hrel with
    | some hr =>
      refine ⟨by simp [bpfMachine, bpfFlow, hx, hp, hr.opcode], ?_⟩
      rw [exits_eq_of_reads hdis hx hr]
      simp [bpfMachine, hp]

/-! ## What is put into the blocks -/

/-- An instruction of the program with sign-extended immediates. -/
def Plain (_ : List (BitVec 8)) (x : Disassembled) (d : DecodedInsn) : Prop :=
  ∀ i : Insn, i.Reads x → d.inst.opcode = i.opcode ∧ d.inst.place = some d.unit ∧ d.inst.operands = i.operands

/-- An instruction of the program with a label for its target. -/
def Labelled (_ : List (BitVec 8)) (x : Disassembled) (d : DecodedInsn) : Prop :=
  ∀ i : Insn, i.Reads x → d.inst.opcode = i.opcode ∧ d.inst.place = some d.unit ∧
    ∃ l, d.inst.operands = i.labelled l

theorem plain_extended {I : MCInst} (hd : Decoded bs x d) (h : signExtendImms d.inst = .ok I) :
    Plain bs x { d with inst := I } := by
  intro i hr
  obtain ⟨hop, hpl, hops⟩ := hd
  obtain ⟨fs, henc, hfs⟩ := hr.fields
  have henc' : Encodes d.inst fs := ⟨hop ▸ henc.slots, hops ▸ henc.operands⟩
  rw [signExtendImms_fields henc'] at h
  cases h
  exact ⟨hop.trans hr.opcode, hpl, hfs⟩

theorem labelled_set (i : Insn) (hbr : i.opcode.isBranch = true) (l : String) :
    i.operands.set (i.operands.length - 1) (.expr (.symbolRef l)) = i.labelled l := by
  have hno : ∀ {op : Opcode}, op.isTerminator = false → op.isBranch ≠ true := fun hop h => by
    rw [Opcode.isTerminator, h, Bool.true_or] at hop
    cases hop
  cases i with
  | reg i => exact absurd hbr (hno (regInsn_straight i).1)
  | mem i => exact absurd hbr (hno (memInsn_straight i).1)
  | atomic i => exact absurd hbr (hno (atomicInsn_straight i).1)
  | jmp op w dst src off => rfl
  | ja off => rfl
  | gotol off => rfl
  | call id => exact absurd hbr (hno rfl)
  | exit => cases hbr
  | nop => cases hbr

theorem labelled_straight (i : Insn) (hbr : i.opcode.isBranch = false) (l : String) :
    i.operands = i.labelled l := by
  cases i with
  | jmp op w dst src off =>
    rw [Insn.opcode, Opcode.isBranch_eq, jmp_isCondJump, Bool.true_or] at hbr
    cases hbr
  | ja off => cases hbr
  | gotol off => cases hbr
  | _ => rfl

theorem labelled_rewritten (hd : Plain bs x d) (h : rewriteTarget insns d = .ok d') :
    d'.unit = d.unit ∧ d'.units = d.units ∧ Labelled bs x d' := by
  unfold rewriteTarget at h
  by_cases hbr : d.inst.opcode.isBranch = true
  · rw [if_pos hbr] at h
    cases ht : branchTargetUnit d with
    | error e => rw [ht] at h; cases h
    | ok t =>
      simp only [ht, bind, Except.bind] at h
      split at h <;> cases h
      refine ⟨rfl, rfl, fun i hr => ?_⟩
      obtain ⟨hop, hpl, hops⟩ := hd i hr
      refine ⟨hop, hpl, labelName t.toNat, ?_⟩
      rw [← labelled_set i (hop ▸ hbr), ← hops]
  · rw [if_neg hbr] at h
    cases h
    refine ⟨rfl, rfl, fun i hr => ?_⟩
    obtain ⟨hop, hpl, hops⟩ := hd i hr
    exact ⟨hop, hpl, "", hops.trans (labelled_straight i (hop ▸ eq_false_of_ne_true hbr) "")⟩

theorem labelled_chain (hdis : DisassemblerSpec dis) (hdec : decodeProgram dis bytes = .ok insns)
    (hall : List.Forall₂ (fun d d' => rewriteTarget insns d = .ok d') insns ds) :
    Chain dis bytes Labelled 0 ds := by
  have hplain : Chain dis bytes Plain 0 insns := by
    unfold decodeProgram at hdec
    cases hd : decode dis bytes bytes.length 0 with
    | error e =>
      rw [hd] at hdec
      cases hdec
    | ok decoded =>
      simp only [hd, bind, Except.bind] at hdec
      split at hdec
      · cases hdec
      refine (decode_chain (u := 0) hdis hd).map (mapM_except_ok hdec) fun bs x d d' _ hd' hdec' => ?_
      cases hI : signExtendImms d.inst with
      | error e =>
        rw [hI] at hd'
        cases hd'
      | ok I =>
        rw [hI] at hd'
        cases hd'
        exact ⟨rfl, rfl, plain_extended hdec' hI⟩
  exact hplain.map hall fun bs x d d' _ hd' hd => labelled_rewritten hd hd'

theorem Chain.mem_boundary {P : List (BitVec 8) → Disassembled → DecodedInsn → Prop}
    (h : Chain dis bytes P u ds) (hb : Boundary dis bytes u) : ∀ d ∈ ds, Boundary dis bytes d.unit ∧
      ∃ x, dis (unitBytes bytes d.unit) = some x ∧ P (unitBytes bytes d.unit) x d := by
  induction h with
  | nil _ => exact fun d hd => nomatch hd
  | @cons u x d ds hx hunit hunits _ hd _ ih =>
    refine List.forall_mem_cons.mpr ⟨?_, ih (hunits ▸ hb.next hx)⟩
    rw [hunit]
    exact ⟨hb, x, hx, hd⟩

theorem program_inst (hprog : Disassembles dis bytes prog) (hchain : Chain dis bytes Labelled 0 ds)
    (hd : d ∈ ds) : ∃ i l, prog d.unit = some i ∧ d.inst.opcode = i.opcode ∧ d.inst.place = some d.unit ∧
      d.inst.operands = i.labelled l := by
  obtain ⟨hb, x, hx, hlab⟩ := hchain.mem_boundary .start d hd
  have hrel := hprog d.unit hb
  rw [hx] at hrel
  generalize hp : prog d.unit = o at hrel
  cases hrel with
  | some hr =>
    obtain ⟨hop, hpl, l, hops⟩ := hlab _ hr
    exact ⟨_, l, rfl, hop, hpl, hops⟩

/-! ## Walking along the blocks -/

theorem Follows.restrict {κ ε : Type} {M M' : Flow κ ε} {obs : MCInst → ε} {BBs : List MCBasicBlock}
    {At : κ → List MCInst → Prop} {P : κ → Prop} (h : Follows M obs BBs At)
    (hev : ∀ k, P k → M'.event k = M.event k) (hex : ∀ k, P k → M'.exit k = M.exit k)
    (hclosed : ∀ k o k', P k → Flow.Leads (M.exit k) o k' → P k') :
    Follows M' obs BBs fun k is => P k ∧ At k is where
  fell k hk := (hex k hk.1).trans (h.fell k hk.2)
  event k I is hk := (hev k hk.1).trans (h.event k I is hk.2)
  ret k I is hk hr := (hex k hk.1).trans (h.ret k I is hk.2 hr)
  straight k I is hk ht := by
    obtain ⟨k', hexit, hat⟩ := h.straight k I is hk.2 ht
    exact ⟨k', (hex k hk.1).trans hexit, hclosed k none k' hk.1 (hexit ▸ .goto), hat⟩
  jump k I is l b hk hu hl hb := by
    obtain ⟨k', hexit, hat⟩ := h.jump k I is l b hk.2 hu hl hb
    exact ⟨k', (hex k hk.1).trans hexit, hclosed k none k' hk.1 (hexit ▸ .goto), hat⟩
  cond k I is l b hk hc hl hb := by
    obtain ⟨k', k'', hexit, hat, hat'⟩ := h.cond k I is l b hk.2 hc hl hb
    exact ⟨k', k'', (hex k hk.1).trans hexit, ⟨hclosed k (some true) k' hk.1 (hexit ▸ .taken), hat⟩,
      hclosed k (some false) k'' hk.1 (hexit ▸ .notTaken), hat'⟩

section blocks

variable {leaders : List Nat} {MF : MCFunction}
  (hchain : Chain dis bytes (Filled (ds.map (·.unit)) leaders) 0 ds) (hinv : FillInv leaders ds MF)
include hchain hinv

theorem reaches_boundary (hr : (bpfFlow dis bytes).Reaches 0 k) : ∃ u : Nat, k = u ∧ Boundary dis bytes u := by
  induction hr with
  | refl => exact ⟨0, rfl, .start⟩
  | @tail k₀ k hr₀ hedge ih =>
    obtain ⟨n, rfl, hb⟩ := ih
    have hne := Flow.edge_ne_fell hedge
    obtain ⟨o, ho⟩ := hedge
    obtain ⟨m, rest, hm, hrest, _⟩ := chain_reaches hchain hinv hr₀
    obtain rfl : n = m := by omega
    cases hrest with
    | nil hx => exact absurd (exit_fell.mpr (Or.inr hx)) hne
    | @cons _ x d rest hx hunit hunits _ hfill _ =>
      rcases leads_cases hx ho with ⟨hk, _⟩ | ⟨hk, hbr⟩
      · exact ⟨_, hk, hb.next hx⟩
      · obtain ⟨j, e, hj, _, htarget, _⟩ := bytes_target hinv hfill hbr
        refine ⟨e.unit, ?_, (hchain.mem_boundary .start e (List.mem_of_getElem? hj)).1⟩
        rw [hk, ← htarget, hunit, hunits]
        push_cast
        rfl

/-- The machine walks along the blocks. -/
theorem machine_follows (hdis : DisassemblerSpec dis) (hprog : Disassembles dis bytes prog) (H : Helpers)
    (C : Clobbers) : Follows (bpfMachine prog H C).toFlow unitObs
      (checkEntryBlock (removeEmptyBlocks MF.BBs)) fun k is => (bpfFlow dis bytes).Reaches 0 k ∧
        ∃ (n : Nat) (rest : List DecodedInsn), k = n ∧
          Chain dis bytes (Filled (ds.map (·.unit)) leaders) n rest ∧ is = rest.map (·.inst) := by
  have hagree : ∀ k, (bpfFlow dis bytes).Reaches 0 k →
      (bpfMachine prog H C).event k = (bpfFlow dis bytes).event k ∧
        (bpfMachine prog H C).exit k = (bpfFlow dis bytes).exit k := by
    intro k hk
    obtain ⟨u, rfl, hb⟩ := reaches_boundary hchain hinv hk
    exact machine_agrees hdis hprog H C hb
  exact (bytes_follows hchain hinv).restrict (fun k hk => (hagree k hk).1) (fun k hk => (hagree k hk).2)
    fun k o k' hk hlead => hk.tail ⟨o, hlead⟩

end blocks

end BpfTv
