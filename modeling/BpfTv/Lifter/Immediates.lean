import BpfTv.Bpf.Memory
import BpfTv.Lifter.Function
import BpfTv.Mc.Blocks

/-!
# Immediates of disassembled instructions

The disassembler may leave the bits of an immediate field zero-extended. The loop of `runBytes`
sign-extends them, field by field, and then the operands are the ones that the assembly parser makes
of the instruction (`immediates_normal`).
-/

namespace BpfTv

/-- The operand lists of the opcodes that `lift` has a case for. -/
inductive Form
  | empty
  | alu | aluImm
  | move | moveImm
  | ldImm64
  /-- Loads and stores: register, base, offset. -/
  | mem
  /-- Stores of an immediate: immediate, base, offset. -/
  | memImm
  | jump | gotol
  | condJump | condJumpImm
  /-- Destination, base, offset, value. -/
  | atomic
  /-- Base, offset, new value. -/
  | cmpxchg
  | call
  deriving DecidableEq, Repr

/-- What stands in an operand. -/
inductive Slot
  | reg | off16 | imm32 | imm64
  deriving DecidableEq, Repr

def Form.slots : Form → List Slot
  | empty => []
  | alu => [.reg, .reg, .reg]
  | aluImm => [.reg, .reg, .imm32]
  | move => [.reg, .reg]
  | moveImm => [.reg, .imm32]
  | ldImm64 => [.reg, .imm64]
  | mem => [.reg, .reg, .off16]
  | memImm => [.imm32, .reg, .off16]
  | jump => [.off16]
  | gotol => [.imm32]
  | condJump => [.reg, .reg, .off16]
  | condJumpImm => [.reg, .imm32, .off16]
  | atomic => [.reg, .reg, .off16, .reg]
  | cmpxchg => [.reg, .off16, .reg]
  | call => [.imm32]

/-- The form of an opcode; none for the opcodes that `lift` refuses. -/
def Opcode.form : Opcode → Option Form
  | .NOP | .RET => some .empty
  | .ADD_rr | .ADD_rr_32 | .SUB_rr | .SUB_rr_32 | .MUL_rr | .MUL_rr_32 | .AND_rr | .AND_rr_32
  | .OR_rr | .OR_rr_32 | .XOR_rr | .XOR_rr_32 | .SLL_rr | .SLL_rr_32 | .SRL_rr | .SRL_rr_32
  | .SRA_rr | .SRA_rr_32 | .DIV_rr | .DIV_rr_32 | .MOD_rr | .MOD_rr_32 | .SDIV_rr | .SDIV_rr_32
  | .SMOD_rr | .SMOD_rr_32 => some .alu
  | .ADD_ri | .ADD_ri_32 | .SUB_ri | .SUB_ri_32 | .MUL_ri | .MUL_ri_32 | .AND_ri | .AND_ri_32
  | .OR_ri | .OR_ri_32 | .XOR_ri | .XOR_ri_32 | .SLL_ri | .SLL_ri_32 | .SRL_ri | .SRL_ri_32
  | .SRA_ri | .SRA_ri_32 | .DIV_ri | .DIV_ri_32 | .MOD_ri | .MOD_ri_32 | .SDIV_ri | .SDIV_ri_32
  | .SMOD_ri | .SMOD_ri_32 => some .aluImm
  | .NEG_64 | .NEG_32 | .MOV_rr | .MOV_rr_32 | .MOV_32_64
  | .MOVSX_rr_8 | .MOVSX_rr_16 | .MOVSX_rr_32 | .MOVSX_rr_32_8 | .MOVSX_rr_32_16
  | .BE16 | .BE32 | .BE64 | .LE16 | .LE32 | .LE64 | .BSWAP16 | .BSWAP32 | .BSWAP64 => some .move
  | .MOV_ri | .MOV_ri_32 => some .moveImm
  | .LD_imm64 => some .ldImm64
  | .LDD | .LDW | .LDH | .LDB | .LDWSX | .LDHSX | .LDBSX | .LDW32 | .LDH32 | .LDB32
  | .STD | .STW | .STH | .STB | .STW32 | .STH32 | .STB32 => some .mem
  | .STD_imm | .STW_imm | .STH_imm | .STB_imm => some .memImm
  | .JMP => some .jump
  | .JMPL => some .gotol
  | .JEQ_rr | .JEQ_rr_32 | .JNE_rr | .JNE_rr_32 | .JUGT_rr | .JUGT_rr_32 | .JUGE_rr | .JUGE_rr_32
  | .JULT_rr | .JULT_rr_32 | .JULE_rr | .JULE_rr_32 | .JSGT_rr | .JSGT_rr_32 | .JSGE_rr | .JSGE_rr_32
  | .JSLT_rr | .JSLT_rr_32 | .JSLE_rr | .JSLE_rr_32 | .JSET_rr | .JSET_rr_32 => some .condJump
  | .JEQ_ri | .JEQ_ri_32 | .JNE_ri | .JNE_ri_32 | .JUGT_ri | .JUGT_ri_32 | .JUGE_ri | .JUGE_ri_32
  | .JULT_ri | .JULT_ri_32 | .JULE_ri | .JULE_ri_32 | .JSGT_ri | .JSGT_ri_32 | .JSGE_ri | .JSGE_ri_32
  | .JSLT_ri | .JSLT_ri_32 | .JSLE_ri | .JSLE_ri_32 | .JSET_ri | .JSET_ri_32 => some .condJumpImm
  | .XADDW | .XADDW32 | .XADDD | .XANDW32 | .XANDD | .XORW32 | .XORD | .XXORW32 | .XXORD
  | .XFADDW32 | .XFADDD | .XFANDW32 | .XFANDD | .XFORW32 | .XFORD | .XFXORW32 | .XFXORD
  | .XCHGW32 | .XCHGD => some .atomic
  | .CMPXCHGD | .CMPXCHGW32 => some .cmpxchg
  | .JAL => some .call
  | .OTHER => none

/-! ## Fields -/

/-- An encoded field. -/
inductive Field
  | reg (r : Reg)
  | off16 (v : BitVec 16)
  | imm32 (v : BitVec 32)
  | imm64 (v : BitVec 64)
  deriving DecidableEq, Repr

def Field.slot : Field → Slot
  | reg _ => .reg
  | off16 _ => .off16
  | imm32 _ => .imm32
  | imm64 _ => .imm64

/-- The operand for a field: immediates are sign-extended. -/
def Field.operand : Field → MCOperand
  | reg r => .reg r
  | off16 v => .imm v.toInt
  | imm32 v => .imm v.toInt
  | imm64 v => .imm v.toInt

/-- What the disassembler makes of a field: the bits of an immediate may be zero-extended. -/
def Field.Delivered (f : Field) (op : MCOperand) : Prop :=
  match f with
  | off16 v => op = .imm v.toNat ∨ op = .imm v.toInt
  | imm32 v => op = .imm v.toNat ∨ op = .imm v.toInt
  | reg _ | imm64 _ => op = f.operand

/-- The disassembled instruction for the encoded fields `fs`. -/
structure Encodes (I : MCInst) (fs : List Field) : Prop where
  slots : I.opcode.form.map Form.slots = some (fs.map Field.slot)
  operands : List.Forall₂ Field.Delivered fs I.operands

/-- The instruction with the operands that the assembly parser makes of the fields. -/
def MCInst.withFields (I : MCInst) (fs : List Field) : MCInst := { I with operands := fs.map Field.operand }

theorem operand_delivered (f : Field) : f.Delivered f.operand := by
  cases f with
  | off16 v | imm32 v => exact Or.inr rfl
  | reg r | imm64 v => rfl

theorem delivered_operands (fs : List Field) : List.Forall₂ Field.Delivered fs (fs.map Field.operand) :=
  List.forall₂_map_right_iff.mpr (List.forall₂_same.mpr fun f _ => operand_delivered f)

theorem encodes_withFields {I : MCInst} {fs : List Field} (h : Encodes I fs) :
    Encodes (I.withFields fs) fs where
  slots := h.slots
  operands := delivered_operands fs

/-! ## One instruction -/

/-- The part of `signExtendImms` for a form. -/
def Form.extend (form : Form) (I : MCInst) : Except LiftError MCInst :=
  match form with
  | .empty | .ldImm64 => .ok I
  | .jump | .gotol | .condJump | .condJumpImm => do
    let J ← (if I.operands.length = 3 then I.sext 1 32 else .ok I)
    J.sext (I.operands.length - 1) (if J.opcode = .JMPL then 32 else 16)
  | .mem | .atomic => I.sext 2 16
  | .memImm => do
    let J ← I.sext 0 32
    J.sext 2 16
  | .cmpxchg => I.sext 1 16
  | .alu | .aluImm | .move | .moveImm | .call => I.sext (I.operands.length - 1) 32

theorem signExtendImms_form {op : Opcode} {form : Form} (h : op.form = some form) (hne : form ≠ .empty)
    (a : MCOperand) (rest : List MCOperand) (loc : Option SrcInst) (place : Option Nat) :
    signExtendImms ⟨op, a :: rest, loc, place⟩ = form.extend ⟨op, a :: rest, loc, place⟩ := by
  cases op <;> cases h <;> first | rfl | exact absurd rfl hne

/-- A field that is extended by `bits`, or that is no immediate. -/
def Field.Fits (f : Field) (bits : Nat) : Prop :=
  match f with
  | off16 _ => bits = 16
  | imm32 _ => bits = 32
  | reg _ => True
  | imm64 _ => False

theorem sext_field (I : MCInst) (idx : Nat) {bits : Nat} {f : Field} {o : MCOperand}
    (h : I.operands[idx]? = some o) (hd : f.Delivered o) (hbits : f.Fits bits) :
    I.sext idx bits = .ok { I with operands := I.operands.set idx f.operand } := by
  have himm : ∀ v : Int, o = .imm v → I.sext idx bits = .ok { I with
      operands := I.operands.set idx (.imm (if bits = 16 then v.bmod (2 ^ 16) else v.bmod (2 ^ 32))) } := by
    rintro v rfl
    simp [MCInst.sext, MCInst.getOperand, h, bind, Except.bind, pure, Except.pure]
  cases f with
  | reg r =>
    obtain rfl : o = .reg r := hd
    obtain ⟨hlt, hget⟩ := List.getElem?_eq_some_iff.mp h
    have hset : I.operands.set idx (.reg r) = I.operands := by rw [← hget, List.set_getElem_self]
    simp [MCInst.sext, MCInst.getOperand, h, bind, Except.bind, pure, Except.pure, Field.operand, hset]
  | off16 v =>
    subst hbits
    rcases hd with rfl | rfl
    · rw [himm _ rfl, if_pos rfl, ← BitVec.toInt_eq_toNat_bmod]
      rfl
    · rw [himm _ rfl, if_pos rfl, BitVec.toInt_bmod_cancel]
      rfl
  | imm32 v =>
    subst hbits
    rcases hd with rfl | rfl
    · rw [himm _ rfl, if_neg (by decide), ← BitVec.toInt_eq_toNat_bmod]
      rfl
    · rw [himm _ rfl, if_neg (by decide), BitVec.toInt_bmod_cancel]
      rfl
  | imm64 v => exact hbits.elim

theorem fields_cons {fs : List Field} {ops : List MCOperand} {s : Slot} {ss : List Slot}
    (hops : List.Forall₂ Field.Delivered fs ops) (hslots : fs.map Field.slot = s :: ss) :
    ∃ f fs' o ops', fs = f :: fs' ∧ ops = o :: ops' ∧ f.slot = s ∧ f.Delivered o ∧
      List.Forall₂ Field.Delivered fs' ops' ∧ fs'.map Field.slot = ss := by
  obtain ⟨f, fs', rfl, hf, hfs⟩ := List.map_eq_cons_iff.mp hslots
  obtain ⟨o, ops', ho, hrest, rfl⟩ := List.forall₂_cons_left_iff.mp hops
  exact ⟨f, fs', o, ops', rfl, rfl, hf, ho, hrest, hfs⟩

theorem fields_nil {fs : List Field} {ops : List MCOperand} (hops : List.Forall₂ Field.Delivered fs ops)
    (hslots : fs.map Field.slot = []) : fs = [] ∧ ops = [] := by
  obtain rfl := List.map_eq_nil_iff.mp hslots
  exact ⟨rfl, List.forall₂_nil_left_iff.mp hops⟩

theorem delivered_reg {f : Field} {o : MCOperand} (h : f.slot = .reg) (hd : f.Delivered o) :
    o = f.operand ∧ ∀ bits, f.Fits bits := by
  cases f with
  | reg r => exact ⟨hd, fun _ => trivial⟩
  | _ => cases h

theorem fits_off16 {f : Field} (h : f.slot = .off16) : f.Fits 16 := by
  cases f with
  | off16 v => rfl
  | _ => cases h

theorem fits_imm32 {f : Field} (h : f.slot = .imm32) : f.Fits 32 := by
  cases f with
  | imm32 v => rfl
  | _ => cases h

theorem extend_fields {form : Form} {op : Opcode} {fs : List Field} {ops : List MCOperand}
    {loc : Option SrcInst} {place : Option Nat} (hform : op.form = some form)
    (hslots : fs.map Field.slot = form.slots) (hops : List.Forall₂ Field.Delivered fs ops) :
    form.extend ⟨op, ops, loc, place⟩ = .ok ⟨op, fs.map Field.operand, loc, place⟩ := by
  cases form with
  | empty =>
    obtain ⟨rfl, rfl⟩ := fields_nil hops hslots
    rfl
  | ldImm64 =>
    obtain ⟨f, _, o, _, rfl, rfl, hf, ho, hops, hslots⟩ := fields_cons hops hslots
    obtain ⟨g, _, p, _, rfl, rfl, hg, hp, hops, hslots⟩ := fields_cons hops hslots
    obtain ⟨rfl, rfl⟩ := fields_nil hops hslots
    cases g with
    | imm64 v =>
      rw [(delivered_reg hf ho).1, show p = (Field.imm64 v).operand from hp]
      rfl
    | _ => cases hg
  | alu | aluImm =>
    obtain ⟨f, _, o, _, rfl, rfl, hf, ho, hops, hslots⟩ := fields_cons hops hslots
    obtain ⟨g, _, p, _, rfl, rfl, hg, hp, hops, hslots⟩ := fields_cons hops hslots
    obtain ⟨k, _, q, _, rfl, rfl, hk, hq, hops, hslots⟩ := fields_cons hops hslots
    obtain ⟨rfl, rfl⟩ := fields_nil hops hslots
    have hfits : k.Fits 32 := by
      first
        | exact fits_imm32 hk
        | exact (delivered_reg hk hq).2 32
    refine (sext_field _ 2 rfl hq hfits).trans ?_
    rw [(delivered_reg hf ho).1, (delivered_reg hg hp).1]
    rfl
  | move | moveImm =>
    obtain ⟨f, _, o, _, rfl, rfl, hf, ho, hops, hslots⟩ := fields_cons hops hslots
    obtain ⟨g, _, p, _, rfl, rfl, hg, hp, hops, hslots⟩ := fields_cons hops hslots
    obtain ⟨rfl, rfl⟩ := fields_nil hops hslots
    have hfits : g.Fits 32 := by
      first
        | exact fits_imm32 hg
        | exact (delivered_reg hg hp).2 32
    refine (sext_field _ 1 rfl hp hfits).trans ?_
    rw [(delivered_reg hf ho).1]
    rfl
  | mem =>
    obtain ⟨f, _, o, _, rfl, rfl, hf, ho, hops, hslots⟩ := fields_cons hops hslots
    obtain ⟨g, _, p, _, rfl, rfl, hg, hp, hops, hslots⟩ := fields_cons hops hslots
    obtain ⟨k, _, q, _, rfl, rfl, hk, hq, hops, hslots⟩ := fields_cons hops hslots
    obtain ⟨rfl, rfl⟩ := fields_nil hops hslots
    refine (sext_field _ 2 rfl hq (fits_off16 hk)).trans ?_
    rw [(delivered_reg hf ho).1, (delivered_reg hg hp).1]
    rfl
  | memImm =>
    obtain ⟨f, _, o, _, rfl, rfl, hf, ho, hops, hslots⟩ := fields_cons hops hslots
    obtain ⟨g, _, p, _, rfl, rfl, hg, hp, hops, hslots⟩ := fields_cons hops hslots
    obtain ⟨k, _, q, _, rfl, rfl, hk, hq, hops, hslots⟩ := fields_cons hops hslots
    obtain ⟨rfl, rfl⟩ := fields_nil hops hslots
    simp only [Form.extend]
    rw [sext_field ⟨op, [o, p, q], loc, place⟩ 0 rfl ho (fits_imm32 hf), (delivered_reg hg hp).1]
    exact sext_field ⟨op, [f.operand, g.operand, q], loc, place⟩ 2 rfl hq (fits_off16 hk)
  | jump =>
    obtain ⟨f, _, o, _, rfl, rfl, hf, ho, hops, hslots⟩ := fields_cons hops hslots
    obtain ⟨rfl, rfl⟩ := fields_nil hops hslots
    have hop : op ≠ .JMPL := by
      rintro rfl
      cases hform
    have htail : Form.jump.extend ⟨op, [o], loc, place⟩ =
        MCInst.sext ⟨op, [o], loc, place⟩ 0 (if op = .JMPL then 32 else 16) := rfl
    rw [htail, if_neg hop]
    exact sext_field _ 0 rfl ho (fits_off16 hf)
  | gotol =>
    obtain ⟨f, _, o, _, rfl, rfl, hf, ho, hops, hslots⟩ := fields_cons hops hslots
    obtain ⟨rfl, rfl⟩ := fields_nil hops hslots
    have hop : op = .JMPL := by cases op <;> first | rfl | cases hform
    have htail : Form.gotol.extend ⟨op, [o], loc, place⟩ =
        MCInst.sext ⟨op, [o], loc, place⟩ 0 (if op = .JMPL then 32 else 16) := rfl
    rw [htail, if_pos hop]
    exact sext_field _ 0 rfl ho (fits_imm32 hf)
  | condJump | condJumpImm =>
    obtain ⟨f, _, o, _, rfl, rfl, hf, ho, hops, hslots⟩ := fields_cons hops hslots
    obtain ⟨g, _, p, _, rfl, rfl, hg, hp, hops, hslots⟩ := fields_cons hops hslots
    obtain ⟨k, _, q, _, rfl, rfl, hk, hq, hops, hslots⟩ := fields_cons hops hslots
    obtain ⟨rfl, rfl⟩ := fields_nil hops hslots
    have hop : op ≠ .JMPL := by
      rintro rfl
      cases hform
    have hfits : g.Fits 32 := by
      first
        | exact fits_imm32 hg
        | exact (delivered_reg hg hp).2 32
    show (MCInst.sext ⟨op, [o, p, q], loc, place⟩ 1 32 >>= fun J =>
      J.sext 2 (if J.opcode = .JMPL then 32 else 16)) = _
    rw [sext_field ⟨op, [o, p, q], loc, place⟩ 1 rfl hp hfits, (delivered_reg hf ho).1]
    show MCInst.sext ⟨op, [f.operand, g.operand, q], loc, place⟩ 2 (if op = .JMPL then 32 else 16) = _
    rw [if_neg hop]
    exact sext_field _ 2 rfl hq (fits_off16 hk)
  | atomic =>
    obtain ⟨f, _, o, _, rfl, rfl, hf, ho, hops, hslots⟩ := fields_cons hops hslots
    obtain ⟨g, _, p, _, rfl, rfl, hg, hp, hops, hslots⟩ := fields_cons hops hslots
    obtain ⟨k, _, q, _, rfl, rfl, hk, hq, hops, hslots⟩ := fields_cons hops hslots
    obtain ⟨l, _, r, _, rfl, rfl, hl, hr, hops, hslots⟩ := fields_cons hops hslots
    obtain ⟨rfl, rfl⟩ := fields_nil hops hslots
    refine (sext_field _ 2 rfl hq (fits_off16 hk)).trans ?_
    rw [(delivered_reg hf ho).1, (delivered_reg hg hp).1, (delivered_reg hl hr).1]
    rfl
  | cmpxchg =>
    obtain ⟨f, _, o, _, rfl, rfl, hf, ho, hops, hslots⟩ := fields_cons hops hslots
    obtain ⟨g, _, p, _, rfl, rfl, hg, hp, hops, hslots⟩ := fields_cons hops hslots
    obtain ⟨k, _, q, _, rfl, rfl, hk, hq, hops, hslots⟩ := fields_cons hops hslots
    obtain ⟨rfl, rfl⟩ := fields_nil hops hslots
    refine (sext_field _ 1 rfl hp (fits_off16 hg)).trans ?_
    rw [(delivered_reg hf ho).1, (delivered_reg hk hq).1]
    rfl
  | call =>
    obtain ⟨f, _, o, _, rfl, rfl, hf, ho, hops, hslots⟩ := fields_cons hops hslots
    obtain ⟨rfl, rfl⟩ := fields_nil hops hslots
    exact sext_field _ 0 rfl ho (fits_imm32 hf)

theorem signExtendImms_fields {I : MCInst} {fs : List Field} (h : Encodes I fs) :
    signExtendImms I = .ok (I.withFields fs) := by
  obtain ⟨op, ops, loc, place⟩ := I
  obtain ⟨form, hform, hslots⟩ := Option.map_eq_some_iff.mp h.slots
  cases ops with
  | nil =>
    obtain rfl := List.forall₂_nil_right_iff.mp h.operands
    unfold signExtendImms
    simp only [List.length_nil, or_true, if_true]
    rfl
  | cons o ops =>
    have hne : form ≠ .empty := by
      rintro rfl
      have hnil := List.map_eq_nil_iff.mp hslots.symm
      rw [hnil] at h
      cases h.operands
    rw [signExtendImms_form hform hne]
    exact extend_fields hform hslots.symm h.operands

/-! ## The loop -/

/-- The loop of `runBytes` over the decoded instructions. -/
def normalise (insns : List DecodedInsn) : Except LiftError (List DecodedInsn) :=
  insns.mapM fun di => do return { di with inst := ← signExtendImms di.inst }

/-- The instructions with the operands that the assembly parser makes of their fields. -/
def withFields (insns : List DecodedInsn) (fs : List (List Field)) : List DecodedInsn :=
  insns.zipWith (fun di f => { di with inst := di.inst.withFields f }) fs

theorem normalise_fields {insns : List DecodedInsn} {fs : List (List Field)}
    (h : List.Forall₂ (fun di f => Encodes di.inst f) insns fs) :
    normalise insns = .ok (withFields insns fs) := by
  induction h with
  | nil => rfl
  | cons hdi hrest ih =>
    unfold normalise at ih ⊢
    rw [List.mapM_cons, signExtendImms_fields hdi, ih]
    rfl

theorem decodeProgram_normalise {dis : Disassembler} {bytes : List (BitVec 8)} {insns : List DecodedInsn}
    (hdec : decode dis bytes bytes.length 0 = .ok insns) (hne : insns ≠ []) :
    decodeProgram dis bytes = normalise insns := by
  unfold decodeProgram
  rw [hdec]
  show (do
    if insns = [] then throw (LiftError.exit "ERROR: empty program")
    normalise insns) = _
  rw [if_neg hne]

theorem encodes_normalised {insns : List DecodedInsn} {fs : List (List Field)}
    (h : List.Forall₂ (fun di f => Encodes di.inst f) insns fs) :
    List.Forall₂ (fun di f => Encodes di.inst f) (withFields insns fs) fs := by
  induction h with
  | nil => exact .nil
  | cons hdi hrest ih => exact .cons (encodes_withFields hdi) ih

/-- **Immediates.** For every sequence of instructions and all values of their encoded fields, the loop
gives each of them the operands of the assembly, with every offset and every 32-bit immediate
sign-extended; a second run changes nothing. These are the instructions that `runBytes` goes on with. -/
theorem immediates_normal (insns : List DecodedInsn) (fs : List (List Field))
    (h : List.Forall₂ (fun di f => Encodes di.inst f) insns fs) :
    normalise insns = .ok (withFields insns fs) ∧
      normalise (withFields insns fs) = .ok (withFields insns fs) ∧
      ∀ dis bytes, decode dis bytes bytes.length 0 = .ok insns → insns ≠ [] →
        decodeProgram dis bytes = .ok (withFields insns fs) := by
  refine ⟨normalise_fields h, ?_, fun dis bytes hdec hne =>
    (decodeProgram_normalise hdec hne).trans (normalise_fields h)⟩
  rw [normalise_fields (encodes_normalised h)]
  -- the fields are written once
  refine congrArg Except.ok ?_
  induction h with
  | nil => rfl
  | cons hdi hrest ih => exact congrArg₂ List.cons rfl ih

/-- A backward jump and a negative immediate whose bits have been zero-extended. -/
theorem immediates_normal_negative :
    let insns : List DecodedInsn :=
      [⟨{ opcode := .JNE_ri, operands := [.reg (.R 1), .imm 4294967295, .imm 65533] }, 0, 1⟩]
    normalise insns =
      .ok [⟨{ opcode := .JNE_ri, operands := [.reg (.R 1), .imm (-1), .imm (-3)] }, 0, 1⟩] := by
  refine (immediates_normal _ [[.reg (.R 1), .imm32 (-1), .off16 (-3)]] (.cons ⟨rfl, ?_⟩ .nil)).1
  exact .cons rfl (.cons (Or.inl rfl) (.cons (Or.inl rfl) .nil))

end BpfTv
