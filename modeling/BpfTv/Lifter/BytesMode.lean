import BpfTv.Lifter.ControlFlow

/-!
# Control flow of a lifted byte program

`bpfFlow` is the control flow of the BPF machine on the bytes of a program. What `runBytes` lifts
executes the same instructions (`bytes_control_flow`). The decoded instructions follow each other
without a gap (`Chain`); the leaders make every branch target, and what stands behind a terminator,
the start of a block (`FillInv`).
-/

namespace BpfTv

open Control

/-! ## The BPF machine -/

/-- The `n` bytes from `off` on, as a little-endian field. -/
def field (bs : List (BitVec 8)) (off n : Nat) : Nat := Bytes.leNat (fun i => bs.getD (off + i) 0) n

/-- The branch offset of the instruction at the start of `bs`: the 32-bit immediate of `gotol`, the
16-bit offset of any other branch. -/
def branchOffset (bs : List (BitVec 8)) (op : Opcode) : Int :=
  if op = .JMPL then (BitVec.ofNat 32 (field bs 4 4)).toInt else (BitVec.ofNat 16 (field bs 2 2)).toInt

/-- The source-register field of the instruction at the start of `bs`: for a call 0 is a helper by static
ID, 1 a local call and 2 a helper by BTF ID. -/
def srcField (bs : List (BitVec 8)) : BitVec 4 := (bs.getD 1 0).extractLsb' 4 4

/-- The bytes from unit `u` on. -/
def unitBytes (bytes : List (BitVec 8)) (u : Nat) : List (BitVec 8) := bytes.drop (8 * u)

/-- The BPF machine: positions are units, an event is a unit and the opcode executed there. -/
def bpfFlow (dis : Disassembler) (bytes : List (BitVec 8)) : Flow Int (Nat × Opcode) where
  event u := (dis (unitBytes bytes u.toNat)).map fun d => (u.toNat, d.opcode)
  exit u :=
    if u < 0 then
      .fell
    else
      match dis (unitBytes bytes u.toNat) with
      | none => .fell
      | some d =>
        let next := u + (d.size / 8 : Nat)
        let target := next + branchOffset (unitBytes bytes u.toNat) d.opcode
        if d.opcode.isReturn then .stop
        else if d.opcode.isCondJump then .cond target next
        else if d.opcode.isUnconditionalBranch then .goto target
        else .goto next

/-- The offset operand of a branch, as the disassembler leaves it: the bits of the field. -/
def OffsetOperand (bs : List (BitVec 8)) (op : Opcode) (v : Int) : Prop :=
  if op = .JMPL then BitVec.ofInt 32 v = BitVec.ofNat 32 (field bs 4 4)
  else BitVec.ofInt 16 v = BitVec.ofNat 16 (field bs 2 2)

/-- What the lifter relies on: instructions have 8 or 16 bytes, and the last operand of a branch is
its offset, behind registers and immediates. -/
structure DisassemblerSpec (dis : Disassembler) : Prop where
  size : ∀ bs d, dis bs = some d → (d.size = 8 ∨ d.size = 16) ∧ d.size ≤ bs.length
  branch : ∀ bs d, dis bs = some d → d.opcode.isBranch = true → ∃ pre v,
    d.operands = pre ++ [.imm v] ∧ (∀ a ∈ pre, a.isExpr = false) ∧ OffsetOperand bs d.opcode v

/-- What is seen of an executed instruction: its unit and its opcode. -/
def unitObs (I : MCInst) : Nat × Opcode := (I.place.getD 0, I.opcode)

/-! ## Decoding -/

/-- Instructions that follow each other without a gap from unit `u` to the end of the program, each
of them with `P`. -/
inductive Chain (dis : Disassembler) (bytes : List (BitVec 8))
    (P : List (BitVec 8) → Disassembled → DecodedInsn → Prop) : Nat → List DecodedInsn → Prop
  | nil {u : Nat} : dis (unitBytes bytes u) = none → Chain dis bytes P u []
  | cons {u : Nat} {x : Disassembled} {d : DecodedInsn} {ds : List DecodedInsn} :
      dis (unitBytes bytes u) = some x → d.unit = u → d.units = x.size / 8 → 0 < d.units →
      P (unitBytes bytes u) x d → Chain dis bytes P (u + d.units) ds → Chain dis bytes P u (d :: ds)

variable {dis : Disassembler} {bytes : List (BitVec 8)} {u : Nat} {ds ds' : List DecodedInsn}
  {P P' : List (BitVec 8) → Disassembled → DecodedInsn → Prop}

theorem Chain.map {R : DecodedInsn → DecodedInsn → Prop} (h : Chain dis bytes P u ds)
    (hR : List.Forall₂ R ds ds')
    (hP : ∀ bs x d d', dis bs = some x → R d d' → P bs x d →
      d'.unit = d.unit ∧ d'.units = d.units ∧ P' bs x d') :
    Chain dis bytes P' u ds' := by
  induction h generalizing ds' with
  | nil hu =>
    cases hR
    exact .nil hu
  | @cons u x d ds hx hunit hunits hpos hd _ ih =>
    cases hR with
    | cons hdd' hrest =>
      obtain ⟨h₁, h₂, h₃⟩ := hP _ _ _ _ hx hdd' hd
      refine .cons hx (h₁.trans hunit) (h₂.trans hunits) (h₂ ▸ hpos) h₃ ?_
      rw [h₂]
      exact ih hrest

theorem Chain.drop (h : Chain dis bytes P u ds) {j : Nat} {d : DecodedInsn} (hd : ds[j]? = some d) :
    Chain dis bytes P d.unit (ds.drop j) := by
  induction h generalizing j with
  | nil _ => simp at hd
  | @cons u x e ds hx hunit hunits hpos he hrest ih =>
    cases j with
    | zero =>
      obtain rfl : e = d := by simpa using hd
      rw [hunit]
      exact .cons hx hunit hunits hpos he hrest
    | succ j => exact ih (by simpa using hd)

theorem Chain.le_unit (h : Chain dis bytes P u ds) : ∀ d ∈ ds, u ≤ d.unit := by
  induction h with
  | nil _ => exact fun d hd => nomatch hd
  | @cons u x e ds _ hunit _ _ _ _ ih =>
    refine List.forall_mem_cons.mpr ⟨hunit.ge, fun d hd => ?_⟩
    have := ih d hd
    omega

theorem Chain.prev (h : Chain dis bytes P u ds) {pre post : List DecodedInsn} {d : DecodedInsn}
    (heq : ds = pre ++ d :: post) :
    (∀ e ∈ pre, e.unit ≠ d.unit) ∧ ∀ e, pre.getLast? = some e → e.unit + e.units = d.unit := by
  induction h generalizing pre with
  | nil _ => simp at heq
  | @cons u x e ds _ hunit hunits hpos _ hrest ih =>
    cases pre with
    | nil => exact ⟨fun e he => (nomatch he), fun e he => nomatch he⟩
    | cons e' pre =>
      obtain ⟨he, hds⟩ := List.cons_eq_cons.mp heq
      subst he
      obtain ⟨hne, hlast⟩ := ih hds
      have hle := hrest.le_unit d (hds ▸ List.mem_append_right _ List.mem_cons_self)
      refine ⟨List.forall_mem_cons.mpr ⟨by omega, hne⟩, fun f hf => ?_⟩
      cases pre with
      | nil =>
        obtain rfl : e = f := by simpa using hf
        cases hrest with
        | nil _ => simp at hds
        | cons _ hu =>
          obtain ⟨rfl, _⟩ := List.cons_eq_cons.mp hds
          omega
      | cons g pre => exact hlast f (by simpa using hf)

/-! ## From the bytes to the instructions -/

/-- An instruction as it is decoded. -/
def Decoded (_ : List (BitVec 8)) (x : Disassembled) (d : DecodedInsn) : Prop :=
  d.inst.opcode = x.opcode ∧ d.inst.place = some d.unit ∧ d.inst.operands = x.operands

/-- An instruction whose offset is sign-extended. -/
def Extended (bs : List (BitVec 8)) (x : Disassembled) (d : DecodedInsn) : Prop :=
  d.inst.opcode = x.opcode ∧ d.inst.place = some d.unit ∧ (x.opcode.isBranch = true →
    ∃ pre, d.inst.operands = pre ++ [.imm (branchOffset bs x.opcode)] ∧ ∀ a ∈ pre, a.isExpr = false)

/-- An instruction whose target is one of `units`, given by its label. -/
def Targeted (units : List Nat) (bs : List (BitVec 8)) (x : Disassembled) (d : DecodedInsn) : Prop :=
  d.inst.opcode = x.opcode ∧ d.inst.place = some d.unit ∧ (x.opcode.isBranch = true →
    ∃ t ∈ units, targetLabel? d.inst = some (labelName t) ∧
      d.unit + d.units + branchOffset bs x.opcode = t)

theorem dis_end (hdis : DisassemblerSpec dis) (hlen : bytes.length ≤ 8 * u) :
    dis (unitBytes bytes u) = none := by
  cases hd : dis (unitBytes bytes u) with
  | none => rfl
  | some x =>
    obtain ⟨hsize, hle⟩ := hdis.size _ _ hd
    rw [unitBytes, List.length_drop] at hle
    omega

/-- Where something has been decoded, the rest has been too, and a call there is not a local one. -/
theorem decode_next (hdis : DisassemblerSpec dis) {x : Disassembled}
    (hx : dis (unitBytes bytes u) = some x) {fuel : Nat} {insns : List DecodedInsn}
    (h : decode dis bytes fuel (8 * u) = .ok insns) :
    (x.opcode = .JAL → srcField (unitBytes bytes u) ≠ 1) ∧
      ∃ fuel' rest, decode dis bytes fuel' (8 * (u + x.size / 8)) = .ok rest := by
  obtain ⟨hsize, hle⟩ := hdis.size _ _ hx
  rw [unitBytes, List.length_drop] at hle
  have hlen : ¬bytes.length ≤ 8 * u := by omega
  have hoff : 8 * u + x.size = 8 * (u + x.size / 8) := by omega
  unfold decode at h
  rw [if_neg hlen] at h
  cases fuel with
  | zero => cases h
  | succ fuel =>
    simp only [show dis (bytes.drop (8 * u)) = some x from hx, show ¬x.size = 0 by omega, if_false] at h
    split at h
    · cases h
    rename_i hlocal
    rw [hoff] at h
    cases hr : decode dis bytes fuel (8 * (u + x.size / 8)) with
    | error e =>
      rw [hr] at h
      cases h
    | ok rest =>
      refine ⟨fun hop hsrc => hlocal ⟨hop, ?_⟩, fuel, rest, hr⟩
      rw [srcField, unitBytes, List.getD_eq_getElem?_getD, List.getElem?_drop] at hsrc
      rw [List.getD_eq_getElem?_getD]
      exact hsrc

theorem decode_chain (hdis : DisassemblerSpec dis) {fuel : Nat}
    (h : decode dis bytes fuel (8 * u) = .ok ds) : Chain dis bytes Decoded u ds := by
  induction fuel generalizing u ds with
  | zero =>
    unfold decode at h
    split at h
    · cases h
      exact .nil (dis_end hdis (by assumption))
    · cases h
  | succ fuel ih =>
    unfold decode at h
    by_cases hlen : bytes.length ≤ 8 * u
    · rw [if_pos hlen] at h
      cases h
      exact .nil (dis_end hdis hlen)
    rw [if_neg hlen] at h
    cases hd : dis (bytes.drop (8 * u)) with
    | none =>
      rw [hd] at h
      cases h
    | some x =>
      have hsize := (hdis.size _ _ hd).1
      simp only [hd, show ¬ x.size = 0 by omega, if_false] at h
      split at h
      · cases h
      have hoff : 8 * u + x.size = 8 * (u + x.size / 8) := by omega
      rw [hoff] at h
      cases hr : decode dis bytes fuel (8 * (u + x.size / 8)) with
      | error e =>
        rw [hr] at h
        cases h
      | ok rest =>
        rw [hr] at h
        cases h
        have hu : 8 * u / 8 = u := by omega
        refine .cons hd hu rfl ?_ ⟨rfl, rfl, rfl⟩ (ih hr)
        show 0 < x.size / 8
        omega

theorem sext_set {I I' : MCInst} {idx bits : Nat} (h : I.sext idx bits = .ok I') :
    I'.opcode = I.opcode ∧ I'.place = I.place ∧ (I'.operands = I.operands ∨
      ∃ v w, I.operands[idx]? = some (.imm v) ∧ I'.operands = I.operands.set idx (.imm w)) := by
  unfold MCInst.sext at h
  cases hop : I.getOperand idx with
  | error e =>
    rw [hop] at h
    cases h
  | ok op =>
    rw [hop] at h
    have hget := getOperand_ok.mp hop
    cases op with
    | imm v =>
      cases h
      exact ⟨rfl, rfl, Or.inr ⟨v, _, hget, rfl⟩⟩
    | reg r =>
      cases h
      exact ⟨rfl, rfl, Or.inl rfl⟩
    | expr e =>
      cases h
      exact ⟨rfl, rfl, Or.inl rfl⟩

theorem sext_last {I : MCInst} {pre : List MCOperand} {v : Int} (hI : I.operands = pre ++ [.imm v])
    {bs : List (BitVec 8)} {op : Opcode} (hv : OffsetOperand bs op v) :
    I.sext pre.length (if op = .JMPL then 32 else 16) =
      .ok { I with operands := pre ++ [.imm (branchOffset bs op)] } := by
  have hget : I.getOperand pre.length = .ok (.imm v) := by
    rw [getOperand_ok, hI]
    simp
  unfold MCInst.sext
  rw [hget]
  unfold OffsetOperand at hv
  unfold branchOffset
  by_cases hop : op = .JMPL
  · rw [if_pos hop] at hv
    simp [hop, hI, ← hv, BitVec.toInt_ofInt, bind, Except.bind, pure, Except.pure]
  · rw [if_neg hop] at hv
    simp [hop, hI, ← hv, BitVec.toInt_ofInt, bind, Except.bind, pure, Except.pure]

theorem signExtendImms_preserves {P : MCInst → Prop}
    (hP : ∀ (J J' : MCInst) (idx bits : Nat), J.sext idx bits = .ok J' → P J → P J') {I I' : MCInst}
    (h : signExtendImms I = .ok I') (hI : P I) : P I' := by
  have hbind : ∀ {m : Except LiftError MCInst} {idx : Nat} {bits : MCInst → Nat},
      (m >>= fun J => J.sext idx (bits J)) = .ok I' → (∀ J, m = .ok J → P J) → P I' := by
    intro m idx bits hm hJ
    obtain ⟨J, hok, hm⟩ := except_bind_ok hm
    exact hP _ _ _ _ hm (hJ J hok)
  unfold signExtendImms at h
  simp only at h
  split at h
  · cases h
    exact hI
  split at h
  · refine hbind h fun J hJ => ?_
    split at hJ
    · exact hP _ _ _ _ hJ hI
    · cases hJ
      exact hI
  split at h
  · exact hP _ _ _ _ h hI
  split at h
  all_goals first | exact hP _ _ _ _ h hI | exact hbind h fun J hJ => hP _ _ _ _ hJ hI

theorem signExtendImms_same {I I' : MCInst} (h : signExtendImms I = .ok I') :
    I'.opcode = I.opcode ∧ I'.place = I.place := by
  refine signExtendImms_preserves (P := fun J => J.opcode = I.opcode ∧ J.place = I.place) ?_ h ⟨rfl, rfl⟩
  intro J J' idx bits hJ hsame
  obtain ⟨hop, hpl, _⟩ := sext_set hJ
  exact ⟨hop.trans hsame.1, hpl.trans hsame.2⟩

theorem sext_one {I J : MCInst} {pre : List MCOperand} {o : MCOperand}
    (hI : I.operands = pre ++ [o]) (hpre : ∀ a ∈ pre, a.isExpr = false)
    (h : (if I.operands.length = 3 then I.sext 1 32 else .ok I) = .ok J) :
    J.opcode = I.opcode ∧ ∃ pre', J.operands = pre' ++ [o] ∧ pre'.length = pre.length ∧
      ∀ a ∈ pre', a.isExpr = false := by
  split at h
  · rename_i hlen
    have hpl : pre.length = 2 := by
      rw [hI, List.length_append, List.length_singleton] at hlen
      omega
    obtain ⟨hop, _, hJ | ⟨v, w, _, hJ⟩⟩ := sext_set h
    · exact ⟨hop, pre, hJ.trans hI, rfl, hpre⟩
    · refine ⟨hop, pre.set 1 (.imm w), ?_, List.length_set, fun a ha => ?_⟩
      · rw [hJ, hI, List.set_append_left _ _ (by omega)]
      · rcases List.mem_or_eq_of_mem_set ha with ha | rfl
        · exact hpre a ha
        · rfl
  · cases h
    exact ⟨rfl, pre, hI, rfl, hpre⟩

theorem signExtendImms_extended (hdis : DisassemblerSpec dis) {bs : List (BitVec 8)}
    {x : Disassembled} {d : DecodedInsn} {I : MCInst} (hx : dis bs = some x) (hd : Decoded bs x d)
    (h : signExtendImms d.inst = .ok I) : Extended bs x { d with inst := I } := by
  obtain ⟨hop, hpl, hoperands⟩ := hd
  obtain ⟨hop', hpl'⟩ := signExtendImms_same h
  refine ⟨hop'.trans hop, hpl'.trans hpl, fun hbr => ?_⟩
  obtain ⟨pre, v, hv, hpre, hoff⟩ := hdis.branch _ _ hx hbr
  have hlen : d.inst.operands.length = pre.length + 1 := by simp [hoperands, hv]
  have hkind : x.opcode ≠ .LD_imm64 ∧ x.opcode ≠ .NOP := by
    constructor <;> intro heq <;> rw [heq] at hbr <;> cases hbr
  unfold signExtendImms at h
  simp only [hkind, hop, hbr, hlen, Nat.succ_ne_zero, or_self, if_false, if_true,
    Nat.add_sub_cancel] at h
  rw [← hlen] at h
  cases hone : (if d.inst.operands.length = 3 then d.inst.sext 1 32 else .ok d.inst) with
  | error e =>
    rw [hone] at h
    cases h
  | ok J =>
    obtain ⟨hJop, pre', hJ, hlen', hpre'⟩ := sext_one (hoperands.trans hv) hpre hone
    have hlast := sext_last hJ hoff
    simp only [hone, bind, Except.bind, hJop, hop] at h
    rw [hlen', h] at hlast
    have hI := Except.ok.inj hlast
    exact ⟨pre', by rw [hI], hpre'⟩

section target

variable {bs : List (BitVec 8)} {x : Disassembled} {d d' : DecodedInsn} {insns : List DecodedInsn}

theorem branchTargetUnit_extended (hd : Extended bs x d) (hbr : x.opcode.isBranch = true) :
    branchTargetUnit d = .ok (d.unit + d.units + branchOffset bs x.opcode) := by
  obtain ⟨pre, hoperands, _⟩ := hd.2.2 hbr
  have hget : d.inst.getOperand (d.inst.operands.length - 1) =
      .ok (.imm (branchOffset bs x.opcode)) := by
    rw [getOperand_ok, hoperands]
    simp
  unfold branchTargetUnit
  rw [hget]
  rfl

theorem targetLabel_set {I : MCInst} {pre : List MCOperand} {v : Int} {l : String}
    (hI : I.operands = pre ++ [.imm v]) (hpre : ∀ a ∈ pre, a.isExpr = false) :
    targetLabel? { I with
      operands := I.operands.set (I.operands.length - 1) (.expr (.symbolRef l)) } = some l := by
  have hset : I.operands.set (I.operands.length - 1) (.expr (.symbolRef l)) =
      pre ++ [.expr (.symbolRef l)] := by
    rw [hI]
    simp
  unfold targetLabel?
  simp only [hset, List.findSome?_append, List.findSome?_cons]
  rw [Option.or_eq_some_iff]
  refine Or.inr ⟨List.findSome?_eq_none_iff.mpr fun a ha => ?_, rfl⟩
  have := hpre a ha
  cases a with
  | expr e => cases this
  | _ => rfl

theorem rewriteTarget_targeted (hd : Extended bs x d) (h : rewriteTarget insns d = .ok d') :
    d'.unit = d.unit ∧ d'.units = d.units ∧ Targeted (insns.map (·.unit)) bs x d' := by
  obtain ⟨hop, hpl, hoperands⟩ := hd
  unfold rewriteTarget at h
  by_cases hbr : x.opcode.isBranch = true
  · obtain ⟨pre, hlast, hpre⟩ := hoperands hbr
    rw [if_pos (hop ▸ hbr), branchTargetUnit_extended ⟨hop, hpl, hoperands⟩ hbr] at h
    simp only [bind, Except.bind] at h
    split at h
    · rename_i htgt
      obtain ⟨hpos, e, he, hunit⟩ := htgt
      cases h
      refine ⟨rfl, rfl, hop, hpl, fun _ => ⟨_, List.mem_map_of_mem he, ?_, ?_⟩⟩
      · rw [hunit]
        exact targetLabel_set hlast hpre
      · rw [hunit]
        exact (Int.toNat_of_nonneg hpos).symm
    · cases h
  · rw [if_neg (hop ▸ hbr)] at h
    cases h
    exact ⟨rfl, rfl, hop, hpl, fun h => absurd h hbr⟩

theorem mem_leadersOf {ls : List Nat} (hd : Extended bs x d) (h : leadersOf d = .ok ls) :
    (x.opcode.isTerminator = true → d.unit + d.units ∈ ls) ∧ ∀ t : Nat, x.opcode.isBranch = true →
      d.unit + d.units + branchOffset bs x.opcode = t → t ∈ ls := by
  unfold leadersOf at h
  rw [hd.1] at h
  by_cases hbr : x.opcode.isBranch = true
  · rw [if_pos hbr, branchTargetUnit_extended hd hbr] at h
    cases h
    refine ⟨fun _ => List.mem_append_right _ (List.mem_singleton.mpr rfl), fun t _ ht => ?_⟩
    simp [ht]
  · rw [if_neg hbr] at h
    refine ⟨fun hterm => ?_, fun t h => absurd h hbr⟩
    have hret : x.opcode.isReturn = true := by
      unfold Opcode.isTerminator at hterm
      simpa [hbr, Opcode.isReturn] using hterm
    rw [if_pos hret] at h
    cases h
    exact List.mem_singleton.mpr rfl

end target

theorem blocksOfInsns_ok {insns : List DecodedInsn} {BBs : List MCBasicBlock}
    (h : blocksOfInsns insns = .ok BBs) : ∃ leaders ds,
      List.Forall₂ (fun d d' => rewriteTarget insns d = .ok d') insns ds ∧
      (∀ d ∈ insns, ∃ ls, leadersOf d = .ok ls ∧ ∀ l ∈ ls, l ∈ leaders) ∧
      BBs = (ds.foldl (fillBlock leaders) {}).BBs := by
  unfold blocksOfInsns at h
  cases hl : insns.mapM leadersOf with
  | error e => rw [hl] at h; cases h
  | ok lss =>
    cases hr : insns.mapM (rewriteTarget insns) with
    | error e => simp only [hl, hr, bind, Except.bind] at h; cases h
    | ok ds =>
      simp only [hl, hr, bind, Except.bind] at h
      cases h
      refine ⟨_, ds, mapM_except_ok hr, fun d hd => ?_, rfl⟩
      obtain ⟨i, hi⟩ := List.getElem?_of_mem hd
      obtain ⟨hlt, rfl⟩ := List.getElem?_eq_some_iff.mp hi
      have hall := mapM_except_ok hl
      have hls := hall.get (i := i) hlt (hall.length_eq ▸ hlt)
      refine ⟨_, hls, fun l hl => List.mem_append_right _ ?_⟩
      exact List.mem_flatten_of_mem (List.get_mem _ _) hl

/-! ## Filling the blocks -/

theorem labelName_inj {j k : Nat} (h : labelName j = labelName k) : j = k := by
  refine toString_inj (String.toList_inj.mp ?_)
  have hl := congrArg String.toList h
  simpa only [labelName, String.toList_append, List.append_cancel_left_eq] using hl

theorem labelName_ne_entryName (k : Nat) : labelName k ≠ entryName := by
  intro h
  have hl := congrArg (fun s : String => s.toList.head?) h
  simp only [labelName, entryName, String.toList_append] at hl
  exact nomatch hl

/-- The blocks when the instructions `done` have been filled in. -/
structure FillInv (leaders : List Nat) (done : List DecodedInsn) (MF : MCFunction) : Prop where
  built : Built MF.BBs
  flat : flat MF.BBs = done.map (·.inst)
  nodup : (MF.BBs.map (·.name)).Nodup
  names : ∀ n ∈ MF.BBs.map (·.name), ∃ d ∈ done, n = labelName d.unit
  marks : ∀ (j : Nat) (d : DecodedInsn), done[j]? = some d → d.unit ∈ leaders →
    Marks MF.BBs (labelName d.unit) j
  isOpen : ∀ bs b, MF.BBs = bs ++ [b] → ∀ d, done.getLast? = some d →
    d.inst.opcode.isTerminator = false → ∀ J ∈ b.instrs, J.opcode.isTerminator = false
  started : done = [] ↔ MF.BBs = []

theorem fillInv_start (leaders : List Nat) : FillInv leaders [] {} where
  built := .nil
  flat := rfl
  nodup := List.nodup_nil
  names := fun _ h => nomatch h
  marks := fun _ _ h => nomatch h
  isOpen := fun bs b h => by simp at h
  started := ⟨fun _ => rfl, fun _ => rfl⟩

/-- An instruction goes into a block of its own, or to the end of the last block. -/
theorem fillBlock_eq (leaders : List Nat) (MF : MCFunction) (d : DecodedInsn) :
    (d.unit ∈ leaders ∨ MF.BBs = []) ∧ (fillBlock leaders MF d).BBs =
        MF.BBs ++ [{ name := labelName d.unit, instrs := [d.inst] }] ∨
      d.unit ∉ leaders ∧ ∃ bs b, MF.BBs = bs ++ [b] ∧
        (fillBlock leaders MF d).BBs = bs ++ [{ b with instrs := b.instrs ++ [d.inst] }] := by
  unfold fillBlock
  by_cases h : d.unit ∈ leaders ∨ MF.BBs = []
  · refine Or.inl ⟨h, ?_⟩
    rw [if_pos h]
    exact addInst_BBs (b := { name := labelName d.unit, instrs := [] }) rfl d.inst
  · rw [if_neg h]
    obtain ⟨hl, hne⟩ := not_or.mp h
    obtain ⟨bs, b, hbs⟩ := (List.eq_nil_or_concat' MF.BBs).resolve_left hne
    exact Or.inr ⟨hl, bs, b, hbs, addInst_BBs hbs _⟩

variable {leaders : List Nat} {done : List DecodedInsn} {MF : MCFunction} {d : DecodedInsn}

theorem FillInv.step (h : FillInv leaders done MF) (hplace : ∀ e ∈ done, e.inst.place ≠ none)
    (hnew : ∀ e ∈ done, e.unit ≠ d.unit)
    (hlead : ∀ e, done.getLast? = some e → e.inst.opcode.isTerminator = true → d.unit ∈ leaders) :
    FillInv leaders (done ++ [d]) (fillBlock leaders MF d) := by
  have hlen : (placed (BpfTv.flat MF.BBs)).length = done.length := by
    have hall : placed (BpfTv.flat MF.BBs) = BpfTv.flat MF.BBs := by
      refine List.filter_eq_self.mpr fun I hI => Option.isSome_iff_ne_none.mpr ?_
      rw [h.flat] at hI
      obtain ⟨e, he, rfl⟩ := List.mem_map.mp hI
      exact hplace e he
    rw [hall, h.flat, List.length_map]
  have hget : ∀ (j : Nat) (e : DecodedInsn), (done ++ [d])[j]? = some e →
      done[j]? = some e ∨ j = done.length ∧ e = d := by
    intro j e he
    by_cases hj : j < done.length
    · rw [List.getElem?_append_left hj] at he
      exact Or.inl he
    · have hj' := (List.getElem?_eq_some_iff.mp he).1
      rw [List.length_append, List.length_singleton] at hj'
      obtain rfl : j = done.length := by omega
      rw [List.getElem?_concat_length, Option.some.injEq] at he
      exact Or.inr ⟨rfl, he.symm⟩
  rcases fillBlock_eq leaders MF d with ⟨hopen, hB⟩ | ⟨hl, bs, b, hbs, hB⟩
  · refine ⟨?_, ?_, ?_, ?_, ?_, ?_, ?_⟩
    · rw [hB]
      exact h.built.openBlock _ _
    · rw [hB, flat_append, h.flat, List.map_append]
      rfl
    · rw [hB, List.map_append, List.nodup_append]
      refine ⟨h.nodup, by simp, fun n hn m hm => ?_⟩
      obtain rfl : m = labelName d.unit := by simpa using hm
      obtain ⟨e, he, rfl⟩ := h.names n hn
      exact fun heq => hnew e he (labelName_inj heq)
    · intro n hn
      rw [hB, List.map_append] at hn
      rcases List.mem_append.mp hn with hn | hn
      · obtain ⟨e, he, rfl⟩ := h.names n hn
        exact ⟨e, List.mem_append_left _ he, rfl⟩
      · exact ⟨d, by simp, by simpa using hn⟩
    · intro j e he hle
      rw [hB]
      rcases hget j e he with he | ⟨rfl, rfl⟩
      · exact (h.marks j e he hle).append _
      · exact hlen ▸ marks_new MF.BBs { name := labelName e.unit, instrs := [e.inst] }
    · intro bs b hb e he hterm J hJ
      rw [List.getLast?_concat, Option.some.injEq] at he
      obtain ⟨_, hb⟩ := List.append_inj' (hB.symm.trans hb) rfl
      obtain rfl := List.head_eq_of_cons_eq hb
      obtain rfl := List.mem_singleton.mp hJ
      rwa [he]
    · rw [hB]
      simp
  · -- a terminator would have made this instruction a leader
    have hterm : ∀ J ∈ b.instrs, J.opcode.isTerminator = false := by
      obtain ⟨e, he⟩ : ∃ e, done.getLast? = some e := by
        have hne : done ≠ [] := fun hd => by simp [h.started.mp hd] at hbs
        exact ⟨_, List.getLast?_eq_some_getLast hne⟩
      refine h.isOpen bs b hbs e he ?_
      by_contra hterm
      exact hl (hlead e he (by simpa using hterm))
    have hflat : BpfTv.flat (fillBlock leaders MF d).BBs = BpfTv.flat MF.BBs ++ [d.inst] := by
      rw [hB, hbs, flat_append, flat_append, List.append_assoc]
      simp [BpfTv.flat]
    have hnames : (fillBlock leaders MF d).BBs.map (·.name) = MF.BBs.map (·.name) := by
      rw [hB, hbs]
      simp
    refine ⟨?_, ?_, ?_, ?_, ?_, ?_, ?_⟩
    · rw [hB]
      exact .append d.inst (hbs ▸ h.built) hterm
    · rw [hflat, h.flat, List.map_append]
      rfl
    · exact hnames ▸ h.nodup
    · intro n hn
      rw [hnames] at hn
      obtain ⟨e, he, rfl⟩ := h.names n hn
      exact ⟨e, List.mem_append_left _ he, rfl⟩
    · intro j e he hle
      rcases hget j e he with he | ⟨rfl, rfl⟩
      · rw [hB]
        exact (hbs ▸ h.marks j e he hle).last rfl
      · exact absurd hle hl
    · intro bs' b' hb' e he hd J hJ
      rw [List.getLast?_concat, Option.some.injEq] at he
      obtain ⟨_, hb'⟩ := List.append_inj' (hB.symm.trans hb') rfl
      obtain rfl := List.head_eq_of_cons_eq hb'
      rcases List.mem_append.mp hJ with hJ | hJ
      · exact hterm J hJ
      · rw [List.mem_singleton.mp hJ, he]
        exact hd
    · rw [hB]
      simp

theorem FillInv.run {pre post : List DecodedInsn} (hds : ds = pre ++ post)
    (h : FillInv leaders pre MF) (hchain : Chain dis bytes P u ds)
    (hplace : ∀ e ∈ ds, e.inst.place ≠ none)
    (hlead : ∀ e ∈ ds, e.inst.opcode.isTerminator = true → e.unit + e.units ∈ leaders) :
    FillInv leaders ds (post.foldl (fillBlock leaders) MF) := by
  induction post generalizing pre MF with
  | nil =>
    obtain rfl : ds = pre := by simpa using hds
    exact h
  | cons d post ih =>
    have hmem : ∀ e ∈ pre, e ∈ ds := fun e he => hds ▸ List.mem_append_left _ he
    obtain ⟨hnew, hprev⟩ := hchain.prev hds
    refine ih (by rw [hds, List.append_assoc]; rfl) (h.step (fun e he => hplace e (hmem e he)) hnew ?_)
    intro e he hterm
    rw [← hprev e he]
    exact hlead e (hmem e (List.mem_of_getLast? he)) hterm

/-! ## The blocks of the program -/

/-- An instruction as it is put into a block: its target is an instruction, and the leaders hold
that target and what is behind a terminator. -/
def Filled (units leaders : List Nat) (bs : List (BitVec 8)) (x : Disassembled) (d : DecodedInsn) :
    Prop :=
  Targeted units bs x d ∧ (x.opcode.isTerminator = true → d.unit + d.units ∈ leaders) ∧
    ∀ t : Nat, x.opcode.isBranch = true → d.unit + d.units + branchOffset bs x.opcode = t →
      t ∈ leaders

theorem Chain.exists_mem (h : Chain dis bytes P u ds) : ∀ d ∈ ds, ∃ bs x, P bs x d := by
  induction h with
  | nil _ => exact fun d hd => nomatch hd
  | cons _ _ _ _ hd _ ih => exact List.forall_mem_cons.mpr ⟨⟨_, _, hd⟩, ih⟩

theorem rewriteTarget_unit {insns : List DecodedInsn} {d' : DecodedInsn}
    (h : rewriteTarget insns d = .ok d') : d'.unit = d.unit := by
  unfold rewriteTarget at h
  split at h
  · cases ht : branchTargetUnit d with
    | error e => rw [ht] at h; cases h
    | ok t =>
      simp only [ht, bind, Except.bind] at h
      split at h <;> cases h
      rfl
  · cases h
    rfl

/-- What `runBytes` puts into the blocks. -/
theorem blocksOfInsns_filled {insns : List DecodedInsn} {BBs : List MCBasicBlock}
    (hchain : Chain dis bytes Extended u insns) (h : blocksOfInsns insns = .ok BBs) :
    ∃ leaders ds MF, List.Forall₂ (fun d d' => rewriteTarget insns d = .ok d') insns ds ∧
      Chain dis bytes (Filled (ds.map (·.unit)) leaders) u ds ∧ FillInv leaders ds MF ∧ BBs = MF.BBs := by
  obtain ⟨leaders, ds, hall, hlead, rfl⟩ := blocksOfInsns_ok h
  have hunits : insns.map (·.unit) = ds.map (·.unit) := by
    refine List.forall₂_eq_eq_eq ▸ ?_
    rw [List.forall₂_map_left_iff, List.forall₂_map_right_iff]
    exact hall.imp fun d d' hd => (rewriteTarget_unit hd).symm
  have hfilled : Chain dis bytes (Filled (ds.map (·.unit)) leaders) u ds := by
    refine hchain.map (List.forall₂_and_left _ _ |>.mpr ⟨hlead, hall⟩) fun bs x d d' _ hd hext => ?_
    obtain ⟨⟨ls, hls, hsub⟩, hrw⟩ := hd
    obtain ⟨hunit, hunits', htgt⟩ := rewriteTarget_targeted hext hrw
    obtain ⟨hterm, hbranch⟩ := mem_leadersOf hext hls
    refine ⟨hunit, hunits', hunits ▸ htgt, ?_, ?_⟩
    · rw [hunit, hunits']
      exact fun ht => hsub _ (hterm ht)
    · rw [hunit, hunits']
      exact fun t hbr ht => hsub _ (hbranch t hbr ht)
  refine ⟨leaders, ds, _, hall, hfilled, ?_, rfl⟩
  refine (fillInv_start leaders).run rfl hfilled (fun e he => ?_) fun e he ht => ?_
  · obtain ⟨bs, x, ⟨_, hpl, _⟩, _⟩ := hfilled.exists_mem e he
    simp [hpl]
  · obtain ⟨bs, x, ⟨hop, _⟩, hterm, _⟩ := hfilled.exists_mem e he
    exact hterm (hop ▸ ht)

section blocks

variable (hchain : Chain dis bytes (Filled (ds.map (·.unit)) leaders) 0 ds)
  (h : FillInv leaders ds MF)
include hchain h

theorem placed_flat : placed (flat MF.BBs) = ds.map (·.inst) := by
  rw [← h.flat]
  refine List.filter_eq_self.mpr fun I hI => ?_
  rw [h.flat] at hI
  obtain ⟨d, hd, rfl⟩ := List.mem_map.mp hI
  obtain ⟨_, _, ⟨_, hpl, _⟩, _⟩ := hchain.exists_mem d hd
  simp [hpl]

omit hchain in
/-- The target of a branch starts a block. -/
theorem bytes_target {bs : List (BitVec 8)} {x : Disassembled}
    (hd : Filled (ds.map (·.unit)) leaders bs x d) (hbr : x.opcode.isBranch = true) :
    ∃ j e, ds[j]? = some e ∧ targetLabel? d.inst = some (labelName e.unit) ∧
      d.unit + d.units + branchOffset bs x.opcode = e.unit ∧ Marks MF.BBs (labelName e.unit) j := by
  obtain ⟨⟨_, _, htgt⟩, _, hlead⟩ := hd
  obtain ⟨t, ht, hlabel, htarget⟩ := htgt hbr
  obtain ⟨e, he, rfl⟩ := List.mem_map.mp ht
  obtain ⟨j, hj⟩ := List.getElem?_of_mem he
  exact ⟨j, e, hj, hlabel, htarget, h.marks j e hj (hlead _ hbr htarget)⟩

theorem bytes_shaped : Shaped (checkEntryBlock (removeEmptyBlocks MF.BBs)) := by
  have hinst : ∀ I ∈ flat MF.BBs, ∃ d ∈ ds, d.inst = I := fun I hI => by
    rw [h.flat] at hI
    exact List.mem_map.mp hI
  refine shaped_of_built h.built h.nodup ?_ ?_ ?_
  · intro hmem
    obtain ⟨d, _, hd⟩ := h.names _ hmem
    exact labelName_ne_entryName _ hd.symm
  · intro I hI hp
    obtain ⟨d, hd, rfl⟩ := hinst I hI
    obtain ⟨_, _, ⟨_, hpl, _⟩, _⟩ := hchain.exists_mem d hd
    rw [hpl] at hp
    cases hp
  · intro I hI hbr
    obtain ⟨d, hd, rfl⟩ := hinst I hI
    obtain ⟨_, _, hfill⟩ := hchain.exists_mem d hd
    obtain ⟨_, e, _, hlabel, _, k, b, hb, hname, _⟩ := bytes_target h hfill (hfill.1.1 ▸ hbr)
    exact ⟨_, hname ▸ List.mem_map_of_mem (List.mem_of_getElem? hb), hlabel⟩

/-- The BPF machine walks along the blocks. -/
theorem bytes_follows : Follows (bpfFlow dis bytes) unitObs
    (checkEntryBlock (removeEmptyBlocks MF.BBs))
    fun u is => ∃ (n : Nat) (rest : List DecodedInsn), u = n ∧
      Chain dis bytes (Filled (ds.map (·.unit)) leaders) n rest ∧ is = rest.map (·.inst) := by
  have hshape := bytes_shaped hchain h
  have hkeep := h.built.removeEmptyBlocks_eq
  have htarget : ∀ {bs : List (BitVec 8)} {x : Disassembled} {d : DecodedInsn} {l : String} {b : Nat},
      Filled (ds.map (·.unit)) leaders bs x d → x.opcode.isBranch = true →
      targetLabel? d.inst = some l →
      findBlockByName (checkEntryBlock (removeEmptyBlocks MF.BBs)) l = some b →
      ∃ (n : Nat) (rest : List DecodedInsn),
        d.unit + d.units + branchOffset bs x.opcode = n ∧
        Chain dis bytes (Filled (ds.map (·.unit)) leaders) n rest ∧
        restAt (checkEntryBlock (removeEmptyBlocks MF.BBs)) b = rest.map (·.inst) := by
    intro bs x d l b hfill hbr hl hb
    obtain ⟨j, e, hj, hlabel, htarget, hm⟩ := bytes_target h hfill hbr
    obtain rfl : l = labelName e.unit := Option.some.inj (hl.symm.trans hlabel)
    refine ⟨e.unit, ds.drop j, htarget, hchain.drop hj, ?_⟩
    rw [hkeep] at hshape hb ⊢
    rw [restAt_of_marks hshape.names (marks_entry hm) hb, List.map_drop, ← placed_flat hchain h]
    rfl
  have hhead : ∀ (k : Int) (I : MCInst) (is : List MCInst), (∃ (n : Nat) (rest : List DecodedInsn),
      k = n ∧ Chain dis bytes (Filled (ds.map (·.unit)) leaders) n rest ∧
        I :: is = rest.map (·.inst)) →
      ∃ (x : Disassembled) (d : DecodedInsn) (rest : List DecodedInsn), k = d.unit ∧ I = d.inst ∧
        dis (unitBytes bytes d.unit) = some x ∧ d.units = x.size / 8 ∧
        Filled (ds.map (·.unit)) leaders (unitBytes bytes d.unit) x d ∧
        Chain dis bytes (Filled (ds.map (·.unit)) leaders) (d.unit + d.units) rest ∧
        is = rest.map (·.inst) := by
    rintro k I is ⟨n, rest, rfl, hrest, heq⟩
    cases hrest with
    | nil _ => cases heq
    | cons hx hunit hunits _ hd hrest =>
      obtain ⟨rfl, rfl⟩ := List.cons_eq_cons.mp heq
      subst hunit
      exact ⟨_, _, _, rfl, rfl, hx, hunits, hd, hrest, rfl⟩
  refine ⟨?_, ?_, ?_, ?_, ?_, ?_⟩
  · rintro k ⟨n, rest, rfl, hrest, heq⟩
    cases hrest with
    | nil hx => simp [bpfFlow, hx]
    | cons _ _ _ _ _ _ => cases heq
  · intro k I is hat
    obtain ⟨x, d, rest, rfl, rfl, hx, _, ⟨⟨hop, hpl, _⟩, _⟩, _⟩ := hhead k I is hat
    simp [bpfFlow, hx, unitObs, hop, hpl]
  · intro k I is hat ht
    obtain ⟨x, d, rest, rfl, rfl, hx, hunits, ⟨⟨hop, _⟩, _⟩, hrest, rfl⟩ := hhead k I is hat
    obtain ⟨hc, hu, hr⟩ := Opcode.straight_flags ht
    refine ⟨d.unit + d.units, ?_, _, _, by push_cast; rfl, hrest, rfl⟩
    rw [hop] at hc hu hr
    simp [bpfFlow, hx, hc, hu, hr, hunits]
  · intro k I is hat hr
    obtain ⟨x, d, rest, rfl, rfl, hx, hunits, ⟨⟨hop, _⟩, _⟩, hrest, rfl⟩ := hhead k I is hat
    rw [hop] at hr
    simp [bpfFlow, hx, hr]
  · intro k I is l b hat hu hl hb
    obtain ⟨x, d, rest, rfl, rfl, hx, hunits, hfill, hrest, rfl⟩ := hhead k I is hat
    obtain ⟨_, hc, hr⟩ := Opcode.jump_flags hu
    rw [hfill.1.1] at hc hu hr
    obtain ⟨n, rest', hn, hrest', hat'⟩ :=
      htarget hfill (by rw [Opcode.isBranch_eq, hu, Bool.or_true]) hl hb
    refine ⟨n, ?_, n, rest', rfl, hrest', hat'⟩
    rw [← hn]
    simp [bpfFlow, hx, hc, hu, hr, hunits]
  · intro k I is l b hat hc hl hb
    obtain ⟨x, d, rest, rfl, rfl, hx, hunits, hfill, hrest, rfl⟩ := hhead k I is hat
    obtain ⟨_, hu, hr⟩ := Opcode.cond_flags hc
    rw [hfill.1.1] at hc hu hr
    obtain ⟨n, rest', hn, hrest', hat'⟩ :=
      htarget hfill (by rw [Opcode.isBranch_eq, hc, Bool.true_or]) hl hb
    refine ⟨n, d.unit + d.units, ?_, ⟨n, rest', rfl, hrest', hat'⟩,
      ⟨_, _, by push_cast; rfl, hrest, rfl⟩⟩
    rw [← hn]
    simp [bpfFlow, hx, hc, hr, hunits]

end blocks

theorem decodeProgram_chain (hdis : DisassemblerSpec dis)
    (h : decodeProgram dis bytes = .ok ds) : Chain dis bytes Extended 0 ds ∧ ds ≠ [] := by
  unfold decodeProgram at h
  cases hd : decode dis bytes bytes.length 0 with
  | error e =>
    rw [hd] at h
    cases h
  | ok insns =>
    simp only [hd, bind, Except.bind] at h
    split at h
    · cases h
    rename_i hne
    have hall := mapM_except_ok h
    refine ⟨(decode_chain (u := 0) hdis hd).map hall fun bs x d d' hx hd' hdec => ?_, ?_⟩
    · cases hI : signExtendImms d.inst with
      | error e =>
        rw [hI] at hd'
        cases hd'
      | ok I =>
        rw [hI] at hd'
        cases hd'
        exact ⟨rfl, rfl, signExtendImms_extended hdis hx hdec hI⟩
    · rintro rfl
      cases hall
      exact hne rfl

/-- The blocks of a byte program, and the function that was lifted from them. -/
theorem runBytes_wired {env : Env} {F : LFunction} (hdis : DisassemblerSpec dis)
    (hF : runBytes env dis bytes = .ok F) : ∃ insns leaders ds MF,
      decodeProgram dis bytes = .ok insns ∧
      List.Forall₂ (fun d d' => rewriteTarget insns d = .ok d') insns ds ∧
      Chain dis bytes (Filled (ds.map (·.unit)) leaders) 0 ds ∧ FillInv leaders ds MF ∧
      Wired (checkEntryBlock (removeEmptyBlocks MF.BBs)) F := by
  unfold runBytes at hF
  cases hinsns : decodeProgram dis bytes with
  | error e => rw [hinsns] at hF; cases hF
  | ok insns =>
    cases hBBs : blocksOfInsns insns with
    | error e => simp only [hinsns, hBBs, bind, Except.bind] at hF; cases hF
    | ok BBs =>
      obtain ⟨leaders, ds, MF, hall, hchain, hinv, rfl⟩ :=
        blocksOfInsns_filled (decodeProgram_chain hdis hinsns).1 hBBs
      simp only [hinsns, hBBs, bind, Except.bind] at hF
      cases hM : generateSuccessors (checkEntryBlock (removeEmptyBlocks MF.BBs)) with
      | error e => rw [hM] at hF; cases hF
      | ok MBBs =>
        rw [hM] at hF
        exact ⟨insns, leaders, ds, MF, rfl, hall, hchain, hinv, wired (bytes_shaped hchain hinv) hM hF⟩

theorem stands_init {MF : MCFunction} {leaders : List Nat}
    (hchain : Chain dis bytes (Filled (ds.map (·.unit)) leaders) 0 ds) (hinv : FillInv leaders ds MF) :
    Stands (checkEntryBlock (removeEmptyBlocks MF.BBs)) (ds.map (·.inst)) .init := by
  have hkeep := hinv.built.removeEmptyBlocks_eq
  show ds.map (·.inst) = restAt _ 0
  rw [hkeep, ← placed_flat hchain hinv]
  rfl

/-- **Bytes-mode control flow.** Nothing leads to the entry block of the lifted function, and as
long as control does not run past the last instruction the lifted function executes what the BPF
machine does. -/
theorem bytes_control_flow (env : Env) (dis : Disassembler) (bytes : List (BitVec 8))
    (hdis : DisassemblerSpec dis) (F : LFunction) (hF : runBytes env dis bytes = .ok F) :
    (∀ r ∈ F.regions, ∀ t ∈ exits r, 0 ∉ t.dests) ∧
      ∀ ω, (bpfFlow dis bytes).Inside ω 0 →
        (F.flow unitObs).traces ω .init = (bpfFlow dis bytes).traces ω 0 := by
  obtain ⟨_, leaders, ds, MF, _, _, hchain, hinv, hw⟩ := runBytes_wired hdis hF
  have hshape := bytes_shaped hchain hinv
  refine ⟨entry_no_pred hshape hw, fun ω hin => ?_⟩
  have hsim := wired_sim hshape hw (bytes_follows hchain hinv)
  exact hsim.traces_eq (Or.inr ⟨_, ⟨0, ds, rfl, hchain, rfl⟩, stands_init hchain hinv⟩) hin

/-! ## A loop -/

/-- The instructions of the loop below, as LLVM disassembles them. -/
def loopDisassembler : Disassembler := fun bs =>
  if bs.length < 8 then
    none
  else if bs.head? = some 0x18 then
    if bs.length < 16 then none else some ⟨.LD_imm64, [.reg (.R 1), .imm (field bs 4 4)], 16⟩
  else if bs.head? = some 0x55 then
    some ⟨.JNE_ri, [.reg (.R 1), .imm (field bs 4 4), .imm (field bs 2 2)], 8⟩
  else if bs.head? = some 0x95 then
    some ⟨.RET, [], 8⟩
  else
    none

theorem loopDisassembler_spec : DisassemblerSpec loopDisassembler where
  size bs d h := by
    unfold loopDisassembler at h
    split at h
    · cases h
    split at h
    · split at h <;> cases h
      exact ⟨Or.inr rfl, Nat.not_lt.mp ‹¬ bs.length < 16›⟩
    split at h
    · cases h
      exact ⟨Or.inl rfl, Nat.not_lt.mp ‹¬ bs.length < 8›⟩
    split at h <;> cases h
    exact ⟨Or.inl rfl, Nat.not_lt.mp ‹¬ bs.length < 8›⟩
  branch bs d h hbr := by
    unfold loopDisassembler at h
    split at h
    · cases h
    split at h
    · split at h <;> cases h
      cases hbr
    split at h
    · cases h
      refine ⟨[.reg (.R 1), .imm (field bs 4 4)], field bs 2 2, rfl, by simp [MCOperand.isExpr], ?_⟩
      simp [OffsetOperand]
    split at h <;> cases h
    cases hbr

/-- `r1 = 0 ll; if r1 != 0 goto -3; exit`. -/
def loopBytes : List (BitVec 8) :=
  [0x18, 0x01, 0, 0, 0, 0, 0, 0, 0, 0, 0, 0, 0, 0, 0, 0,
    0x55, 0x01, 0xfd, 0xff, 0, 0, 0, 0,
    0x95, 0, 0, 0, 0, 0, 0, 0]

theorem loopBytes_inside : (bpfFlow loopDisassembler loopBytes).Inside once 0 := by
  have hgoto : (bpfFlow loopDisassembler loopBytes).exit 0 = .goto 2 := by decide +kernel
  have hcond : (bpfFlow loopDisassembler loopBytes).exit 2 = .cond 0 3 := by decide +kernel
  have hstop : (bpfFlow loopDisassembler loopBytes).exit 3 = .stop := by decide +kernel
  have htaken : (if once 0 then (0 : Int) else 3) = 0 := by decide
  have hleft : (if once (0 + 1) then (0 : Int) else 3) = 3 := by decide
  intro n
  match n with
  | 0 => exact nofun
  | 1 => rw [Flow.run_goto hgoto]; exact nofun
  | 2 => rw [Flow.run_goto hgoto, Flow.run_cond hcond]; exact nofun
  | 3 => rw [Flow.run_goto hgoto, Flow.run_cond hcond, htaken, Flow.run_goto hgoto]; exact nofun
  | 4 =>
    rw [Flow.run_goto hgoto, Flow.run_cond hcond, htaken, Flow.run_goto hgoto, Flow.run_cond hcond]
    exact nofun
  | n + 5 =>
    rw [Flow.run_goto hgoto, Flow.run_cond hcond, htaken, Flow.run_goto hgoto, Flow.run_cond hcond,
      hleft, Flow.run_stop hstop]
    exact nofun

/-- The theorem at the loop: the backward jump goes to unit 0. -/
theorem bytes_control_flow_loop : ∃ F : LFunction,
    (F.flow unitObs).traces once .init = (bpfFlow loopDisassembler loopBytes).traces once 0 := by
  have hF : (runBytes { module := ⟨"loop", ⟨.void, []⟩, [], [], []⟩ } loopDisassembler
      loopBytes).toOption.isSome = true := by decide +kernel
  obtain ⟨F, hF⟩ := ok_of_isSome hF
  exact ⟨F, (bytes_control_flow _ _ _ loopDisassembler_spec F hF).2 once loopBytes_inside⟩

end BpfTv
