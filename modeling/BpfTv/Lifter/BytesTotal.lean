import BpfTv.Lifter.BytesMode

/-!
# Byte programs and fuel

Two loops of the model have fuel. The decoder's reads bytes in each iteration, so its fuel suffices; that of
`lookupGlobal` may go on for ever. A byte program names no symbol, so lifting it looks no global up, and
`runBytes` never runs out of fuel (`runBytes_total`).
-/

namespace BpfTv

variable {α β : Type} {env : Env} {I : MCInst} {dis : Disassembler} {bytes : List (BitVec 8)}
  {insns ds : List DecodedInsn} {BBs : List MCBasicBlock}

/-- No operand is a symbol. -/
def MCInst.NoSymbol (I : MCInst) : Prop := ∀ a ∈ I.operands, a.isExpr = false

/-- The instructions that may look a global up have no symbol to look up. -/
def MCInst.LooksNothing (I : MCInst) : Prop := I.opcode = .LD_imm64 ∨ I.opcode = .JAL → I.NoSymbol

/-- Bytes have no symbols: the disassembler gives registers and immediates. -/
def Disassembler.NoSymbols (dis : Disassembler) : Prop :=
  ∀ bs d, dis bs = some d → ∀ a ∈ d.operands, a.isExpr = false

/-! ## Lifting -/

/-- The errors of code that comes to its end. -/
def ended : Set LiftError := {e | e ≠ .outOfFuel}

/-- The action does not run out of fuel. -/
abbrev Ends (m : LiftM α) : Prop := Sat (fun _ _ => True) ended m fun _ => True

theorem ends_blocks : Blocks (fun _ _ => True) ended :=
  Moves.blocks
    { refl := fun _ => trivial, trans := fun _ _ _ _ _ => trivial, push := fun _ _ _ _ => trivial
      pushUnspec := fun _ _ _ _ => trivial, close := fun _ _ _ => trivial, newBlock := fun _ => trivial
      setBlock := fun _ _ => trivial }
    (fun _ => nofun) fun _ => nofun

theorem ends_emits : Emits (fun _ _ => True) ended := ends_blocks.emits

theorem NoSymbol.not_expr {idx : Nat} {e : MCExpr} (h : I.NoSymbol) (hop : I.getOperand idx = .ok (.expr e)) :
    False := by
  have hexpr := h _ (List.mem_of_getElem? (getOperand_ok.mp hop))
  cases hexpr

theorem ends_jal (hbytes : env.bytesMode = true) (h : I.NoSymbol) : Ends (jal env I) := by
  have hR := ends_emits
  refine hR.bind hR.getOperand fun op hop => ?_
  cases op with
  | reg r => exact hR.fails
  | imm id => exact sat_callBytes hR hbytes fun _ => Sat.emit (fun _ _ => trivial) (hR.exit _)
  | expr e => exact (NoSymbol.not_expr h hop).elim

theorem ends_lift (hbytes : env.bytesMode = true) (h : I.LooksNothing) : Ends (lift env I) := by
  have hR := ends_emits
  by_cases hterm : I.opcode.isTerminator = true
  · exact lift_sat_terminator ends_blocks hterm
  by_cases hcall : I.opcode.isCall = true
  · have hop : I.opcode = .JAL := by simpa [Opcode.isCall] using hcall
    have hlift : lift env I = jal env I := by
      unfold lift
      rw [hop]
    rw [hlift]
    exact ends_jal hbytes (h (Or.inr hop))
  · exact lift_sat_of hR (fun hop e he => (NoSymbol.not_expr (h (Or.inl hop)) he).elim)
      (eq_false_of_ne_true hterm) (eq_false_of_ne_true hcall)

theorem ends_region {prev : Option Term} {m : LiftM Unit} (hm : Ends m) : Ends (region prev m) :=
  ends_emits.bind (Q := fun _ => True) ⟨fun _ _ _ _ => ⟨trivial, trivial⟩, fun _ _ h => by cases h⟩ fun _ _ =>
    ends_emits.bind hm fun _ _ => ends_emits.bind ends_emits.get fun _ _ => ends_emits.pure trivial

theorem ends_tail {last : Option Term} : Ends (liftTail env last) := by
  have hR := ends_emits
  refine Sat.ite (hR.pure trivial) (hR.bind (ends_region (sat_fallThrough ends_blocks)) fun code _ => ?_)
  exact Sat.ite (Sat.throw (hR.exit _)) (hR.pure trivial)

theorem ends_insts (env : Env) (hbytes : env.bytesMode = true) {Is : List MCInst} (h : ∀ I ∈ Is, I.LooksNothing)
    (prev : Option Term) : Ends (liftInsts env Is prev) := by
  have hR := ends_emits
  induction Is generalizing prev with
  | nil => exact hR.pure trivial
  | cons I Is ih =>
    refine hR.bind (ends_region (ends_lift hbytes (h I List.mem_cons_self))) fun code _ => ?_
    exact hR.bind (ih (fun J hJ => h J (List.mem_cons_of_mem _ hJ)) _) fun _ _ => hR.pure trivial

theorem ends_block (env : Env) (hbytes : env.bytesMode = true) {b : MCBasicBlock}
    (h : ∀ I ∈ b.instrs, I.LooksNothing) :
    Ends (liftBlock env b) :=
  ends_emits.bind (ends_insts { env with succs := b.succs } hbytes h none) fun _ _ =>
    ends_emits.bind ends_tail fun _ _ => ends_emits.pure trivial

theorem ends_blocksOf (env : Env) (hbytes : env.bytesMode = true) (h : ∀ b ∈ BBs, ∀ I ∈ b.instrs, I.LooksNothing) :
    Ends (liftBlocks env BBs) := by
  have hR := ends_emits
  refine hR.bind (ends_region (sat_platformInit hR)) fun init _ => hR.bind (Q := fun _ => True) ?_ fun _ _ =>
    hR.pure trivial
  induction BBs with
  | nil => exact hR.pure trivial
  | cons b BBs ih =>
    rw [List.mapM_cons]
    refine hR.bind (ends_block env hbytes (h b List.mem_cons_self)) fun _ _ => ?_
    exact hR.bind (ih fun b hb => h b (List.mem_cons_of_mem _ hb)) fun _ _ => hR.pure trivial

theorem liftMCFunction_total (hbytes : env.bytesMode = true) (h : ∀ b ∈ BBs, ∀ I ∈ b.instrs, I.LooksNothing) :
    liftMCFunction env BBs ≠ .error .outOfFuel := by
  intro herr
  unfold liftMCFunction at herr
  have hends : Ends (liftBlocks { env with bbNames := BBs.map (·.name) } BBs) :=
    ends_blocksOf _ hbytes h
  rcases except_bind_error herr with herr | ⟨⟨F, s⟩, _, herr⟩
  · exact hends.error _ _ herr rfl
  · cases herr

/-! ## From the bytes to the blocks -/

/-- The loop reads at least one byte in each iteration, so its fuel suffices. -/
theorem decode_total (dis : Disassembler) (bytes : List (BitVec 8)) (fuel off : Nat)
    (h : bytes.length ≤ off + fuel) : decode dis bytes fuel off ≠ .error .outOfFuel := by
  induction fuel generalizing off with
  | zero =>
    unfold decode
    rw [if_pos (by omega)]
    simp
  | succ fuel ih =>
    unfold decode
    by_cases hlen : bytes.length ≤ off
    · rw [if_pos hlen]
      simp
    rw [if_neg hlen]
    cases hd : dis (bytes.drop off) with
    | none => simp
    | some d =>
      simp only
      by_cases hsize : d.size = 0
      · rw [if_pos hsize]
        simp
      rw [if_neg hsize]
      split
      · simp
      have hrest := ih (off + d.size) (by omega)
      intro heq
      cases hr : decode dis bytes fuel (off + d.size) with
      | error e =>
        rw [hr] at heq hrest
        cases heq
        exact hrest rfl
      | ok insns =>
        rw [hr] at heq
        cases heq

theorem sext_total {idx bits : Nat} : I.sext idx bits ≠ .error .outOfFuel := by
  intro herr
  rcases except_bind_error herr with herr | ⟨op, _, herr⟩
  · obtain ⟨what, heq⟩ := getOperand_error herr
    cases heq
  · split at herr <;> cases herr

theorem sext_total_two {m : Except LiftError MCInst} (hm : m ≠ .error .outOfFuel) {idx bits : Nat} :
    (m >>= fun J => J.sext idx bits) ≠ .error .outOfFuel := by
  intro herr
  rcases except_bind_error herr with herr | ⟨J, _, herr⟩
  · exact hm herr
  · exact sext_total herr

theorem signExtendImms_total : signExtendImms I ≠ .error .outOfFuel := by
  unfold signExtendImms
  simp only
  split
  · exact nofun
  split
  · intro herr
    rcases except_bind_error herr with herr | ⟨J, _, herr⟩
    · split at herr
      · exact sext_total herr
      · cases herr
    · exact sext_total herr
  split
  · exact sext_total
  split
  all_goals first | exact sext_total | exact sext_total_two sext_total

theorem branchTargetUnit_total {d : DecodedInsn} : branchTargetUnit d ≠ .error .outOfFuel := by
  intro herr
  rcases except_bind_error herr with herr | ⟨op, _, herr⟩
  · obtain ⟨what, heq⟩ := getOperand_error herr
    cases heq
  · split at herr <;> cases herr

theorem leadersOf_total {d : DecodedInsn} : leadersOf d ≠ .error .outOfFuel := by
  unfold leadersOf
  split
  · intro herr
    rcases except_bind_error herr with herr | ⟨t, _, herr⟩
    · exact branchTargetUnit_total herr
    · cases herr
  split <;> exact nofun

theorem rewriteTarget_total {d : DecodedInsn} : rewriteTarget insns d ≠ .error .outOfFuel := by
  unfold rewriteTarget
  split
  · intro herr
    rcases except_bind_error herr with herr | ⟨t, _, herr⟩
    · exact branchTargetUnit_total herr
    · split at herr <;> cases herr
  · exact nofun

theorem mapM_total {f : α → Except LiftError β} {xs : List α} (h : ∀ x ∈ xs, f x ≠ .error .outOfFuel) :
    xs.mapM f ≠ .error .outOfFuel := by
  induction xs with
  | nil => exact nofun
  | cons x xs ih =>
    rw [List.mapM_cons]
    intro herr
    rcases except_bind_error herr with herr | ⟨y, _, herr⟩
    · exact h x List.mem_cons_self herr
    rcases except_bind_error herr with herr | ⟨ys, _, herr⟩
    · exact ih (fun x hx => h x (List.mem_cons_of_mem _ hx)) herr
    · cases herr

theorem decodeProgram_total (dis : Disassembler) (bytes : List (BitVec 8)) :
    decodeProgram dis bytes ≠ .error .outOfFuel := by
  intro herr
  rcases except_bind_error herr with herr | ⟨insns, _, herr⟩
  · exact decode_total dis bytes bytes.length 0 (by omega) herr
  split at herr
  · cases herr
  refine mapM_total (fun d _ herr => ?_) herr
  rcases except_bind_error herr with herr | ⟨J, _, herr⟩
  · exact signExtendImms_total herr
  · cases herr

theorem blocksOfInsns_total : blocksOfInsns insns ≠ .error .outOfFuel := by
  intro herr
  rcases except_bind_error herr with herr | ⟨ls, _, herr⟩
  · exact mapM_total (fun d _ => leadersOf_total) herr
  rcases except_bind_error herr with herr | ⟨ds, _, herr⟩
  · exact mapM_total (fun d _ => rewriteTarget_total) herr
  · cases herr

theorem findTargetLabel_total : findTargetLabel I ≠ .error .outOfFuel := by
  unfold findTargetLabel
  split <;> exact nofun

theorem addSuccessors_total {i : Nat} {b : MCBasicBlock} : addSuccessors BBs i b ≠ .error .outOfFuel := by
  intro herr
  unfold addSuccessors at herr
  split at herr
  · cases herr
  split at herr
  · split at herr <;> cases herr
  split at herr
  · rcases except_bind_error herr with herr | ⟨target, _, herr⟩
    · exact findTargetLabel_total herr
    · split at herr <;> cases herr
  split at herr
  · rcases except_bind_error herr with herr | ⟨target, _, herr⟩
    · exact findTargetLabel_total herr
    · split at herr <;> cases herr
  split at herr <;> cases herr

/-! ## The symbols of the instructions -/

theorem decode_noSymbol (hdis : dis.NoSymbols) {fuel off : Nat} (h : decode dis bytes fuel off = .ok ds) :
    ∀ d ∈ ds, d.inst.NoSymbol := by
  induction fuel generalizing off ds with
  | zero =>
    unfold decode at h
    split at h
    · cases h
      exact List.forall_mem_nil _
    · cases h
  | succ fuel ih =>
    unfold decode at h
    split at h
    · cases h
      exact List.forall_mem_nil _
    cases hd : dis (bytes.drop off) with
    | none =>
      rw [hd] at h
      cases h
    | some x =>
      rw [hd] at h
      simp only at h
      split at h
      · cases h
      split at h
      · cases h
      obtain ⟨rest, hrest, h⟩ := except_bind_ok h
      cases h
      exact List.forall_mem_cons.mpr ⟨hdis _ _ hd, ih hrest⟩

theorem sext_noSymbol {J : MCInst} {idx bits : Nat} (h : I.sext idx bits = .ok J) (hI : I.NoSymbol) :
    J.NoSymbol := by
  obtain ⟨_, _, heq | ⟨v, w, _, heq⟩⟩ := sext_set h
  · rwa [MCInst.NoSymbol, heq]
  · intro a ha
    rw [heq] at ha
    rcases List.mem_or_eq_of_mem_set ha with ha | rfl
    · exact hI a ha
    · rfl

theorem decodeProgram_noSymbol (hdis : dis.NoSymbols) (h : decodeProgram dis bytes = .ok insns) :
    ∀ d ∈ insns, d.inst.NoSymbol := by
  obtain ⟨decoded, hdec, h⟩ := except_bind_ok h
  split at h
  · cases h
  intro d hd
  obtain ⟨d₀, hd₀, hsign⟩ := mem_right_of_forall₂ (mapM_except_ok h) hd
  obtain ⟨J, hJ, hsign⟩ := except_bind_ok hsign
  cases hsign
  exact signExtendImms_preserves (fun _ _ _ _ => sext_noSymbol) hJ (decode_noSymbol hdis hdec d₀ hd₀)

theorem rewriteTarget_looksNothing {d d' : DecodedInsn} (h : rewriteTarget insns d = .ok d')
    (hd : d.inst.NoSymbol) : d'.inst.LooksNothing := by
  unfold rewriteTarget at h
  split at h
  · rename_i hbr
    obtain ⟨t, _, h⟩ := except_bind_ok h
    split at h <;> cases h
    rintro (hop | hop) <;> rw [show d.inst.opcode = _ from hop] at hbr <;> cases hbr
  · cases h
    exact fun _ => hd

theorem mem_fillBlock {leaders : List Nat} {MF : MCFunction} {d : DecodedInsn} {b : MCBasicBlock}
    (hb : b ∈ (fillBlock leaders MF d).BBs) (hI : I ∈ b.instrs) :
    I = d.inst ∨ ∃ b' ∈ MF.BBs, I ∈ b'.instrs := by
  rcases fillBlock_eq leaders MF d with ⟨_, heq⟩ | ⟨_, bs, c, hbs, heq⟩
  · rw [heq] at hb
    rcases List.mem_append.mp hb with hb | hb
    · exact Or.inr ⟨b, hb, hI⟩
    · obtain rfl := List.mem_singleton.mp hb
      exact Or.inl (List.mem_singleton.mp hI)
  · rw [heq] at hb
    rcases List.mem_append.mp hb with hb | hb
    · exact Or.inr ⟨b, hbs ▸ List.mem_append_left _ hb, hI⟩
    · obtain rfl := List.mem_singleton.mp hb
      rcases List.mem_append.mp hI with hI | hI
      · exact Or.inr ⟨c, hbs ▸ List.mem_append_right _ (List.mem_singleton_self c), hI⟩
      · exact Or.inl (List.mem_singleton.mp hI)

theorem mem_fillBlocks {leaders : List Nat} {MF : MCFunction} {b : MCBasicBlock}
    (hb : b ∈ (ds.foldl (fillBlock leaders) MF).BBs) (hI : I ∈ b.instrs) :
    (∃ d ∈ ds, I = d.inst) ∨ ∃ b' ∈ MF.BBs, I ∈ b'.instrs := by
  induction ds generalizing MF with
  | nil => exact Or.inr ⟨b, hb, hI⟩
  | cons d ds ih =>
    rcases ih hb with ⟨e, he, heq⟩ | ⟨b', hb', hI'⟩
    · exact Or.inl ⟨e, List.mem_cons_of_mem _ he, heq⟩
    rcases mem_fillBlock hb' hI' with heq | hold
    · exact Or.inl ⟨d, List.mem_cons_self, heq⟩
    · exact Or.inr hold

theorem blocksOfInsns_looksNothing (hinsns : ∀ d ∈ insns, d.inst.NoSymbol) (h : blocksOfInsns insns = .ok BBs) :
    ∀ b ∈ BBs, ∀ I ∈ b.instrs, I.LooksNothing := by
  obtain ⟨leaders, ds, hall, _, rfl⟩ := blocksOfInsns_ok h
  intro b hb I hI
  rcases mem_fillBlocks hb hI with ⟨d', hd', rfl⟩ | ⟨b', hb', _⟩
  · obtain ⟨d, hd, hrw⟩ := mem_right_of_forall₂ hall hd'
    exact rewriteTarget_looksNothing hrw (hinsns d hd)
  · cases hb'

/-- **Fuel.** A byte program is lifted, or rejected with a message: it never runs out of fuel. -/
theorem runBytes_total (env : Env) (bytes : List (BitVec 8)) (hdis : dis.NoSymbols) :
    runBytes env dis bytes ≠ .error .outOfFuel := by
  intro herr
  rcases except_bind_error herr with herr | ⟨insns, hinsns, herr⟩
  · exact decodeProgram_total dis bytes herr
  rcases except_bind_error herr with herr | ⟨BBs, hBBs, herr⟩
  · exact blocksOfInsns_total herr
  rcases except_bind_error herr with herr | ⟨MBBs, hM, herr⟩
  · exact mapM_total (fun bi _ => addSuccessors_total) herr
  refine liftMCFunction_total rfl (fun b hb I hI => ?_) herr
  have hmem : b.instrs ∈ (checkEntryBlock (removeEmptyBlocks BBs)).map (·.instrs) := by
    rw [← (generateSuccessors_same hM).2]
    exact List.mem_map_of_mem hb
  obtain ⟨b', hb', heq⟩ := List.mem_map.mp hmem
  rcases List.mem_cons.mp hb' with rfl | hb'
  · rw [← heq] at hI
    obtain rfl := List.mem_singleton.mp hI
    rintro (hop | hop) <;> cases hop
  · exact blocksOfInsns_looksNothing (decodeProgram_noSymbol hdis hinsns) hBBs b'
      (List.mem_filter.mp hb').1 I (heq ▸ hI)

end BpfTv
