import BpfTv.Lifter.ControlFlow

/-!
# Control flow of a lifted assembly file

The streamer's blocks hold the instructions of the stream in order (`stream_blocks`), and the lifted
function executes what the assembly denotes (`asm_control_flow`). The invariant is `StreamInv`: what
the blocks are after the callbacks seen so far, where each label is, and that the last block has no
terminator unless the last line was one.
-/

namespace BpfTv

open Control

/-! ## What an assembly stream denotes -/

/-- The label of a callback; labels of debug sections are not labels of the code. -/
def Callback.label? : Callback → Option String
  | .emitLabel secName lab => if isDebugSection secName then none else some lab
  | _ => none

/-- The instruction of a callback. -/
def Callback.inst? : Callback → Option MCInst
  | .emitInstruction opcode operands => some { opcode, operands }
  | _ => none

def labels (cs : List Callback) : List String := cs.filterMap Callback.label?

def insts (cs : List Callback) : List MCInst := cs.filterMap Callback.inst?

/-- The number of instructions before a label. -/
def labelPos (cs : List Callback) (l : String) : Option Nat :=
  (cs.findIdx? fun c => c.label? = some l).map fun i => (insts (cs.take i)).length

/-- The control flow of an assembly stream: positions are instruction numbers, events are
instructions with their numbers. -/
def asmFlow (cs : List Callback) : Flow Nat (MCInst × Nat) where
  event p := ((insts cs)[p]?).map (·, p)
  exit p :=
    match (insts cs)[p]? with
    | none => .fell
    | some I =>
      let target := ((targetLabel? I).bind (labelPos cs)).getD (insts cs).length
      if I.opcode.isReturn then .stop
      else if I.opcode.isCondJump then .cond target (p + 1)
      else if I.opcode.isUnconditionalBranch then .goto target
      else .goto (p + 1)

/-- A label, an instruction or a `.loc` directive. -/
def Callback.isText : Callback → Bool
  | .emitLabel .. | .emitInstruction .. | .emitDwarfLocDirective _ => true
  | _ => false

/-- The function part of an assembly file, up to `.Lfunc_end0`. -/
structure TextStream (cs : List Callback) : Prop where
  text : ∀ c ∈ cs, c.isText = true
  starts : (cs.head?.bind Callback.label?).isSome = true
  nodup : (labels cs).Nodup
  no_end : ".Lfunc_end0" ∉ labels cs
  no_hash : ∀ l ∈ labels cs, '#' ∉ l.toList
  no_numeral : ∀ l ∈ labels cs, ∀ k : Nat, l ≠ toString k
  targets : ∀ I ∈ insts cs, I.opcode.isBranch = true → ∃ l ∈ labels cs, targetLabel? I = some l

/-- An instruction as the assembly has it. -/
def MCInst.asm (I : MCInst) : MCInst := { I with loc := none, place := none }

/-- What is seen of an executed instruction: what it is, and its number in the stream. -/
def asmObs (I : MCInst) : MCInst × Nat := (I.asm, I.place.getD 0)

/-! ## The streamer's invariant -/

/-- The streamer after the callbacks `done`. -/
structure StreamInv (done : List Callback) (S : Streamer) : Prop where
  ended : S.FunctionEnded = false
  name : S.MF.name = ""
  cnt : S.cnt = (insts done).length
  built : Built S.MF.BBs
  insts : (placed (flat S.MF.BBs)).map asmObs = (insts done).zipIdx
  unplaced : ∀ I ∈ flat S.MF.BBs, I.place = none → I = sentinelNOP
  nodup : (S.MF.BBs.map (·.name)).Nodup
  names : ∀ n ∈ S.MF.BBs.map (·.name), n ∈ labels done ∨ ∃ k ≤ S.MF.label_cnt, n = toString k
  marks : ∀ l p, labelPos done l = some p → Marks S.MF.BBs l p
  isOpen : S.prev_line ≠ .terminator → ∀ bs b, S.MF.BBs = bs ++ [b] →
    ∀ J ∈ b.instrs, J.opcode.isTerminator = false
  started : done ≠ [] → S.prev_line ≠ .none ∧ S.MF.BBs ≠ []

variable {done : List Callback} {S : Streamer} {c : Callback}

theorem labels_concat (cs : List Callback) (c : Callback) :
    labels (cs ++ [c]) = labels cs ++ c.label?.toList := by
  unfold labels
  rw [List.filterMap_append]
  cases h : c.label? <;> simp [h]

theorem insts_concat (cs : List Callback) (c : Callback) :
    insts (cs ++ [c]) = insts cs ++ c.inst?.toList := by
  unfold insts
  rw [List.filterMap_append]
  cases h : c.inst? <;> simp [h]

theorem labelPos_concat {cs : List Callback} {c : Callback} {l : String} {p : Nat}
    (h : labelPos (cs ++ [c]) l = some p) :
    labelPos cs l = some p ∨ c.label? = some l ∧ p = (insts cs).length := by
  unfold labelPos at h ⊢
  rw [List.findIdx?_append] at h
  cases hi : cs.findIdx? fun c => c.label? = some l with
  | some i =>
    have hlt := (List.findIdx?_eq_some_iff_getElem.mp hi).1
    rw [hi] at h
    refine Or.inl ?_
    rw [← h]
    simp [List.take_append_of_le_length (Nat.le_of_lt hlt)]
  | none =>
    rw [hi] at h
    by_cases hc : c.label? = some l
    · refine Or.inr ⟨hc, ?_⟩
      simpa [hc, List.findIdx?_cons] using h.symm
    · simp [hc, List.findIdx?_cons] at h

theorem streamInv_start : StreamInv [] {} where
  ended := rfl
  name := rfl
  cnt := rfl
  built := .nil
  insts := rfl
  unplaced := fun _ h => nomatch h
  nodup := List.nodup_nil
  names := fun _ h => nomatch h
  marks := fun _ _ h => nomatch h
  isOpen := fun _ bs b h => by simp at h
  started := fun h => absurd rfl h

theorem StreamInv.length_placed (h : StreamInv done S) :
    (placed (flat S.MF.BBs)).length = (BpfTv.insts done).length := by
  have := congrArg List.length h.insts
  rwa [List.length_map, List.length_zipIdx] at this

theorem StreamInv.same {S' : Streamer} (h : StreamInv done S) (hl : c.label? = none)
    (hi : c.inst? = none) (hne : done ≠ []) (hBBs : S'.MF.BBs = S.MF.BBs) (hname : S'.MF.name = S.MF.name)
    (hcnt : S'.MF.label_cnt = S.MF.label_cnt) (hc : S'.cnt = S.cnt)
    (hend : S'.FunctionEnded = S.FunctionEnded) (hprev : S'.prev_line = S.prev_line) :
    StreamInv (done ++ [c]) S' := by
  have hinsts : BpfTv.insts (done ++ [c]) = BpfTv.insts done := by simp [insts_concat, hi]
  have hlabels : labels (done ++ [c]) = labels done := by simp [labels_concat, hl]
  refine ⟨hend.trans h.ended, hname.trans h.name, ?_, hBBs ▸ h.built, ?_, hBBs ▸ h.unplaced,
    hBBs ▸ h.nodup, ?_, ?_, ?_, ?_⟩
  · rw [hc, hinsts, h.cnt]
  · rw [hBBs, hinsts, h.insts]
  · rw [hBBs, hlabels, hcnt]
    exact h.names
  · intro l p hp
    rw [hBBs]
    rcases labelPos_concat hp with hp | ⟨hp, _⟩
    · exact h.marks l p hp
    · rw [hl] at hp
      cases hp
  · rw [hprev, hBBs]
    exact h.isOpen
  · rw [hprev, hBBs]
    exact fun _ => h.started hne

theorem addConstant_eq (S : Streamer) : ∃ gs data,
    S.addConstant = { S with MF := { S.MF with MCglobals := gs }, curROData := data } := by
  unfold Streamer.addConstant
  split
  · exact ⟨_, _, rfl⟩
  · exact ⟨_, _, rfl⟩

theorem emitLabel_eq {secName lab : String} (hsec : isDebugSection secName = false)
    (hend : S.FunctionEnded = false) (hlab : lab ≠ ".Lfunc_end0") : ∃ gs data,
    S.emitLabel secName lab = { S with
      MF := { S.MF with
        BBs := S.MF.BBs ++ [{ name := lab, instrs := [sentinelNOP] }], MCglobals := gs }
      prev_line := .label, curSym := lab, curSec := secName, curROData := data } := by
  obtain ⟨gs, data, hadd⟩ := addConstant_eq S
  refine ⟨gs, data, ?_⟩
  simp [Streamer.emitLabel, hsec, hadd, hlab, hend, MCFunction.addBlock]

theorem flat_concat (BBs : List MCBasicBlock) (b : MCBasicBlock) :
    flat (BBs ++ [b]) = flat BBs ++ b.instrs := by
  simp [flat]

theorem StreamInv.emitLabel {secName lab : String} (h : StreamInv done S)
    (hsec : isDebugSection secName = false) (hend : lab ≠ ".Lfunc_end0") (hnew : lab ∉ labels done)
    (hnum : ∀ k : Nat, lab ≠ toString k) :
    StreamInv (done ++ [.emitLabel secName lab]) (S.emitLabel secName lab) := by
  have hl : (Callback.emitLabel secName lab).label? = some lab := by
    simp [Callback.label?, hsec]
  have hi : (Callback.emitLabel secName lab).inst? = none := rfl
  obtain ⟨gs, data, heq⟩ := emitLabel_eq hsec h.ended hend
  have hinsts : BpfTv.insts (done ++ [.emitLabel secName lab]) = BpfTv.insts done := by
    simp [insts_concat, hi]
  rw [heq]
  refine ⟨h.ended, h.name, ?_, h.built.openBlock lab sentinelNOP, ?_, ?_, ?_, ?_, ?_, ?_, ?_⟩
  · rw [hinsts, h.cnt]
  · rw [hinsts, ← h.insts, flat_concat, placed_append]
    simp [placed, sentinelNOP]
  · intro I hI hp
    rw [flat_concat] at hI
    rcases List.mem_append.mp hI with hI | hI
    · exact h.unplaced I hI hp
    · exact List.mem_singleton.mp hI
  · rw [List.map_append, List.nodup_append]
    refine ⟨h.nodup, by simp, fun a ha b hb => ?_⟩
    obtain rfl : b = lab := by simpa using hb
    rintro rfl
    rcases h.names a ha with hmem | ⟨k, _, hk⟩
    · exact hnew hmem
    · exact hnum k hk
  · intro n hn
    rw [labels_concat, hl]
    rw [List.map_append] at hn
    rcases List.mem_append.mp hn with hn | hn
    · rcases h.names n hn with hmem | hk
      · exact Or.inl (List.mem_append_left _ hmem)
      · exact Or.inr hk
    · exact Or.inl (List.mem_append_right _ (by simpa using hn))
  · intro l p hp
    rcases labelPos_concat hp with hp | ⟨hlab, rfl⟩
    · exact (h.marks l p hp).append _
    · rw [hl, Option.some.injEq] at hlab
      subst hlab
      exact h.length_placed ▸ marks_new S.MF.BBs { name := lab, instrs := [sentinelNOP] }
  · intro _ bs b hb J hJ
    obtain ⟨_, hb⟩ := List.append_inj' hb rfl
    obtain rfl := List.head_eq_of_cons_eq hb
    obtain rfl := List.mem_singleton.mp hJ
    rfl
  · exact fun _ => ⟨by simp, by simp⟩

/-- The blocks behind an instruction: it is put at the end of the last block, or into a new one
behind a terminator. -/
theorem emitInstruction_eq (lineMap : Nat → Option SrcInst) (opcode : Opcode)
    (operands : List MCOperand) (hprev : S.prev_line ≠ .none) (hne : S.MF.BBs ≠ []) :
    ∃ S' i, S.emitInstruction lineMap opcode operands = .ok S' ∧
      i.asm = ({ opcode, operands } : MCInst) ∧ i.place = some S.cnt ∧
      S'.FunctionEnded = S.FunctionEnded ∧ S'.MF.name = S.MF.name ∧ S'.cnt = S.cnt + 1 ∧
      (S'.prev_line ≠ .none ∧ (S'.prev_line ≠ .terminator → opcode.isTerminator = false)) ∧
      (S.prev_line = .terminator ∧ S'.MF.label_cnt = S.MF.label_cnt + 1 ∧
          S'.MF.BBs = S.MF.BBs ++
            [{ name := S.MF.name ++ toString (S.MF.label_cnt + 1), instrs := [i] }] ∨
        S.prev_line ≠ .terminator ∧ S'.MF.label_cnt = S.MF.label_cnt ∧
          ∃ bs b, S.MF.BBs = bs ++ [b] ∧ S'.MF.BBs = bs ++ [{ b with instrs := b.instrs ++ [i] }]) := by
  refine ⟨_, { opcode, operands, loc := lineMap S.curDebugLine, place := some S.cnt },
    if_neg hprev, rfl, rfl, ?_, ?_, rfl, ?_, ?_⟩
  · rfl
  · simp only [Streamer.openBlock]
    split <;> rfl
  · by_cases ht : opcode.isTerminator = true <;> simp [ht]
  · by_cases hterm : S.prev_line = .terminator
    · have hopen : S.openBlock.BBs =
          S.MF.BBs ++ [{ name := S.MF.name ++ toString (S.MF.label_cnt + 1), instrs := [] }] := by
        rw [Streamer.openBlock, if_pos hterm]
        rfl
      refine Or.inl ⟨hterm, ?_, addInst_BBs hopen _⟩
      simp [Streamer.openBlock, hterm, MCFunction.getLabel, MCFunction.addBlock, MCFunction.addInst]
    · obtain ⟨bs, b, hbs⟩ := (List.eq_nil_or_concat' S.MF.BBs).resolve_left hne
      have hopen : S.openBlock = S.MF := by rw [Streamer.openBlock, if_neg hterm]
      refine Or.inr ⟨hterm, ?_, bs, b, hbs, ?_⟩
      · simp [hopen, MCFunction.addInst]
      · exact addInst_BBs (hopen ▸ hbs) _

theorem toString_ne_of_lt {j k : Nat} (h : j ≤ k) : toString j ≠ toString (k + 1) := by
  intro heq
  have := toString_inj heq
  omega

theorem StreamInv.emitInstruction {lineMap : Nat → Option SrcInst} {opcode : Opcode}
    {operands : List MCOperand} (h : StreamInv done S) (hne : done ≠ [])
    (hnum : ∀ l ∈ labels done, ∀ k : Nat, l ≠ toString k) :
    ∃ S', S.emitInstruction lineMap opcode operands = .ok S' ∧
      StreamInv (done ++ [.emitInstruction opcode operands]) S' := by
  obtain ⟨hprev, hBBs⟩ := h.started hne
  obtain ⟨S', i, hS', hasm, hplace, hend, hname, hcnt, ⟨hprev', hterm⟩, hcase⟩ :=
    emitInstruction_eq lineMap opcode operands hprev hBBs
  refine ⟨S', hS', ?_⟩
  have hlab : labels (done ++ [.emitInstruction opcode operands]) = labels done := by
    simp [labels_concat, Callback.label?]
  have hinsts : BpfTv.insts (done ++ [.emitInstruction opcode operands]) =
      BpfTv.insts done ++ [i.asm] := by
    rw [insts_concat, hasm]
    rfl
  have hop : i.opcode = opcode := congrArg MCInst.opcode hasm
  have hflat : flat S'.MF.BBs = flat S.MF.BBs ++ [i] := by
    rcases hcase with ⟨_, _, hB⟩ | ⟨_, _, bs, b, hbs, hB⟩
    · rw [hB, flat_concat]
    · rw [hB, hbs, flat_concat, flat_concat, List.append_assoc]
  have hpos : ∀ l p, labelPos (done ++ [.emitInstruction opcode operands]) l = some p →
      labelPos done l = some p := by
    intro l p hp
    rcases labelPos_concat hp with hp | ⟨hl, _⟩
    · exact hp
    · cases hl
  have hinv : (placed (flat S'.MF.BBs)).map asmObs =
      (BpfTv.insts (done ++ [.emitInstruction opcode operands])).zipIdx := by
    rw [hflat, placed_append, List.map_append, h.insts, hinsts, List.zipIdx_append, ← h.cnt]
    simp [placed, hplace, asmObs]
  have hunplaced : ∀ I ∈ flat S'.MF.BBs, I.place = none → I = sentinelNOP := by
    intro I hI hp
    rw [hflat] at hI
    rcases List.mem_append.mp hI with hI | hI
    · exact h.unplaced I hI hp
    · rw [List.mem_singleton.mp hI, hplace] at hp
      cases hp
  have hcnt' : S'.cnt = (BpfTv.insts (done ++ [.emitInstruction opcode operands])).length := by
    rw [hcnt, hinsts, List.length_append, h.cnt]
    rfl
  rcases hcase with ⟨_, hlc, hB⟩ | ⟨hnt, hlc, bs, b, hbs, hB⟩
  · -- a block of its own, with the next number as its name
    rw [h.name, String.empty_append] at hB
    refine ⟨hend.trans h.ended, hname.trans h.name, hcnt', ?_, hinv, hunplaced, ?_, ?_, ?_, ?_, ?_⟩
    · rw [hB]
      exact h.built.openBlock _ i
    · rw [hB, List.map_append, List.nodup_append]
      refine ⟨h.nodup, by simp, fun a ha b hb => ?_⟩
      obtain rfl : b = toString (S.MF.label_cnt + 1) := by simpa using hb
      rcases h.names a ha with hmem | ⟨k, hk, rfl⟩
      · exact hnum a hmem _
      · exact toString_ne_of_lt hk
    · intro n hn
      rw [hB, List.map_append] at hn
      rw [hlab, hlc]
      rcases List.mem_append.mp hn with hn | hn
      · rcases h.names n hn with hmem | ⟨k, hk, hkn⟩
        · exact Or.inl hmem
        · exact Or.inr ⟨k, Nat.le_succ_of_le hk, hkn⟩
      · exact Or.inr ⟨_, Nat.le_refl _, by simpa using hn⟩
    · intro l p hp
      rw [hB]
      exact (h.marks l p (hpos l p hp)).append _
    · intro ht bs b hb J hJ
      rw [hB] at hb
      obtain ⟨_, hb⟩ := List.append_inj' hb rfl
      obtain rfl := List.head_eq_of_cons_eq hb
      rw [List.mem_singleton.mp hJ, hop]
      exact hterm ht
    · exact fun _ => ⟨hprev', by simp [hB]⟩
  · -- the end of the last block, which has no terminator
    have hlast := h.isOpen hnt bs b hbs
    have hnames : S'.MF.BBs.map (·.name) = S.MF.BBs.map (·.name) := by
      rw [hB, hbs]
      simp
    refine ⟨hend.trans h.ended, hname.trans h.name, hcnt', ?_, hinv, hunplaced, ?_, ?_, ?_, ?_, ?_⟩
    · rw [hB]
      exact (hbs ▸ h.built).append i hlast
    · rw [hnames]
      exact h.nodup
    · rw [hnames, hlab, hlc]
      exact h.names
    · intro l p hp
      rw [hB]
      exact (hbs ▸ h.marks l p (hpos l p hp)).last rfl
    · intro ht bs' b' hb J hJ
      rw [hB] at hb
      obtain ⟨_, hb⟩ := List.append_inj' hb rfl
      obtain rfl := List.head_eq_of_cons_eq hb
      rcases List.mem_append.mp hJ with hJ | hJ
      · exact hlast J hJ
      · rw [List.mem_singleton.mp hJ, hop]
        exact hterm ht
    · exact fun _ => ⟨hprev', by simp [hB]⟩

/-- One callback of the function part. -/
theorem StreamInv.step (lineMap : Nat → Option SrcInst) {cs : List Callback}
    (h : StreamInv done S) (hs : TextStream (done ++ c :: cs)) :
    ∃ S', S.emit lineMap c = .ok S' ∧ StreamInv (done ++ [c]) S' := by
  have hlabels : labels (done ++ c :: cs) = labels done ++ (c.label?.toList ++ labels cs) := by
    rw [show done ++ c :: cs = done ++ [c] ++ cs by simp]
    rw [labels, List.filterMap_append, ← labels, labels_concat, List.append_assoc]
    rfl
  have hmem : ∀ l ∈ labels done, l ∈ labels (done ++ c :: cs) := fun l hl =>
    hlabels ▸ List.mem_append_left _ hl
  have hne : c.label? = none → done ≠ [] := by
    rintro hl rfl
    have := hs.starts
    simp [hl] at this
  cases c with
  | emitLabel secName lab =>
    by_cases hsec : isDebugSection secName = true
    · have hl : (Callback.emitLabel secName lab).label? = none := by simp [Callback.label?, hsec]
      refine ⟨{ S with curSec := secName }, ?_, h.same hl rfl (hne hl) rfl rfl rfl rfl rfl rfl⟩
      simp [Streamer.emit, Streamer.emitLabel, hsec]
    · have hsec' : isDebugSection secName = false := by simpa using hsec
      have hl : (Callback.emitLabel secName lab).label? = some lab := by
        simp [Callback.label?, hsec']
      have hin : lab ∈ labels (done ++ .emitLabel secName lab :: cs) := by
        rw [hlabels, hl]
        simp
      have hnew : lab ∉ labels done := by
        have hnd := hs.nodup
        rw [hlabels, hl] at hnd
        exact fun hd => (List.nodup_append.mp hnd).2.2 lab hd lab (by simp) rfl
      refine ⟨_, rfl, h.emitLabel hsec' ?_ hnew (hs.no_numeral lab hin)⟩
      rintro rfl
      exact hs.no_end hin
  | emitInstruction opcode operands =>
    exact h.emitInstruction (hne rfl) fun l hl => hs.no_numeral l (hmem l hl)
  | emitDwarfLocDirective line => exact ⟨_, rfl, h.same rfl rfl (hne rfl) rfl rfl rfl rfl rfl rfl⟩
  | _ => exact nomatch hs.text _ (List.mem_append_right _ List.mem_cons_self)

theorem StreamInv.run (lineMap : Nat → Option SrcInst) (cs : List Callback) (h : StreamInv done S)
    (hs : TextStream (done ++ cs)) :
    ∃ S', cs.foldlM (Streamer.emit lineMap) S = .ok S' ∧ StreamInv (done ++ cs) S' := by
  induction cs generalizing done S with
  | nil => exact ⟨S, rfl, by rwa [List.append_nil]⟩
  | cons c cs ih =>
    obtain ⟨S₁, hS₁, h₁⟩ := h.step lineMap hs
    have hassoc : done ++ c :: cs = done ++ [c] ++ cs := by simp
    rw [hassoc] at hs ⊢
    obtain ⟨S₂, hS₂, h₂⟩ := ih h₁ hs
    refine ⟨S₂, ?_, h₂⟩
    rw [List.foldlM_cons, hS₁]
    exact hS₂

/-! ## The blocks of the function -/

section blocks

variable {body : List Callback} (h : StreamInv body S)
include h

/-- Every instruction of a block but a sentinel is in the stream. -/
theorem inst_of_flat {I : MCInst} (hI : I ∈ flat S.MF.BBs) (hp : I.place ≠ none) :
    I.asm ∈ insts body := by
  have hmem : asmObs I ∈ (insts body).zipIdx := by
    rw [← h.insts]
    refine List.mem_map_of_mem (List.mem_filter.mpr ⟨hI, ?_⟩)
    simpa [Option.isSome_iff_ne_none] using hp
  exact List.fst_mem_of_mem_zipIdx hmem

theorem marks_of_label {l : String} (hl : l ∈ labels body) :
    ∃ p, labelPos body l = some p ∧ Marks S.MF.BBs l p := by
  obtain ⟨c, hc, hcl⟩ := List.mem_filterMap.mp hl
  have hfind : ∃ i, body.findIdx? (fun c => c.label? = some l) = some i :=
    Option.isSome_iff_exists.mp (List.findIdx?_isSome.trans (List.any_eq_true.mpr ⟨c, hc, by simpa⟩))
  obtain ⟨i, hi⟩ := hfind
  have hp : labelPos body l = some (insts (body.take i)).length := by
    unfold labelPos
    rw [hi]
    rfl
  exact ⟨_, hp, h.marks l _ hp⟩

variable (hs : TextStream body)
include hs

theorem stream_target {I : MCInst} (hI : I ∈ flat S.MF.BBs) (hbr : I.opcode.isBranch = true) :
    ∃ l p, targetLabel? I = some l ∧ labelPos body l = some p ∧ Marks S.MF.BBs l p := by
  have hp : I.place ≠ none := by
    intro hp
    rw [h.unplaced I hI hp] at hbr
    cases hbr
  obtain ⟨l, hl, hlabel⟩ := hs.targets _ (inst_of_flat h hI hp) hbr
  obtain ⟨p, hpos, hm⟩ := marks_of_label h hl
  exact ⟨l, p, hlabel, hpos, hm⟩

theorem entryName_notMem : entryName ∉ S.MF.BBs.map (·.name) := by
  have hhash : '#' ∈ entryName.toList := by decide
  intro hmem
  rcases h.names _ hmem with hl | ⟨k, _, hk⟩
  · exact hs.no_hash _ hl hhash
  · rw [hk, Nat.toString_eq_ofList_toDigits, String.toList_ofList] at hhash
    exact nomatch Nat.isDigit_of_mem_toDigits (by omega) (by omega) hhash

theorem stream_shaped : Shaped (checkEntryBlock (removeEmptyBlocks S.MF.BBs)) := by
  refine shaped_of_built h.built h.nodup (entryName_notMem h hs) ?_ ?_
  · intro I hI hp
    rw [h.unplaced I hI hp]
    rfl
  · intro I hI hbr
    obtain ⟨l, p, hl, _, k, b, hb, rfl, _⟩ := stream_target h hs hI hbr
    exact ⟨_, List.mem_map_of_mem (List.mem_of_getElem? hb), hl⟩

/-- The lifted blocks are walked along as the assembly says. -/
theorem asm_follows : Follows (asmFlow body) asmObs (checkEntryBlock (removeEmptyBlocks S.MF.BBs))
    fun p is => is = (placed (flat S.MF.BBs)).drop p := by
  have hhead : ∀ p I is, I :: is = (placed (flat S.MF.BBs)).drop p →
      (insts body)[p]? = some I.asm ∧ asmObs I = (I.asm, p) ∧ I ∈ flat S.MF.BBs ∧
        is = (placed (flat S.MF.BBs)).drop (p + 1) := by
    intro p I is his
    have hlt : p < (placed (flat S.MF.BBs)).length := by
      by_contra hge
      rw [List.drop_eq_nil_of_le (Nat.le_of_not_lt hge)] at his
      cases his
    rw [List.drop_eq_getElem_cons hlt] at his
    injection his with hI his
    have hobs : ((placed (flat S.MF.BBs)).map asmObs)[p]? = some (asmObs I) := by
      rw [List.getElem?_map, List.getElem?_eq_getElem hlt, ← hI]
      rfl
    rw [h.insts, List.getElem?_zipIdx] at hobs
    obtain ⟨J, hJ, hJobs⟩ := Option.map_eq_some_iff.mp hobs
    obtain rfl : J = I.asm := congrArg Prod.fst hJobs
    refine ⟨hJ, ?_, ?_, his⟩
    · simpa using hJobs.symm
    · exact hI ▸ List.mem_of_mem_filter (List.getElem_mem hlt)
  have hexit : ∀ p I is, I :: is = (placed (flat S.MF.BBs)).drop p →
      (asmFlow body).exit p =
        let target := ((targetLabel? I).bind (labelPos body)).getD (insts body).length
        if I.opcode.isReturn then .stop
        else if I.opcode.isCondJump then .cond target (p + 1)
        else if I.opcode.isUnconditionalBranch then .goto target
        else .goto (p + 1) := by
    intro p I is his
    simp only [asmFlow, (hhead p I is his).1]
    rfl
  have hshape := stream_shaped h hs
  have hkeep := h.built.removeEmptyBlocks_eq
  have htarget : ∀ p I is l b, I :: is = (placed (flat S.MF.BBs)).drop p →
      I.opcode.isBranch = true → targetLabel? I = some l →
      findBlockByName (checkEntryBlock (removeEmptyBlocks S.MF.BBs)) l = some b →
      ∃ q, ((targetLabel? I).bind (labelPos body)).getD (insts body).length = q ∧
        restAt (checkEntryBlock (removeEmptyBlocks S.MF.BBs)) b = (placed (flat S.MF.BBs)).drop q := by
    intro p I is l b his hbr hl hb
    obtain ⟨l', q, hl', hq, hm⟩ := stream_target h hs (hhead p I is his).2.2.1 hbr
    obtain rfl : l' = l := Option.some.inj (hl'.symm.trans hl)
    refine ⟨q, by rw [hl', Option.bind_some, hq]; rfl, ?_⟩
    rw [hkeep] at hshape hb ⊢
    exact restAt_of_marks hshape.names (marks_entry hm) hb
  refine ⟨fun p hp => ?_, fun p I is his => ?_, fun p I is his ht => ?_, fun p I is his hr => ?_,
    fun p I is l b his hu hl hb => ?_, fun p I is l b his hc hl hb => ?_⟩
  · have hle : (insts body)[p]? = none := by
      rw [List.getElem?_eq_none_iff, ← h.length_placed]
      exact List.drop_eq_nil_iff.mp hp.symm
    simp only [asmFlow, hle]
  · obtain ⟨hget, hobs, _⟩ := hhead p I is his
    simp only [asmFlow, hget, hobs, Option.map_some]
  · refine ⟨p + 1, ?_, (hhead p I is his).2.2.2⟩
    rw [hexit p I is his]
    obtain ⟨hc, hu, hr⟩ := Opcode.straight_flags ht
    simp [hc, hu, hr]
  · rw [hexit p I is his]
    simp [hr]
  · obtain ⟨q, hq, hrest⟩ := htarget p I is l b his (by rw [Opcode.isBranch_eq, hu, Bool.or_true]) hl hb
    refine ⟨q, ?_, hrest⟩
    rw [hexit p I is his, hq]
    obtain ⟨_, hc, hr⟩ := Opcode.jump_flags hu
    simp [hc, hu, hr]
  · obtain ⟨q, hq, hrest⟩ := htarget p I is l b his (by rw [Opcode.isBranch_eq, hc, Bool.true_or]) hl hb
    refine ⟨q, p + 1, ?_, hrest, (hhead p I is his).2.2.2⟩
    rw [hexit p I is his, hq]
    obtain ⟨_, _, hr⟩ := Opcode.cond_flags hc
    simp [hc, hr]

omit hs in
theorem stream_insts : (((flat (checkEntryBlock (removeEmptyBlocks S.MF.BBs))).filter
    fun I => I ≠ sentinelNOP ∧ I ≠ entryJump).map MCInst.asm) = insts body := by
  have hkeep := h.built.removeEmptyBlocks_eq
  have hfilter : (flat S.MF.BBs).filter (fun I => I ≠ sentinelNOP ∧ I ≠ entryJump) =
      placed (flat S.MF.BBs) := by
    refine List.filter_congr fun I hI => ?_
    cases hp : I.place with
    | none => simp [h.unplaced I hI hp]
    | some p =>
      have hne : I ≠ sentinelNOP ∧ I ≠ entryJump := by
        constructor <;> rintro rfl <;> cases hp
      simp [hne]
  have hfst : (placed (flat S.MF.BBs)).map MCInst.asm = (insts body).zipIdx.map Prod.fst := by
    rw [← h.insts, List.map_map]
    rfl
  rw [hkeep, checkEntryBlock, flat, List.flatMap_cons, List.filter_append, ← flat, hfilter]
  rw [List.zipIdx_map_fst] at hfst
  simpa using hfst

end blocks

theorem stream_end (lineMap : Nat → Option SrcInst) {body : List Callback} {secName : String}
    (hsec : isDebugSection secName = false) (hs : TextStream body) :
    ∃ S S', Streamer.emitAll lineMap (body ++ [.emitLabel secName ".Lfunc_end0"]) = .ok S' ∧
      S'.MF.BBs = S.MF.BBs ∧ StreamInv body S := by
  obtain ⟨S, hS, h⟩ := streamInv_start.run lineMap body hs
  obtain ⟨gs, data, hadd⟩ := addConstant_eq S
  refine ⟨S, S.emitLabel secName ".Lfunc_end0", ?_, ?_, h⟩
  · unfold Streamer.emitAll
    rw [List.foldlM_append, hS]
    rfl
  · simp [Streamer.emitLabel, hsec, hadd]

/-- **Text-mode control flow.** The streamer's blocks hold the stream's instructions in order, a
terminator ends its block, names are distinct, nothing leads to the entry block of the lifted
function, and as long as control does not run past `.Lfunc_end0` the lifted function executes what
the assembly denotes. -/
theorem asm_control_flow (lineMap : Nat → Option SrcInst) (body : List Callback) (secName : String)
    (hsec : isDebugSection secName = false) (hs : TextStream body) :
    ∃ MF, asmFunction lineMap (body ++ [.emitLabel secName ".Lfunc_end0"]) = .ok MF ∧
      ((flat MF.BBs).filter fun I => I ≠ sentinelNOP ∧ I ≠ entryJump).map MCInst.asm = insts body ∧
      (∀ b ∈ MF.BBs, ∀ I ∈ b.instrs.dropLast, I.opcode.isTerminator = false) ∧
      (MF.BBs.map (·.name)).Nodup ∧
      ∀ env F, run env lineMap (body ++ [.emitLabel secName ".Lfunc_end0"]) = .ok F →
        (∀ r ∈ F.regions, ∀ t ∈ exits r, 0 ∉ t.dests) ∧
        ∀ ω, (asmFlow body).Inside ω 0 →
          (F.flow asmObs).traces ω .init = (asmFlow body).traces ω 0 := by
  obtain ⟨S, S', hS', hBBs, h⟩ := stream_end lineMap hsec hs
  have hshape := stream_shaped h hs
  have hkeep := h.built.removeEmptyBlocks_eq
  have hbody : body ≠ [] := by
    rintro rfl
    exact nomatch hs.starts
  have hlen : 1 < (checkEntryBlock (removeEmptyBlocks S.MF.BBs)).length := by
    have := List.length_pos_iff.mpr (h.started hbody).2
    rw [hkeep, checkEntryBlock, List.length_cons]
    omega
  obtain ⟨MBBs, hM⟩ := generateSuccessors_total hshape hlen
  obtain ⟨hnames, hinstrs⟩ := generateSuccessors_same hM
  have hflat : flat MBBs = flat (checkEntryBlock (removeEmptyBlocks S.MF.BBs)) := by
    simp only [flat, List.flatMap_def, hinstrs]
  have hasm : asmFunction lineMap (body ++ [.emitLabel secName ".Lfunc_end0"]) =
      .ok { S'.MF with BBs := MBBs } := by
    unfold asmFunction
    simp only [hS', bind, Except.bind, hBBs, hM]
    rfl
  refine ⟨_, hasm, ?_, ?_, ?_, fun env F hF => ?_⟩
  · show ((flat MBBs).filter _).map _ = _
    rw [hflat]
    exact stream_insts h
  · intro b hb I hI
    have hmem : b.instrs ∈ (checkEntryBlock (removeEmptyBlocks S.MF.BBs)).map (·.instrs) :=
      hinstrs ▸ List.mem_map_of_mem hb
    obtain ⟨b', hb', heq⟩ := List.mem_map.mp hmem
    exact hshape.inner b' hb' I (heq ▸ hI)
  · exact hnames ▸ hshape.names
  · have hlift : ∃ env', liftMCFunction env' MBBs = .ok F := by
      simp only [run, hasm, bind, Except.bind] at hF
      exact ⟨_, hF⟩
    obtain ⟨env', hlift⟩ := hlift
    have hw := wired hshape hM hlift
    refine ⟨entry_no_pred hshape hw, fun ω hin => ?_⟩
    refine (wired_sim hshape hw (asm_follows h hs)).traces_eq (Or.inr ⟨_, rfl, ?_⟩) hin
    show List.drop 0 _ = restAt _ 0
    rw [hkeep]
    rfl

/-- A loop whose label is called like LLVM's usual entry block. -/
def loopBody : List Callback :=
  [.emitLabel ".text" "entry",
    .emitInstruction .JNE_ri [.reg (.R 1), .imm 0, .expr (.symbolRef "entry")],
    .emitInstruction .RET []]

theorem loopBody_textStream : TextStream loopBody where
  text := by decide
  starts := by decide
  nodup := by decide
  no_end := by decide
  no_hash := by decide
  no_numeral := by
    intro l hl k hk
    obtain rfl : l = "entry" := by simpa [loopBody, labels, Callback.label?, isDebugSection] using hl
    have he : 'e' ∈ (toString k).toList := hk ▸ by decide
    rw [Nat.toString_eq_ofList_toDigits, String.toList_ofList] at he
    exact nomatch Nat.isDigit_of_mem_toDigits (by omega) (by omega) he
  targets := by decide

theorem loopBody_inside : (asmFlow loopBody).Inside once 0 := by
  have hcond : (asmFlow loopBody).exit 0 = .cond 0 1 := by decide
  have hstop : (asmFlow loopBody).exit 1 = .stop := by decide
  have htaken : (if once 0 then 0 else 1) = 0 := by decide
  have hleft : (if once (0 + 1) then 0 else 1) = 1 := by decide
  intro n
  match n with
  | 0 => exact nofun
  | 1 => rw [Flow.run_cond hcond]; exact nofun
  | 2 =>
    rw [Flow.run_cond hcond, htaken, Flow.run_cond hcond]
    exact nofun
  | n + 3 =>
    rw [Flow.run_cond hcond, htaken, Flow.run_cond hcond, hleft, Flow.run_stop hstop]
    exact nofun

/-- The theorem at the loop. -/
theorem asm_control_flow_loop : ∃ F : LFunction,
    (F.flow asmObs).traces once .init = (asmFlow loopBody).traces once 0 := by
  obtain ⟨_, _, _, _, _, h⟩ :=
    asm_control_flow (fun _ => none) loopBody ".text" (by decide) loopBody_textStream
  have hF : (run { module := ⟨"entry", ⟨.void, []⟩, [], [], []⟩ } (fun _ => none)
      (loopBody ++ [.emitLabel ".text" ".Lfunc_end0"])).toOption.isSome = true := by decide +kernel
  obtain ⟨F, hF⟩ := ok_of_isSome hF
  exact ⟨F, (h _ F hF).2 once loopBody_inside⟩

end BpfTv
