import BpfTv.Mc.Blocks
import Mathlib.Data.List.Induction
import Mathlib.Logic.Function.Basic

/-!
# Source locations

`addDebugInfo` numbers the instructions of the source function and gives each of them its number as a
line; the streamer leads a `.loc` line back to its instruction. The numbers start at 0, which is also
the line that the streamer assumes before any `.loc` and the one that LLVM gives to code without a
source location: both lead to the first instruction (`source_locations`).
-/

namespace BpfTv

section

variable {α : Type}

/-- What `addDebugInfo` has done so far: the map from lines to instructions, the line that each
instruction has been given, and the next line. -/
structure DebugInfo (α : Type) where
  lineMap : Nat → Option α := fun _ => none
  lines : List (α × Nat) := []
  line : Nat := 0

/-- One instruction. -/
def DebugInfo.add (D : DebugInfo α) (i : α) : DebugInfo α :=
  { lineMap := Function.update D.lineMap D.line (some i)
    lines := D.lines ++ [(i, D.line)]
    line := D.line + 1 }

/-- `addDebugInfo`, on the instructions of each block. -/
def addDebugInfo (blocks : List (List α)) : DebugInfo α :=
  blocks.foldl (fun D bb => bb.foldl DebugInfo.add D) {}

/-- The instruction that has been given a line. -/
def DebugInfo.tagged (D : DebugInfo α) (line : Nat) : Option α :=
  (D.lines.find? fun t => t.2 = line).map Prod.fst

theorem addDebugInfo_eq (blocks : List (List α)) :
    addDebugInfo blocks = blocks.flatten.foldl DebugInfo.add {} := by
  rw [addDebugInfo, List.foldl_flatten]

theorem foldl_add (is : List α) : (is.foldl DebugInfo.add {}).lines = is.zipIdx ∧
    (is.foldl DebugInfo.add {}).line = is.length ∧
    ∀ line, (is.foldl DebugInfo.add {}).lineMap line = is[line]? := by
  induction is using List.reverseRecOn with
  | nil => exact ⟨rfl, rfl, fun _ => rfl⟩
  | append_singleton is i ih =>
    obtain ⟨hlines, hline, hmap⟩ := ih
    rw [List.foldl_append]
    refine ⟨?_, ?_, fun line => ?_⟩
    · show _ ++ [(i, _)] = _
      rw [hlines, hline, List.zipIdx_append, Nat.zero_add]
      rfl
    · show _ + 1 = _
      rw [hline, List.length_append]
      rfl
    · show Function.update _ _ _ line = _
      rw [hline]
      by_cases heq : line = is.length
      · rw [heq, Function.update_self, List.getElem?_concat_length]
      · rw [Function.update_of_ne heq, hmap]
        rcases Nat.lt_or_gt_of_ne heq with hlt | hgt
        · rw [List.getElem?_append_left hlt]
        · rw [List.getElem?_eq_none (Nat.le_of_lt hgt), List.getElem?_eq_none]
          rw [List.length_append, List.length_singleton]
          omega

theorem lineMap_tagged (blocks : List (List α)) (line : Nat) :
    (addDebugInfo blocks).lineMap line = (addDebugInfo blocks).tagged line := by
  obtain ⟨hlines, _, hmap⟩ := foldl_add blocks.flatten
  rw [DebugInfo.tagged, addDebugInfo_eq, hmap, hlines]
  cases hget : blocks.flatten[line]? with
  | none =>
    have hnone : blocks.flatten.zipIdx.find? (fun t => t.2 = line) = none := by
      refine List.find?_eq_none.mpr fun t ht => ?_
      have hlt := List.snd_lt_of_mem_zipIdx ht
      have hge := List.getElem?_eq_none_iff.mp hget
      simp only [decide_eq_true_eq]
      omega
    rw [hnone]
    rfl
  | some i =>
    have hmem : (i, line) ∈ blocks.flatten.zipIdx := List.mk_mem_zipIdx_iff_getElem?.mpr hget
    cases hfind : blocks.flatten.zipIdx.find? (fun t => t.2 = line) with
    | none => exact absurd (List.find?_eq_none.mp hfind _ hmem) (by simp)
    | some t =>
      have hline : t.2 = line := by simpa using List.find?_some hfind
      have ht := List.mk_mem_zipIdx_iff_getElem?.mp (List.mem_of_find?_eq_some hfind)
      rw [hline, hget] at ht
      exact ht

end

/-! ## The stream -/

/-- The line of the latest `.loc` in front of each instruction of the stream. -/
def locsFrom : Option Nat → List Callback → List (Option Nat)
  | _, [] => []
  | _, .emitDwarfLocDirective line :: cs => locsFrom (some line) cs
  | loc, .emitInstruction _ _ :: cs => loc :: locsFrom loc cs
  | loc, _ :: cs => locsFrom loc cs

/-- The lines of the instructions of a stream. -/
def locs (cs : List Callback) : List (Option Nat) := locsFrom none cs

/-- The source instruction of a `.loc` line; line 0 stands for none. -/
def DebugInfo.source {α : Type} (D : DebugInfo α) : Option Nat → Option α
  | none | some 0 => none
  | some line => D.tagged line

/-- Every instruction of the assembly has the source instruction of its line. -/
def Located (D : DebugInfo SrcInst) (cs : List Callback) (BBs : List MCBasicBlock) : Prop :=
  (placed (flat BBs)).map (·.loc) = (locs cs).map D.source

variable {lineMap : Nat → Option SrcInst} {S S' : Streamer} {c : Callback} {cs : List Callback}
  {loc : Option Nat}

/-- The instructions that a callback adds, with the line that the streamer has at hand. -/
def addedLocs (lineMap : Nat → Option SrcInst) (S : Streamer) : Callback → List (Option SrcInst)
  | .emitInstruction _ _ => [lineMap S.curDebugLine]
  | _ => []

/-- The line at hand after a callback. -/
def lineAfter (line : Nat) : Callback → Nat
  | .emitDwarfLocDirective line => line
  | _ => line

theorem addConstant_BBs (S : Streamer) : S.addConstant.MF.BBs = S.MF.BBs ∧
    S.addConstant.prev_line = S.prev_line ∧ S.addConstant.curDebugLine = S.curDebugLine := by
  unfold Streamer.addConstant
  split
  · exact ⟨rfl, rfl, rfl⟩
  · exact ⟨rfl, rfl, rfl⟩

theorem emitLabel_locs (S : Streamer) (secName lab : String) (hopen : S.prev_line ≠ .none → S.MF.BBs ≠ []) :
    placed (flat (S.emitLabel secName lab).MF.BBs) = placed (flat S.MF.BBs) ∧
      (S.emitLabel secName lab).curDebugLine = S.curDebugLine ∧
      ((S.emitLabel secName lab).prev_line ≠ .none → (S.emitLabel secName lab).MF.BBs ≠ []) := by
  obtain ⟨hBBs, hprev, hline⟩ := addConstant_BBs S
  unfold Streamer.emitLabel
  split
  · exact ⟨rfl, rfl, hopen⟩
  · have hnew : ∀ T : Streamer, T.MF.BBs = S.MF.BBs →
        placed (flat (T.MF.addBlock lab [sentinelNOP]).BBs) = placed (flat S.MF.BBs) := by
      intro T hT
      rw [MCFunction.addBlock, hT, flat_append, placed_append]
      exact List.append_nil _
    by_cases hend : lab = ".Lfunc_end0"
    · simp only [hend, if_true]
      exact ⟨by rw [hBBs], hline, by rw [hBBs, hprev]; exact hopen⟩
    · simp only [hend, if_false]
      split
      · exact ⟨by rw [hBBs], hline, by rw [hBBs, hprev]; exact hopen⟩
      · refine ⟨hnew _ hBBs, hline, fun _ => ?_⟩
        simp [MCFunction.addBlock]

/-- What a callback does to the source instructions of the blocks and to the line at hand. -/
theorem emit_locs (h : S.emit lineMap c = .ok S') (hopen : S.prev_line ≠ .none → S.MF.BBs ≠ []) :
    (placed (flat S'.MF.BBs)).map (·.loc) =
        (placed (flat S.MF.BBs)).map (·.loc) ++ addedLocs lineMap S c ∧
      S'.curDebugLine = lineAfter S.curDebugLine c ∧ (S'.prev_line ≠ .none → S'.MF.BBs ≠ []) := by
  cases c with
  | emitLabel secName lab =>
    cases h
    obtain ⟨hflat, hline, hne⟩ := emitLabel_locs S secName lab hopen
    rw [hflat]
    exact ⟨(List.append_nil _).symm, hline, hne⟩
  | emitInstruction opcode operands =>
    simp only [Streamer.emit, Streamer.emitInstruction] at h
    split at h
    · cases h
    · rename_i hprev
      cases h
      -- the block that the instruction goes to holds what the last one does
      obtain ⟨bs, b, hb, hflat⟩ : ∃ bs b, S.openBlock.BBs = bs ++ [b] ∧
          flat (bs ++ [b]) = flat S.MF.BBs := by
        unfold Streamer.openBlock
        split
        · exact ⟨S.MF.BBs, ⟨_, [], []⟩, rfl, by rw [flat_append]; exact List.append_nil _⟩
        · obtain ⟨bs, b, hb⟩ := (List.eq_nil_or_concat' S.MF.BBs).resolve_left (hopen hprev)
          exact ⟨bs, b, hb, by rw [hb]⟩
      refine ⟨?_, rfl, fun _ => ?_⟩
      · show (placed (flat (S.openBlock.addInst _).BBs)).map _ = _
        rw [addInst_BBs hb, ← hflat, flat_append, flat_append, placed_append, placed_append]
        simp [flat, placed, addedLocs]
      · show (S.openBlock.addInst _).BBs ≠ []
        rw [addInst_BBs hb]
        simp
  | emitValueImpl value =>
    simp only [Streamer.emit, Streamer.emitValueImpl] at h
    split at h
    · cases h
      exact ⟨(List.append_nil _).symm, rfl, hopen⟩
    · split at h
      · cases h
        exact ⟨(List.append_nil _).symm, rfl, hopen⟩
      · cases h
        exact ⟨(List.append_nil _).symm, rfl, hopen⟩
      · cases h
  | emitFill numBytes fillValue =>
    simp only [Streamer.emit, Streamer.emitFill] at h
    split at h
    · cases h
      exact ⟨(List.append_nil _).symm, rfl, hopen⟩
    · split at h
      · cases h
        exact ⟨(List.append_nil _).symm, rfl, hopen⟩
      · cases h
  | emitELFSize =>
    cases h
    obtain ⟨hBBs, hprev, hline⟩ := addConstant_BBs S
    rw [hBBs, hprev]
    exact ⟨(List.append_nil _).symm, hline, hopen⟩
  | emitDwarfLocDirective line | emitBytes data | emitValueToAlignment align | emitCommonSymbol sym size align =>
    cases h
    exact ⟨(List.append_nil _).symm, rfl, hopen⟩

theorem emitAll_locs (loc : Option Nat) (hopen : S.prev_line ≠ .none → S.MF.BBs ≠ [])
    (hloc : S.curDebugLine = loc.getD 0)
    (h : cs.foldlM (Streamer.emit lineMap) S = .ok S') :
    (placed (flat S'.MF.BBs)).map (·.loc) =
      (placed (flat S.MF.BBs)).map (·.loc) ++ (locsFrom loc cs).map fun l => lineMap (l.getD 0) := by
  induction cs generalizing S loc with
  | nil =>
    cases h
    exact (List.append_nil _).symm
  | cons c cs ih =>
    rw [List.foldlM_cons] at h
    cases hS : S.emit lineMap c with
    | error e =>
      rw [hS] at h
      cases h
    | ok S₁ =>
      rw [hS] at h
      obtain ⟨hlocs, hline, hopen'⟩ := emit_locs hS hopen
      cases c with
      | emitDwarfLocDirective line =>
        rw [ih (some line) hopen' hline h, hlocs]
        simp [addedLocs, locsFrom]
      | emitInstruction opcode operands =>
        rw [ih loc hopen' (hline.trans hloc) h, hlocs]
        simp [addedLocs, locsFrom, hloc]
      | _ =>
        rw [ih loc hopen' (hline.trans hloc) h, hlocs]
        simp [addedLocs, locsFrom]

/-- **Source locations.** Every instruction of the assembly is given the source instruction of its line,
and none without one, if and only if each of them has a `.loc` in front whose line is not 0. -/
theorem source_locations (blocks : List (List SrcInst)) (hne : blocks.flatten ≠ []) (cs : List Callback)
    (S : Streamer) (h : Streamer.emitAll (addDebugInfo blocks).lineMap cs = .ok S) :
    Located (addDebugInfo blocks) cs S.MF.BBs ↔ ∀ l ∈ locs cs, ∃ line, l = some line ∧ line ≠ 0 := by
  have hlocs := emitAll_locs none (fun h => absurd rfl h) rfl h
  rw [Located, hlocs]
  show [] ++ List.map _ (locs cs) = _ ↔ _
  rw [List.nil_append, List.map_inj_left]
  -- line 0 leads to the first instruction
  have hzero : (addDebugInfo blocks).lineMap 0 ≠ none := by
    rw [addDebugInfo_eq, (foldl_add blocks.flatten).2.2]
    intro hnone
    have hle := List.getElem?_eq_none_iff.mp hnone
    exact hne (List.length_eq_zero_iff.mp (by omega))
  refine forall₂_congr fun l _ => ?_
  cases l with
  | none =>
    refine ⟨fun hl => absurd hl hzero, ?_⟩
    rintro ⟨_, hl, _⟩
    cases hl
  | some line =>
    cases line with
    | zero =>
      refine ⟨fun hl => absurd hl hzero, ?_⟩
      rintro ⟨_, hl, hpos⟩
      cases hl
      exact absurd rfl hpos
    | succ line =>
      exact ⟨fun _ => ⟨_, rfl, Nat.succ_ne_zero _⟩, fun _ => lineMap_tagged blocks _⟩

/-- A function that jumps and returns. -/
def twoBlocks : List (List SrcInst) := [[.other 0], [.other 1]]

theorem source_locations_second :
    ∃ S, Streamer.emitAll (addDebugInfo twoBlocks).lineMap
        [.emitLabel ".text" "f", .emitDwarfLocDirective 1, .emitInstruction .RET []] = .ok S ∧
      Located (addDebugInfo twoBlocks)
        [.emitLabel ".text" "f", .emitDwarfLocDirective 1, .emitInstruction .RET []] S.MF.BBs := by
  refine ⟨_, rfl, (source_locations twoBlocks (by decide) _ _ rfl).mpr ?_⟩
  intro l hl
  obtain rfl := List.mem_singleton.mp hl
  exact ⟨1, rfl, by decide⟩

/-- Without a `.loc`, and with one of line 0, the instruction goes to the first one of the source. -/
theorem source_locations_fails :
    (∃ S, Streamer.emitAll (addDebugInfo twoBlocks).lineMap
        [.emitLabel ".text" "f", .emitInstruction .RET []] = .ok S ∧
      ¬Located (addDebugInfo twoBlocks) [.emitLabel ".text" "f", .emitInstruction .RET []] S.MF.BBs) ∧
    ∃ S, Streamer.emitAll (addDebugInfo twoBlocks).lineMap
        [.emitLabel ".text" "f", .emitDwarfLocDirective 0, .emitInstruction .RET []] = .ok S ∧
      ¬Located (addDebugInfo twoBlocks)
        [.emitLabel ".text" "f", .emitDwarfLocDirective 0, .emitInstruction .RET []] S.MF.BBs := by
  refine ⟨⟨_, rfl, ?_⟩, ⟨_, rfl, ?_⟩⟩
  · unfold Located
    decide
  · unfold Located
    decide

end BpfTv
