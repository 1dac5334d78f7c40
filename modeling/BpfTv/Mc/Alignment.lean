import BpfTv.Mc.Blocks
import Mathlib.Data.List.Induction
import Mathlib.Tactic.Common

/-!
# The alignment of data globals

An alignment directive is for the labels of the place where it stands. The streamer keeps the latest
one that it is told of, whatever has been emitted since, and uses it for a global when the object
ends. The directives of executable sections go to a callback that it does not override.
-/

namespace BpfTv

/-- What the assembly parser calls on an `MCStreamer`. A label is emitted in the current section. -/
inductive StreamerCall
  | switchSection (name : String)
  | emitLabel (lab : String)
  | emitInstruction (opcode : Opcode) (operands : List MCOperand)
  | emitDwarfLocDirective (line : Nat)
  | emitValueImpl (value : MCValue)
  | emitBytes (data : List (BitVec 8))
  | emitFill (numBytes : Option Int) (fillValue : Nat)
  /-- An alignment directive in an executable section. -/
  | emitCodeAlignment (align : Nat)
  /-- An alignment directive elsewhere, or one with a fill value. -/
  | emitValueToAlignment (align : Nat)
  | emitELFSize
  | emitCommonSymbol (sym : String) (size align : Nat)
  deriving DecidableEq, Repr

/-- The callback of `MCStreamerWrapper` for a call in section `sec`. It overrides neither
`changeSection` nor `emitCodeAlignment`. -/
def StreamerCall.callback? (sec : String) : StreamerCall → Option Callback
  | .switchSection _ => none
  | .emitLabel lab => some (.emitLabel sec lab)
  | .emitInstruction opcode operands => some (.emitInstruction opcode operands)
  | .emitDwarfLocDirective line => some (.emitDwarfLocDirective line)
  | .emitValueImpl value => some (.emitValueImpl value)
  | .emitBytes data => some (.emitBytes data)
  | .emitFill numBytes fillValue => some (.emitFill numBytes fillValue)
  | .emitCodeAlignment _ => none
  | .emitValueToAlignment align => some (.emitValueToAlignment align)
  | .emitELFSize => some .emitELFSize
  | .emitCommonSymbol sym size align => some (.emitCommonSymbol sym size align)

/-- What the calls up to a place say about alignment. -/
structure Place where
  sec : String := ""
  /-- The alignment asked for at this place. -/
  here : Option Nat := none
  /-- The latest alignment that the wrapper has been told. -/
  last : Nat := 1
  /-- The alignment of the latest label, outside of debug sections. -/
  label : Nat := 1
  deriving DecidableEq, Repr

/-- Labels and line numbers take no room; anything else is the end of the place that an alignment
is for. A common symbol has a place of its own. -/
def Place.next (P : Place) : StreamerCall → Place
  | .switchSection name => { P with sec := name, here := if name = P.sec then P.here else none }
  | .emitLabel _ => if isDebugSection P.sec then P else { P with label := P.here.getD 1 }
  | .emitCodeAlignment align => { P with here := some align }
  | .emitValueToAlignment align => { P with here := some align, last := align }
  | .emitDwarfLocDirective _ => P
  | .emitCommonSymbol _ _ _ => P
  | .emitInstruction _ _ => { P with here := none }
  | .emitValueImpl _ => { P with here := none }
  | .emitBytes _ => { P with here := none }
  | .emitFill _ _ => { P with here := none }
  | .emitELFSize => { P with here := none }

def place (ds : List StreamerCall) : Place := ds.foldl Place.next {}

/-- `getCurrentSection` after a call. -/
def StreamerCall.sectionAfter (sec : String) : StreamerCall → String
  | .switchSection name => name
  | _ => sec

/-- The callbacks for the calls of a file. -/
def callbacks : String → List StreamerCall → List Callback
  | _, [] => []
  | sec, d :: ds => (d.callback? sec).toList ++ callbacks (d.sectionAfter sec) ds

/-- The streamer after the calls of a file. -/
def stream (lineMap : Nat → Option SrcInst) (ds : List StreamerCall) : Except LiftError Streamer :=
  Streamer.emitAll lineMap (callbacks "" ds)

/-- The streamer after one call. -/
def StreamerCall.play (lineMap : Nat → Option SrcInst) (sec : String) (S : Streamer)
    (d : StreamerCall) : Except LiftError Streamer :=
  (d.callback? sec).toList.foldlM (Streamer.emit lineMap) S

variable {lineMap : Nat → Option SrcInst} {S S' : Streamer} {ds pre post : List StreamerCall}
  {d : StreamerCall} {g : MCGlobal}

theorem next_sec (P : Place) (d : StreamerCall) : (P.next d).sec = d.sectionAfter P.sec := by
  cases d with
  | emitLabel lab =>
    show (if isDebugSection P.sec then P else { P with label := P.here.getD 1 }).sec = P.sec
    split <;> rfl
  | _ => rfl

theorem callbacks_concat (P : Place) (ds : List StreamerCall) (d : StreamerCall) :
    callbacks P.sec (ds ++ [d]) =
      callbacks P.sec ds ++ (d.callback? (ds.foldl Place.next P).sec).toList := by
  induction ds generalizing P with
  | nil => exact List.append_nil _
  | cons e ds ih =>
    rw [List.cons_append, callbacks, callbacks, ← next_sec, ih (P.next e), List.append_assoc]
    rfl

theorem stream_concat (lineMap : Nat → Option SrcInst) (pre : List StreamerCall) (d : StreamerCall) :
    stream lineMap (pre ++ [d]) = stream lineMap pre >>= fun S => d.play lineMap (place pre).sec S := by
  rw [stream, Streamer.emitAll, show ("" : String) = ({} : Place).sec from rfl, callbacks_concat,
    List.foldlM_append]
  rfl

theorem place_concat (pre : List StreamerCall) (d : StreamerCall) : place (pre ++ [d]) = (place pre).next d := by
  rw [place, List.foldl_append]
  rfl

/-! ## What the streamer records -/

/-- The global that `addConstant` adds. -/
def Streamer.pending (S : Streamer) : List MCGlobal :=
  if S.curROData = [] then [] else
    [{ name := S.curSym, align := S.curAlign, section_ := S.curSec, data := S.curROData }]

theorem addConstant_MCglobals (S : Streamer) :
    S.addConstant.MF.MCglobals = S.MF.MCglobals ++ S.pending := by
  unfold Streamer.addConstant Streamer.pending
  split
  · rw [List.append_nil]
  · rfl

theorem addConstant_curAlign (S : Streamer) : S.addConstant.curAlign = S.curAlign := by
  unfold Streamer.addConstant
  split <;> rfl

/-- The globals that a callback adds. -/
def Streamer.added (S : Streamer) : Callback → List MCGlobal
  | .emitLabel secName _ => if isDebugSection secName then [] else S.pending
  | .emitELFSize => S.pending
  | .emitCommonSymbol sym size align =>
    [{ name := sym, align, section_ := "common", data := List.replicate size (.byte 48#8) }]
  | _ => []

theorem emitLabel_spec (S : Streamer) (secName lab : String) :
    (S.emitLabel secName lab).MF.MCglobals = S.MF.MCglobals ++ S.added (.emitLabel secName lab) ∧
      (S.emitLabel secName lab).curAlign = S.curAlign := by
  have hglobals := addConstant_MCglobals S
  have halign := addConstant_curAlign S
  have hadded : S.added (.emitLabel secName lab) = if isDebugSection secName then [] else S.pending := rfl
  rw [hadded]
  unfold Streamer.emitLabel
  by_cases hdebug : isDebugSection secName
  · rw [if_pos hdebug, if_pos hdebug, List.append_nil]
    exact ⟨rfl, rfl⟩
  · rw [if_neg hdebug, if_neg hdebug]
    simp only
    split
    · split <;> exact ⟨hglobals, halign⟩
    · split <;> exact ⟨hglobals, halign⟩

theorem openBlock_MCglobals (S : Streamer) : S.openBlock.MCglobals = S.MF.MCglobals := by
  unfold Streamer.openBlock
  split <;> rfl

/-- What a callback does to the globals and to the alignment. -/
theorem emit_spec {c : Callback} (h : S.emit lineMap c = .ok S') :
    S'.MF.MCglobals = S.MF.MCglobals ++ S.added c ∧
      S'.curAlign = (match c with | .emitValueToAlignment align => align | _ => S.curAlign) := by
  cases c with
  | emitLabel secName lab =>
    obtain rfl := Except.ok.inj h
    exact emitLabel_spec S secName lab
  | emitInstruction opcode operands =>
    unfold Streamer.emit Streamer.emitInstruction at h
    simp only at h
    split at h
    · cases h
    · obtain rfl := Except.ok.inj h
      exact ⟨(openBlock_MCglobals S).trans (List.append_nil _).symm, rfl⟩
  | emitDwarfLocDirective line =>
    obtain rfl := Except.ok.inj h
    exact ⟨(List.append_nil _).symm, rfl⟩
  | emitValueImpl value =>
    unfold Streamer.emit Streamer.emitValueImpl at h
    simp only at h
    split at h
    · obtain rfl := Except.ok.inj h
      exact ⟨(List.append_nil _).symm, rfl⟩
    · split at h
      · obtain rfl := Except.ok.inj h
        exact ⟨(List.append_nil _).symm, rfl⟩
      · obtain rfl := Except.ok.inj h
        exact ⟨(List.append_nil _).symm, rfl⟩
      · cases h
  | emitBytes data =>
    obtain rfl := Except.ok.inj h
    exact ⟨(List.append_nil _).symm, rfl⟩
  | emitFill numBytes fillValue =>
    unfold Streamer.emit Streamer.emitFill at h
    simp only at h
    split at h
    · obtain rfl := Except.ok.inj h
      exact ⟨(List.append_nil _).symm, rfl⟩
    · split at h
      · obtain rfl := Except.ok.inj h
        exact ⟨(List.append_nil _).symm, rfl⟩
      · cases h
  | emitValueToAlignment align =>
    obtain rfl := Except.ok.inj h
    exact ⟨(List.append_nil _).symm, rfl⟩
  | emitELFSize =>
    obtain rfl := Except.ok.inj h
    exact ⟨addConstant_MCglobals S, addConstant_curAlign S⟩
  | emitCommonSymbol sym size align =>
    obtain rfl := Except.ok.inj h
    exact ⟨rfl, rfl⟩

theorem play_spec {P : Place} (h : d.play lineMap P.sec S = .ok S') (halign : S.curAlign = P.last) :
    S'.MF.MCglobals = S.MF.MCglobals ++ (d.callback? P.sec).toList.flatMap S.added ∧
      S'.curAlign = (P.next d).last := by
  unfold StreamerCall.play at h
  cases hc : d.callback? P.sec with
  | none =>
    rw [hc] at h
    obtain rfl := Except.ok.inj h
    refine ⟨(List.append_nil _).symm, ?_⟩
    cases d with
    | switchSection name => exact halign
    | emitCodeAlignment a => exact halign
    | _ => cases hc
  | some c =>
    rw [hc] at h
    have hemit : S.emit lineMap c = .ok S' := by
      cases hs : S.emit lineMap c with
      | ok S₁ =>
        simp only [Option.toList_some, List.foldlM_cons, List.foldlM_nil, hs] at h
        exact h
      | error e =>
        simp only [Option.toList_some, List.foldlM_cons, hs] at h
        cases h
    obtain ⟨hglobals, hnext⟩ := emit_spec hemit
    refine ⟨by simpa using hglobals, hnext.trans ?_⟩
    cases d with
    | switchSection name => cases hc
    | emitCodeAlignment a => cases hc
    | emitValueToAlignment a =>
      obtain rfl := Option.some_inj.mp hc
      rfl
    | emitLabel lab =>
      obtain rfl := Option.some_inj.mp hc
      show S.curAlign = (if isDebugSection P.sec then P else { P with label := P.here.getD 1 }).last
      split <;> exact halign
    | _ =>
      obtain rfl := Option.some_inj.mp hc
      exact halign

theorem stream_curAlign (h : stream lineMap ds = .ok S) : S.curAlign = (place ds).last := by
  induction ds using List.reverseRecOn generalizing S with
  | nil =>
    obtain rfl := Except.ok.inj h
    rfl
  | append_singleton pre d ih =>
    rw [stream_concat] at h
    cases hpre : stream lineMap pre with
    | error e =>
      rw [hpre] at h
      cases h
    | ok S₁ =>
      rw [hpre] at h
      rw [place_concat]
      exact (play_spec h (ih hpre)).2

/-- The call ends the object before it: a label outside of debug sections, or a size. -/
def StreamerCall.EndsObject (P : Place) : StreamerCall → Prop
  | .emitLabel _ => isDebugSection P.sec = false
  | .emitELFSize => True
  | _ => False

/-- The alignment that the assembly gives a global: the one of its label, for a common symbol its
own. -/
def StreamerCall.alignment (P : Place) : StreamerCall → Nat
  | .emitCommonSymbol _ _ a => a
  | _ => P.label

/-- Each global that is recorded along the stream has the alignment that the assembly gives it. -/
def Attributed (lineMap : Nat → Option SrcInst) (ds : List StreamerCall) : Prop :=
  ∀ pre d post, ds = pre ++ d :: post → ∀ S S' g, stream lineMap pre = .ok S →
    stream lineMap (pre ++ [d]) = .ok S' → S'.MF.MCglobals = S.MF.MCglobals ++ [g] →
    g.align = d.alignment (place pre)

/-- Whenever an object with data ends, the latest `emitValueToAlignment` of the stream asks for what
applies to the label of the object. -/
def LatestApplies (lineMap : Nat → Option SrcInst) (ds : List StreamerCall) : Prop :=
  ∀ pre d post, ds = pre ++ d :: post → d.EndsObject (place pre) → ∀ S, stream lineMap pre = .ok S →
    S.curROData ≠ [] → (place pre).last = (place pre).label

/-- The end of an object adds the pending global. -/
theorem endsObject_play (lineMap : Nat → Option SrcInst) (S : Streamer) {P : Place}
    (h : d.EndsObject P) :
    d.alignment P = P.label ∧ ∃ S', d.play lineMap P.sec S = .ok S' ∧
      S'.MF.MCglobals = S.MF.MCglobals ++ S.pending := by
  cases d with
  | emitLabel lab =>
    refine ⟨rfl, _, rfl, ?_⟩
    rw [(emitLabel_spec S P.sec lab).1]
    refine congrArg (S.MF.MCglobals ++ ·) ?_
    show (if isDebugSection P.sec then [] else S.pending) = S.pending
    rw [if_neg]
    exact fun hdebug => Bool.noConfusion (hdebug.symm.trans h)
  | emitELFSize => exact ⟨rfl, _, rfl, addConstant_MCglobals S⟩
  | _ => exact h.elim

theorem pending_of_data (h : S.curROData ≠ []) : ∃ g, S.pending = [g] ∧ g.align = S.curAlign :=
  ⟨_, if_neg h, rfl⟩

theorem added_cases {P : Place} (h : (d.callback? P.sec).toList.flatMap S.added = [g]) :
    d.EndsObject P ∧ d.alignment P = P.label ∧ S.pending = [g] ∨ g.align = d.alignment P := by
  cases d with
  | emitLabel lab =>
    have hadded : (if isDebugSection P.sec then [] else S.pending) = [g] := by
      rw [← h]
      exact (List.append_nil _).symm
    by_cases hdebug : isDebugSection P.sec
    · rw [if_pos hdebug] at hadded
      cases hadded
    · rw [if_neg hdebug] at hadded
      exact Or.inl ⟨Bool.eq_false_iff.mpr hdebug, rfl, hadded⟩
  | emitELFSize => exact Or.inl ⟨trivial, rfl, by rw [← h]; exact (List.append_nil _).symm⟩
  | emitCommonSymbol sym n a =>
    have hadded := List.head_eq_of_cons_eq h
    exact Or.inr (hadded ▸ rfl)
  | _ => cases h

/-- The recorded alignments are those of the labels exactly when the latest `emitValueToAlignment`
asks for the alignment of the label of each object that ends. -/
theorem alignment_attribution (lineMap : Nat → Option SrcInst) (ds : List StreamerCall) :
    Attributed lineMap ds ↔ LatestApplies lineMap ds := by
  constructor
  · intro h pre d post hds hend S hS hdata
    obtain ⟨hlabel, S', hplay, hglobals⟩ := endsObject_play lineMap S hend
    obtain ⟨g, hg, halign⟩ := pending_of_data hdata
    have hS' : stream lineMap (pre ++ [d]) = .ok S' := by
      rw [stream_concat, hS]
      exact hplay
    rw [← hlabel, ← h pre d post hds S S' g hS hS' (hg ▸ hglobals), halign, stream_curAlign hS]
  · intro h pre d post hds S S' g hS hS' hg
    rw [stream_concat, hS] at hS'
    have halign := stream_curAlign hS
    have hadded := (play_spec hS' halign).1
    rw [hg, List.append_cancel_left_eq] at hadded
    rcases added_cases hadded.symm with ⟨hend, hlabel, hpending⟩ | hg
    · have hdata : S.curROData ≠ [] := by
        intro hnil
        rw [Streamer.pending, if_pos hnil] at hpending
        cases hpending
      obtain ⟨g', hg', halign'⟩ := pending_of_data hdata
      obtain rfl : g' = g := List.head_eq_of_cons_eq (hg'.symm.trans hpending)
      rw [halign', halign, hlabel, h pre d post hds hend S hS hdata]
    · exact hg

/-- The calls for `.data; .p2align 3; a: .quad 1; .size a; x: .byte 1`. -/
def byteAfterQuad : List StreamerCall :=
  [.switchSection ".data", .emitValueToAlignment 8, .emitLabel "a",
    .emitBytes [1#8, 0#8, 0#8, 0#8, 0#8, 0#8, 0#8, 0#8], .emitELFSize, .emitLabel "x", .emitBytes [1#8]]

/-- The byte is recorded with the alignment of the object before it. -/
theorem alignment_attribution_byte_fails :
    ¬ ∀ (lineMap : Nat → Option SrcInst) (ds : List StreamerCall), Attributed lineMap ds := by
  intro h
  let lineMap : Nat → Option SrcInst := fun _ => none
  let a : MCGlobal :=
    { name := "a", align := 8, section_ := ".data"
      data := .byte 1#8 :: List.replicate 7 (.byte 0#8) }
  let x : MCGlobal := { name := "x", align := 8, section_ := ".data", data := [.byte 1#8] }
  obtain ⟨S, hS⟩ : ∃ S, stream lineMap byteAfterQuad = .ok S := ok_of_isSome (by decide +kernel)
  obtain ⟨S', hS'⟩ : ∃ S', stream lineMap (byteAfterQuad ++ [.emitELFSize]) = .ok S' :=
    ok_of_isSome (by decide +kernel)
  have hbefore : (stream lineMap byteAfterQuad).toOption.map (fun S => S.MF.MCglobals) =
      some [stackChkGuard, a] := by decide +kernel
  have hafter : (stream lineMap (byteAfterQuad ++ [.emitELFSize])).toOption.map
      (fun S => S.MF.MCglobals) = some [stackChkGuard, a, x] := by decide +kernel
  rw [hS] at hbefore
  rw [hS'] at hafter
  have hg : S'.MF.MCglobals = S.MF.MCglobals ++ [x] := by
    have hS'globals : S'.MF.MCglobals = [stackChkGuard, a, x] := Option.some_inj.mp hafter
    have hSglobals : S.MF.MCglobals = [stackChkGuard, a] := Option.some_inj.mp hbefore
    rw [hS'globals, hSglobals]
    rfl
  have halign := h lineMap (byteAfterQuad ++ [.emitELFSize]) byteAfterQuad .emitELFSize [] rfl S S' x
    hS hS' hg
  revert halign
  decide +kernel

end BpfTv
