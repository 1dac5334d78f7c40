import BpfTv.Driver.AsmStripping

/-!
# Runs without empty inline asm

When a call of empty inline asm returns the inputs that its outputs are tied to and does nothing else,
a source function has the same runs with and without the calls that the driver strips: it returns the
same values in the same worlds, after the same other calls. The calls of inline asm that are not to be
stripped are left (`inline_asm_stripping`); what they lose are only uses by calls that are stripped
(`inline_asm_stripping_fails`).
-/

namespace BpfTv.Ssa

variable {V W : Type} {F : Fn} {U : ∀ F : Fn, F.UseLists} {M : Semantics V W} {R : List Nat} {σ : Val → Val}
  {ci : Instr}

/-! ## The other calls -/

/-- What is called, unless it is empty inline asm. -/
def Op.otherCall : Op → Option Callee
  | .call (.asm ia) => if ia.asmString.isEmpty then none else some (.asm ia)
  | .call c => some c
  | _ => none

def TermOp.call? : TermOp → Option Callee
  | .call c => some c
  | _ => none

/-- The world with the calls that have been made so far. -/
def Semantics.logging (M : Semantics V W) : Semantics V (W × List (Callee × List (Datum V))) where
  arg := M.arg
  const := M.const
  exec op ty xs world := (M.exec op ty xs world.1).map fun r =>
    (r.1, r.2, world.2 ++ (op.otherCall.map fun c => (c, xs)).toList)
  jump op xs world := (M.jump op xs world.1).map fun r =>
    (r.1, r.2, world.2 ++ (op.call?.map fun c => (c, xs)).toList)

theorem logging_exec {op : Op} {ty : Ty} {xs : List (Datum V)} {x : Datum V}
    {world : W × List (Callee × List (Datum V))} (hop : op.otherCall = none)
    (h : M.exec op ty xs world.1 = some (x, world.1)) : M.logging.exec op ty xs world = some (x, world) := by
  show (M.exec op ty xs world.1).map _ = _
  rw [h, hop]
  simp

theorem otherCall_empty {ia : InlineAsm} (h : ia.asmString.isEmpty = true) :
    (Op.call (.asm ia)).otherCall = none := if_pos h

theorem AsmIdentity.logging (h : AsmIdentity M) : AsmIdentity M.logging where
  void ia xs world hempty := by
    obtain ⟨x, hx⟩ := h.void ia xs world.1 hempty
    exact ⟨x, logging_exec (otherCall_empty hempty) hx⟩
  scalar ia ty xs x world hempty hty hstruct tied :=
    logging_exec (otherCall_empty hempty) (h.scalar ia ty xs x world.1 hempty hty hstruct tied)
  struct := by
    obtain ⟨fields, hcall, hfield⟩ := h.struct
    refine ⟨fields, fun ia ty xs outs world hempty hstruct tied => ?_, fun k ty outs x world hk => ?_⟩
    · exact logging_exec (otherCall_empty hempty) (hcall ia ty xs outs world.1 hempty hstruct tied)
    · exact logging_exec rfl (hfield k ty outs x world.1 hk)

/-! ## What is left in place -/

/-- The call `ci` is still where it was, and so are its uses, apart from those by empty inline asm that
is gone. -/
structure Fn.LeftInPlace (F G : Fn) (ci : Instr) : Prop where
  call : ∀ (k : Nat) b, F.blocks[k]? = some b → ci ∈ b.body → ∃ b', G.blocks[k]? = some b' ∧
    ∃ ci' ∈ b'.body, ci'.id = ci.id ∧ ci'.op = ci.op ∧ ci'.ty = ci.ty
  instr : ∀ i ∈ F.instrs, ∀ i' ∈ G.instrs, i'.id = i.id → ∀ n : Nat, i.ops[n]? = some (.inst ci.id) →
    i'.ops[n]? = some (.inst ci.id)
  gone : ∀ i ∈ F.instrs, .inst ci.id ∈ i.ops → (∀ i' ∈ G.instrs, i'.id ≠ i.id) → i.emptyAsm.isSome = true
  phi : ∀ (k n m pred : Nat) b p, F.blocks[k]? = some b → b.phis[n]? = some p →
    p.incoming[m]? = some (pred, .inst ci.id) → ∃ b' p', G.blocks[k]? = some b' ∧ b'.phis[n]? = some p' ∧
      p'.incoming[m]? = some (pred, .inst ci.id)
  term : ∀ (k m : Nat) b, F.blocks[k]? = some b → b.term.ops[m]? = some (.inst ci.id) →
    ∃ b', G.blocks[k]? = some b' ∧ b'.term.ops[m]? = some (.inst ci.id)

theorem erasing_left (hF : F.SsaForm) (hci : ci.id ∉ R) (hσ : σ (.inst ci.id) = .inst ci.id)
    (hgone : ∀ i ∈ F.instrs, i.id ∈ R → .inst ci.id ∈ i.ops → i.emptyAsm.isSome = true) :
    F.LeftInPlace (F.edit (.erasing R σ)) ci where
  call k b hb hmem := by
    refine ⟨b.edit (.erasing R σ), by rw [erasing_block, hb]; rfl, ci.map σ, ?_, rfl, rfl, rfl⟩
    refine List.mem_flatMap.mpr ⟨ci, hmem, ?_⟩
    simp [Edits.erasing, hci]
  instr i hi i' hi' hid n hn := by
    obtain ⟨j, hj, _, rfl⟩ := mem_erasing.mp hi'
    rw [hF.inj hj hi hid, Instr.map_ops, List.getElem?_map, hn, Option.map_some, hσ]
  gone i hi hv hnone := by
    refine hgone i hi ?_ hv
    by_contra hR
    exact hnone _ (mem_erasing.mpr ⟨i, hi, hR, rfl⟩) rfl
  phi k n m pred b p hb hp hin := by
    refine ⟨b.edit (.erasing R σ), p.map σ, by rw [erasing_block, hb]; rfl, ?_, ?_⟩
    · show (b.phis.map (·.map σ))[n]? = _
      rw [List.getElem?_map, hp]
      rfl
    · show (p.incoming.map fun e => (e.1, σ e.2))[m]? = _
      rw [List.getElem?_map, hin, Option.map_some, hσ]
  term k m b hb hv := by
    refine ⟨b.edit (.erasing R σ), by rw [erasing_block, hb]; rfl, ?_⟩
    show (b.term.ops.map σ)[m]? = _
    rw [List.getElem?_map, hv, Option.map_some, hσ]

theorem Silent.emptyAsm {i : Instr} (h : Silent F i) : i.emptyAsm.isSome = true ∨ ∃ ks, i.op = .extractvalue ks := by
  cases h with
  | void hasm _ | call hasm _ _ | struct hasm _ _ => exact Or.inl (Option.isSome_of_eq_some hasm)
  | field _ op => exact Or.inr ⟨_, op⟩

variable {F₁ G : Fn} {D : List Nat}

theorem Stripping.leftInPlace (h : Stripping F F₁ G D R σ []) (hF : F.SsaForm) (hci : ci ∈ F.instrs)
    (hleaves : F.Leaves F₁ ci) : F.LeftInPlace (F.edit (.erasing R σ)) ci := by
  have hR := h.left ci hci hleaves
  refine erasing_left hF hR (h.fixed _ fun a ha heq => hR (Val.inst.inj heq ▸ ha)) fun i hi hin hv => ?_
  refine (h.silent i hi hin).emptyAsm.resolve_right fun ⟨ks, hop⟩ => ?_
  -- an extraction is erased together with its aggregate
  obtain ⟨a, ha, hops⟩ := h.operand i hi hin ks hop
  rw [hops] at hv
  exact hR (Val.inst.inj (List.mem_singleton.mp hv) ▸ ha)

theorem erasing_ids (hF : F.SsaForm) (hR : ∀ a ∈ R, ∃ i ∈ F.instrs, i.id = a) {a : Nat}
    (ha : a ∈ (F.edit (.erasing R σ)).ids) : a ∉ R := by
  intro hin
  obtain ⟨b', hb', hmem⟩ := List.mem_flatMap.mp ha
  rcases List.mem_append.mp hmem with hphi | hbody
  · obtain ⟨i, hi, rfl⟩ := hR a hin
    rw [edit_blocks rfl] at hb'
    obtain ⟨b, hb, rfl⟩ := List.mem_map.mp hb'
    obtain ⟨k, hk⟩ := List.mem_iff_getElem?.mp hb
    have hdef : F.Defines i.id (.phis k) := by
      obtain ⟨p', hp', hid⟩ := List.mem_map.mp hphi
      obtain ⟨p, hp, rfl⟩ := List.mem_map.mp hp'
      exact ⟨b, hk, List.mem_map.mpr ⟨p, hp, hid⟩⟩
    cases hF.defines_eq hi hdef
  · obtain ⟨j, hj, rfl⟩ := List.mem_map.mp hbody
    obtain ⟨i, _, hi, rfl⟩ := mem_erasing.mp (Fn.mem_instrs.mpr ⟨b', hb', hj⟩)
    exact hi hin

/-! ## The meaning of the function -/

/-- `S'` is `S` after its inline asm has been stripped; `S₁` is `S` without barriers. -/
structure Source.StripsAsm (S S₁ S' : Source) : Prop where
  /-- Both have the same runs, with the same calls. -/
  runs : ∀ (V W : Type) (M : Semantics V W), AsmIdentity M →
    S.fn.SimulatesIn M.logging S'.fn S'.fn.ids ∧ S'.fn.SimulatesIn M.logging S.fn S'.fn.ids
  returns : ∀ (V W : Type) (M : Semantics V W), AsmIdentity M → ∀ world vals world',
    S.fn.Returns M.logging world vals world' ↔ S'.fn.Returns M.logging world vals world'
  left : ∀ ci ∈ S.fn.instrs, S.fn.Leaves S₁.fn ci → S.fn.LeftInPlace S'.fn ci

theorem inline_asm_stripping (S : Source) (hF : S.fn.Verified) :
    S.StripsAsm S.stripEmptyInlineAsm (S.stripEmptyInlineAsm.replaceIdentityInlineAsm U) := by
  obtain ⟨G, D, R, σ, h, hfn⟩ := stripped S hF
  refine ⟨fun V W M hM => ?_, fun V W M hM world vals world' => ?_, fun ci hci hleaves => ?_⟩
  · rw [hfn]
    exact erasing_simulates (h.erasable hF hM.logging) fun a ha => erasing_ids hF.toSsaForm h.instrs ha
  · rw [hfn]
    exact erasing_returns (h.erasable hF hM.logging world)
  · rw [hfn]
    exact h.leftInPlace hF.toSsaForm hci hleaves

/-! ## Examples -/

/-- A machine whose aggregates are the lists of their fields. -/
inductive Aggregate
  | mk (fields : List (Datum Aggregate))

def Aggregate.fields : Aggregate → List (Datum Aggregate)
  | mk fields => fields

def asmMachine : Semantics Aggregate Unit where
  arg _ := .undef
  const _ _ := .undef
  exec op ty xs world :=
    match op with
    | .call (.asm ia) =>
      if ty = .void then some (.undef, world)
      else
        (tiedInputs ia.constraints xs).bind fun outs =>
          if ty.isStruct then some (.other (.mk outs), world) else outs.head?.map fun x => (x, world)
    | .extractvalue [k] =>
      match xs with
      | [.other agg] => (agg.fields[k]?).map fun x => (x, world)
      | _ => none
    | _ => none
  jump _ _ _ := none

theorem asmMachine_identity : AsmIdentity asmMachine where
  void _ _ _ _ := ⟨.undef, rfl⟩
  scalar ia ty xs x world _ hty hstruct tied := by
    show (if ty = .void then _ else _) = _
    rw [if_neg hty, tied, hstruct]
    rfl
  struct := by
    refine ⟨fun outs => .other (.mk outs), fun ia ty xs outs world _ hstruct tied => ?_,
      fun k ty outs x world hk => ?_⟩
    · have hty : ty ≠ .void := by
        rintro rfl
        cases hstruct
      show (if ty = .void then _ else _) = _
      rw [if_neg hty, tied]
      exact if_pos hstruct
    · show ((Aggregate.mk outs).fields[k]?).map _ = _
      rw [Aggregate.fields, hk]
      rfl

/-- `asm volatile("" : "+r"(x))` -/
def plusR : InlineAsm where
  asmString := ""
  constraints := [{ type := .isOutput, MatchingInput := 1 }, { type := .isInput }]

/-- `asm volatile("" :: "r"(x))` -/
def useR : InlineAsm where
  asmString := ""
  constraints := [{ type := .isInput }]

def barrierVar : Source where
  fn :=
    { args := [.int 64, .int 64]
      blocks := [{ body := [{ id := 0, ty := .int 64, op := .call (.asm plusR), ops := [.arg 0] },
                            { id := 1, ty := .int 64, op := .binop .add, ops := [.inst 0, .arg 1] },
                            { id := 2, ty := .int 64, op := .call (.asm plusR), ops := [.inst 1] }]
                   term := { id := 3, op := .ret, ops := [.inst 2], succs := [] } }] }
  retTy := .int 64
  next := 4

theorem barrierVar_verified : barrierVar.fn.Verified :=
  Fn.StraightLine.verified (b := _) ⟨rfl, rfl, rfl, by decide, by decide⟩ (by decide) (by simp)

theorem inline_asm_stripping_barrier_var :
    AsmIdentity asmMachine ∧
    barrierVar.StripsAsm barrierVar.stripEmptyInlineAsm
      (barrierVar.stripEmptyInlineAsm.replaceIdentityInlineAsm Fn.useLists) ∧
    (barrierVar.stripEmptyInlineAsm.replaceIdentityInlineAsm Fn.useLists).fn.blocks =
      [{ body := [{ id := 1, ty := .int 64, op := .binop .add, ops := [.arg 0, .arg 1] }]
         term := { id := 3, op := .ret, ops := [.inst 1], succs := [] } }] :=
  ⟨asmMachine_identity, inline_asm_stripping barrierVar barrierVar_verified, by decide⟩

/-- The result of an instruction is only used by a barrier. -/
def barrierOnly : Source where
  fn :=
    { args := []
      blocks := [{ body := [{ id := 0, ty := .int 64, ops := [],
                              op := .call (.asm { asmString := "$0 = r10", constraints := [{ type := .isOutput }] }) },
                            { id := 1, ty := .void, op := .call (.asm useR), ops := [.inst 0] }]
                   term := { id := 2, op := .ret, ops := [], succs := [] } }] }
  next := 3

/-- A barrier uses an aggregate, next to the extraction of a field. -/
def barrierAggregate : Source where
  fn :=
    { args := [.int 64, .int 64]
      blocks := [{ body := [{ id := 0, ty := .struct 0, ops := [.arg 0, .arg 1],
                              op := .call (.asm
                                { asmString := ""
                                  constraints := [{ type := .isOutput, MatchingInput := 2 },
                                    { type := .isOutput, MatchingInput := 3 }, { type := .isInput },
                                    { type := .isInput }] }) },
                            { id := 1, ty := .void, op := .call (.asm useR), ops := [.inst 0] },
                            { id := 2, ty := .int 64, op := .extractvalue [0], ops := [.inst 0] }]
                   term := { id := 3, op := .ret, ops := [.inst 2], succs := [] } }] }
  retTy := .int 64
  next := 4

theorem barrierOnly_verified : barrierOnly.fn.Verified :=
  Fn.StraightLine.verified (b := _) ⟨rfl, rfl, rfl, by decide, by decide⟩ (by decide) (by simp)

theorem barrierAggregate_verified : barrierAggregate.fn.Verified :=
  Fn.StraightLine.verified (b := _) ⟨rfl, rfl, rfl, by decide, by decide⟩ (by decide) (by simp)

/-- A use by a barrier is lost, and it does not keep an aggregate from being replaced. -/
theorem inline_asm_stripping_fails :
    ¬(∀ (U : ∀ F : Fn, F.UseLists) (S : Source), S.fn.Verified → ∀ ci ∈ S.fn.instrs, S.fn.Leaves S.fn ci →
      ci.id ∈ (S.stripEmptyInlineAsm.replaceIdentityInlineAsm U).fn.ids) ∧
    ¬(∀ (U : ∀ F : Fn, F.UseLists) (S : Source), S.fn.Verified → ∀ ci ∈ S.fn.instrs, S.fn.Leaves S.fn ci →
      ((S.stripEmptyInlineAsm.replaceIdentityInlineAsm U).fn.users (.inst ci.id)).length =
        (S.fn.users (.inst ci.id)).length) := by
  refine ⟨fun h => ?_, fun h => ?_⟩
  · have hin := h Fn.useLists barrierAggregate barrierAggregate_verified _ (List.mem_cons_self ..)
      (.aggregate rfl rfl rfl (List.mem_cons_self ..) rfl)
    exact absurd hin (by decide)
  · have hlen := h Fn.useLists barrierOnly barrierOnly_verified _ (List.mem_cons_self ..) (.template rfl (by decide))
    exact absurd hlen (by decide)

end BpfTv.Ssa
