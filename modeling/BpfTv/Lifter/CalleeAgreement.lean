import BpfTv.Lifter.UnspecifiedSites

/-!
# The source call behind a lifted call

A call that is lifted takes its attributes from a source call, the one at the location of the
instruction. `doHelperCall` checks that the source call has the callee of the instruction.
`doDirectCall` does not: it agrees with the instruction exactly when the source call at its location
does, or when no source call is used.
-/

namespace BpfTv

variable {s s' : LState} {env : Env} {I : MCInst} {r : Region} {P : CallInst → Prop}

/-- The source call that a written call takes its attributes from. -/
def Op.source? : Op → Option CallInst
  | .call _ _ _ _ src => src
  | _ => none

def Region.sources (r : Region) : List CallInst := r.instrs.filterMap (·.op.source?)

/-- The function that a call of the assembly calls: the helper with its number, or the global that its
operand names. -/
def asmCallee (env : Env) (I : MCInst) (G : Globals) : Option String :=
  match I.getOperand 0 with
  | .ok (.imm id) => some (helperName id)
  | .ok (.expr (.symbolRef sym)) | .ok (.expr (.specifier _ sym)) =>
    match lookupGlobal env.module env.fuel (demangle sym) G with
    | .ok (g, G) => (G.obj? g).map (·.name)
    | .error _ => none
  | _ => none

/-! ## Written calls -/

/-- The calls written between two builder states take their attributes from source calls with `P`. -/
def Calls (P : CallInst → Prop) (s s' : LState) : Prop :=
  ∃ xs, (Region.sources s'.code).Perm (Region.sources s.code ++ xs) ∧ ∀ ci ∈ xs, P ci

theorem calls_of_sources (h : Region.sources s'.code = Region.sources s.code) : Calls P s s' :=
  ⟨[], by rw [h, List.append_nil], by simp⟩

theorem Calls.trans {s₁ s₂ s₃ : LState} (h : Calls P s₁ s₂) (h' : Calls P s₂ s₃) : Calls P s₁ s₃ := by
  obtain ⟨xs, hp, hx⟩ := h
  obtain ⟨ys, hp', hy⟩ := h'
  refine ⟨xs ++ ys, hp'.trans ?_, fun ci hci => (List.mem_append.mp hci).elim (hx ci) (hy ci)⟩
  rw [← List.append_assoc]
  exact hp.append_right ys

theorem Calls.mem {ci : CallInst} (h : Calls P s s') (hci : ci ∈ Region.sources s.code) :
    ci ∈ Region.sources s'.code := by
  obtain ⟨xs, hp, _⟩ := h
  exact hp.mem_iff.mpr (List.mem_append_left _ hci)

theorem sources_push (hopen : r.Open) (i : Instr) :
    (Region.sources (r.push i)).Perm (Region.sources r ++ i.op.source?.toList) :=
  collect_push Op.source? hopen i

theorem sources_close (t : Term) : Region.sources (r.close t) = Region.sources r := by
  rw [Region.sources, Region.sources, instrs_close]

theorem sources_newBlock : Region.sources r.newBlock = Region.sources r := by
  simp [Region.sources, Emit.Code.instrs, Emit.Code.newBlock]

theorem calls_push {op : Op} (h : ∀ ci ∈ op.source?, P ci) (s : LState) (hopen : s.code.Open) :
    Calls P s (s.push op) :=
  ⟨op.source?.toList, sources_push hopen ⟨s.next, op⟩, fun ci hci => h ci (by simpa using hci)⟩

theorem calls_emit {op : Op} {ty : Ty} (h : ∀ ci ∈ op.source?, P ci) :
    Sat (Calls P) .univ (emit op ty) fun _ => True :=
  Sat.emit (calls_push h) trivial

theorem source_of_plain {op : Op} (h : op.plain = true) : op.source? = none := by
  cases op with
  | call => cases h
  | _ => rfl

theorem calls_moves (P : CallInst → Prop) : Moves (Calls P) where
  refl _ := calls_of_sources rfl
  trans _ _ _ h h' := h.trans h'
  push s op hop hopen := calls_push (by rw [source_of_plain hop]; simp) s hopen
  pushUnspec s w _ hopen := ⟨[], sources_push hopen _, by simp⟩
  close s t _ := calls_of_sources (sources_close t)
  newBlock _ := calls_of_sources sources_newBlock
  setBlock _ _ := calls_of_sources rfl

theorem calls_blockwise (P : CallInst → Prop) : Blockwise (Calls P) .univ :=
  (calls_moves P).blockwise fun _ _ => calls_of_sources rfl

/-! ## The two ways to lift a call -/

theorem calls_doCall {FC : Function} {ci : CallInst} {name : String} (h : P ci) :
    Sat (Calls P) .univ (doCall FC ci name) fun _ => True := by
  refine sat_doCall (calls_blockwise P).compat fun args => calls_emit fun ci' hci' => ?_
  obtain rfl : ci = ci' := Option.some_inj.mp hci'
  exact h

theorem mem_sources_doCall {FC : Function} {ci : CallInst} {name : String}
    (h : (doCall FC ci name).run s = .ok ((), s')) : ci ∈ Region.sources s'.code := by
  have hR := (calls_blockwise fun _ => True).compat
  obtain ⟨args, s₁, _, h⟩ := run_bind_ok h
  obtain ⟨args', s₂, _, h⟩ := run_bind_ok h
  obtain ⟨CI, s₃, hemit, h⟩ := run_bind_ok h
  have hci : ci ∈ Region.sources s₃.code := by
    simp only [StateT.run, emit] at hemit
    split at hemit
    · rename_i hopen
      cases hemit
      exact (sources_push hopen _).mem_iff.mpr (List.mem_append_right _ (List.mem_singleton_self _))
    · cases hemit
  refine ((?_ : Sat (Calls fun _ => True) .univ _ fun _ => True) s₃ () s' h).1.mem hci
  refine hR.bind (sat_enforce hR) fun RV _ => ?_
  refine hR.bind (Sat.ite (hR.pure trivial) (sat_forM hR (fun _ => sat_invalidateReg hR) _))
    fun _ _ => ?_
  cases FC.ty.ret with
  | int w => exact sat_updateReg64 hR
  | ptr => exact hR.bind (sat_emit hR rfl) fun _ _ => sat_updateReg64 hR
  | void => exact sat_invalidateReg hR
  | cmpxchg w => exact hR.fails
  | aggregate => exact hR.fails

/-- A helper call takes its attributes from a source call of the helper. -/
theorem calls_doHelperCall (env : Env) (I : MCInst) (id : Int) :
    Sat (Calls fun ci => ci.calledFn.map (·.name) = some (helperName id)) .univ (doHelperCall env I id)
      fun _ => True := by
  have hR := (calls_blockwise fun ci => ci.calledFn.map (·.name) = some (helperName id)).compat
  by_cases hb : env.bytesMode = true
  · exact sat_callBytes hR hb fun _ => calls_emit (by simp [Op.source?])
  exact sat_helperCall hR hb (hR.lookup env) fun FC ci hcallee => calls_doCall hcallee

/-! ## Actions that have succeeded -/

theorem exitIf_run {p : Prop} [Decidable p] {msg : String} {x : Unit} (h : (exitIf p msg).run s = .ok (x, s')) :
    ¬p ∧ s' = s := by
  unfold exitIf at h
  split at h
  · cases h
  · cases h
    exact ⟨‹_›, rfl⟩

theorem functionOf_run {id : Nat} {c : Option Function} (h : (functionOf id).run s = .ok (c, s')) :
    s' = s := by
  obtain ⟨S, s₁, hget, h⟩ := run_bind_ok h
  cases hget
  split at h <;> cases h <;> rfl

theorem lookupGlobalM_run {nm : String} {id : Nat} (h : (lookupGlobalM env nm).run s = .ok (id, s')) :
    lookupGlobal env.module env.fuel nm s.globals = .ok (id, s'.globals) ∧
      s' = { s with globals := s'.globals } := by
  simp only [StateT.run, lookupGlobalM] at h
  cases hl : lookupGlobal env.module env.fuel nm s.globals with
  | error e => rw [hl] at h; cases h
  | ok p =>
    rw [hl] at h
    cases h
    exact ⟨rfl, rfl⟩

theorem getExprVar_run {e : MCExpr} {g : Nat} (hop : I.getOperand 0 = .ok (.expr e))
    (h : (getExprVar env e).run s = .ok (g, s')) :
    asmCallee env I s.globals = (s'.globals.obj? g).map (·.name) ∧ s'.code = s.code := by
  obtain ⟨name, s₁, hname, h⟩ := run_bind_ok h
  cases e with
  | other => cases hname
  | symbolRef sym | specifier k sym =>
    cases hname
    obtain ⟨hl, heq⟩ := lookupGlobalM_run h
    refine ⟨by simp only [asmCallee, hop, hl], ?_⟩
    rw [heq]

/-- A helper call in an assembly file that has succeeded. -/
theorem doHelperCall_run {id : Int} (hbytes : ¬env.bytesMode = true)
    (h : (doHelperCall env I id).run s = .ok ((), s')) :
    ∃ ci g s₁ FC, I.loc = some (.call ci) ∧ (lookupGlobalM env (helperName id)).run s = .ok (g, s₁) ∧
      (functionOf g).run s₁ = .ok (some FC, s₁) ∧ (doCall FC ci (helperName id)).run s₁ = .ok ((), s') := by
  obtain ⟨_, s₁, hneg, hrest⟩ := run_bind_ok h
  obtain ⟨_, rfl⟩ := exitIf_run hneg
  simp only [if_neg hbytes] at hrest
  split at hrest
  · obtain ⟨_, s₂, hcheck, hlift⟩ := run_bind_ok hrest
    obtain ⟨_, rfl⟩ := exitIf_run hcheck
    obtain ⟨g, s₃, hg, hcall⟩ := run_bind_ok hlift
    obtain ⟨callee, s₄, hfn, hdo⟩ := run_bind_ok hcall
    obtain rfl := functionOf_run hfn
    cases callee with
    | none => cases hdo
    | some FC => exact ⟨_, g, _, FC, ‹_›, hg, hfn, hdo⟩
  · cases hrest

/-- A direct call that has succeeded: a trap, or a call of a function. -/
theorem doDirectCall_cases {e : MCExpr} (h : (doDirectCall env I e).run s = .ok ((), s')) :
    ∃ g s₁ name, (getExprVar env e).run s = .ok (g, s₁) ∧ ((s₁.globals.obj? g).map (·.name)).getD "" = name ∧
      (name = "__stack_chk_fail" ∧ createTrap.run s₁ = .ok ((), s') ∨
        name ≠ "__stack_chk_fail" ∧ ∃ FC ci, (functionOf g).run s₁ = .ok (some FC, s₁) ∧ I.loc = some (.call ci) ∧
          (doCall FC ci name).run s₁ = .ok ((), s')) := by
  obtain ⟨g, s₁, hg, h⟩ := run_bind_ok h
  refine ⟨g, s₁, _, hg, rfl, ?_⟩
  obtain ⟨S, s₂, hget, h⟩ := run_bind_ok h
  cases hget
  by_cases htrap : ((s₁.globals.obj? g).map (·.name)).getD "" = "__stack_chk_fail"
  · rw [if_pos htrap] at h
    exact Or.inl ⟨htrap, h⟩
  rw [if_neg htrap] at h
  obtain ⟨callee, s₂, hcallee, h⟩ := run_bind_ok h
  obtain rfl := functionOf_run hcallee
  cases callee with
  | none => cases h
  | some FC =>
    simp only at h
    split at h
    · exact Or.inr ⟨htrap, FC, _, hcallee, ‹_›, h⟩
    · cases h

/-- A direct call that is lifted is a trap, or takes its attributes from the source call at its
location. -/
theorem doDirectCall_run {e : MCExpr} (hop : I.getOperand 0 = .ok (.expr e))
    (h : (doDirectCall env I e).run s = .ok ((), s')) :
    asmCallee env I s.globals = some "__stack_chk_fail" ∧ Calls (fun _ => False) s s' ∨
      asmCallee env I s.globals ≠ some "__stack_chk_fail" ∧ ∃ ci, I.loc = some (.call ci) ∧
        Calls (fun c => c = ci) s s' ∧ ci ∈ Region.sources s'.code := by
  obtain ⟨g, s₁, name, hvar, hcalled, h⟩ := doDirectCall_cases h
  obtain ⟨hname, hcode⟩ := getExprVar_run hop hvar
  have hstart : ∀ P, Calls P s s₁ := fun P => calls_of_sources (by rw [Region.sources, hcode]; rfl)
  rw [hname]
  rcases h with ⟨rfl, h⟩ | ⟨hne, FC, ci, _, hloc, h⟩
  · refine Or.inl ⟨?_, (hstart _).trans (sat_createTrap (calls_blockwise fun _ => False).emits s₁ () s' h).1⟩
    cases hobj : (s₁.globals.obj? g).map (·.name) with
    | none =>
      rw [hobj] at hcalled
      exact absurd hcalled (by decide)
    | some callee =>
      rw [hobj] at hcalled
      exact congrArg some hcalled
  · refine Or.inr ⟨fun hsome => hne (by rw [← hcalled, hsome]; rfl), ci, hloc, ?_, mem_sources_doCall h⟩
    exact (hstart _).trans (calls_doCall (P := fun c => c = ci) rfl s₁ () s' h).1

theorem liftExcept_run {α : Type} {x : Except LiftError α} {a : α}
    (h : (liftExcept x : LiftM α).run s = .ok (a, s')) : x = .ok a ∧ s = s' := by
  cases x with
  | error e => cases h
  | ok b =>
    cases h
    exact ⟨rfl, rfl⟩

/-- The source call at the location of the instruction is a call of the function that the instruction
calls, unless the instruction has a helper number or traps. -/
def CalleeMatches (env : Env) (I : MCInst) (G : Globals) : Prop :=
  (∃ id, I.getOperand 0 = .ok (.imm id)) ∨ asmCallee env I G = some "__stack_chk_fail" ∨
    ∀ ci, I.loc = some (.call ci) → ci.calledFn.map (·.name) = asmCallee env I G

theorem sources_fresh (prev : Option Term) :
    Region.sources ⟨[{ term := prev }], 0⟩ = [] := rfl

/-- The attributes of a call that is lifted come from source calls of the same callee exactly when the
source call at its location has this callee, or is not used or checked. -/
theorem callee_agreement (env : Env) (I : MCInst) (hI : I.opcode = .JAL) (prev : Option Term)
    (s s' : LState) (r : Region) (h : (region prev (lift env I)).run s = .ok (r, s')) :
    (∀ ci ∈ Region.sources r, ci.calledFn.map (·.name) = asmCallee env I s.globals) ↔
      CalleeMatches env I s.globals := by
  obtain ⟨hlift, rfl⟩ := region_run h
  have hjal : lift env I = jal env I := by
    unfold lift
    rw [hI]
  rw [hjal] at hlift
  have hfresh : ∀ {P}, Calls P { s with code := ⟨[{ term := prev }], 0⟩ } s' →
      ∀ ci ∈ Region.sources s'.code, P ci := by
    rintro P ⟨xs, hp, hx⟩ ci hci
    exact hx ci (by simpa [sources_fresh] using hp.mem_iff.mp hci)
  obtain ⟨op, s₁, hread, hlift⟩ := run_bind_ok hlift
  obtain ⟨hop, rfl⟩ := liftExcept_run hread
  cases op with
  | reg n => cases hlift
  | imm id =>
    -- the check in `doHelperCall`
    have hcallee : asmCallee env I s.globals = some (helperName id) := by
      simp only [asmCallee, hop]
    refine iff_of_true ?_ (Or.inl ⟨id, hop⟩)
    rw [hcallee]
    exact hfresh (calls_doHelperCall env I id _ () s' hlift).1
  | expr e =>
    rcases doDirectCall_run hop hlift with ⟨htrap, hcalls⟩ | ⟨hname, ci, hloc, hcalls, hmem⟩
    · exact iff_of_true (fun ci hci => (hfresh hcalls ci hci).elim) (Or.inr (Or.inl htrap))
    · refine ⟨fun hall => Or.inr (Or.inr fun ci' hci' => ?_), fun hmatch ci' hci' => ?_⟩
      · obtain rfl : ci = ci' := by simpa [hloc] using hci'
        exact hall ci hmem
      · obtain rfl := hfresh hcalls ci' hci'
        rcases hmatch with ⟨id, himm⟩ | htrap | hmatch
        · rw [hop] at himm
          cases himm
        · exact absurd htrap hname
        · exact hmatch ci' hloc

/-- A module with `unsigned char g()` and `unsigned char h()`. -/
def directEnv : Env :=
  { fuel := 8
    module :=
      { liftedFnName := "f"
        liftedFnTy := ⟨.void, []⟩
        functions := [{ name := "g", ty := ⟨.int 8, []⟩ }, { name := "h", ty := ⟨.int 8, []⟩ }]
        globals := []
        MCglobals := [] } }

/-- `call g` at the location of a source call of `name`. -/
def directCall (name : String) (fastcall zeroext : Bool) : MCInst :=
  { opcode := .JAL
    operands := [.expr (.symbolRef "g")]
    loc := some (.call { calledFn := some { name := name, ty := ⟨.int 8, []⟩ }
                         bpfFastcall := fastcall
                         retZExt := zeroext }) }

theorem callee_agreement_same :
    let s : LState := { globals := Globals.init directEnv.module }
    ∃ r s', (region none (lift directEnv (directCall "g" false true))).run s = .ok (r, s') ∧
      ∀ ci ∈ Region.sources r, ci.calledFn.map (·.name) =
        asmCallee directEnv (directCall "g" false true) s.globals := by
  intro s
  obtain ⟨⟨r, s'⟩, h⟩ := ok_of_isSome
    (x := (region none (lift directEnv (directCall "g" false true))).run s) (by decide +kernel)
  refine ⟨r, s', h, (callee_agreement _ _ rfl _ _ _ _ h).mpr (Or.inr (Or.inr ?_))⟩
  intro ci hci
  cases hci
  decide +kernel

/-- The assembly calls `g` at the location of a fastcall of `h` that extends its result. -/
theorem callee_agreement_fails :
    let I := directCall "h" true true
    let s : LState := { globals := Globals.init directEnv.module }
    ∃ r s', (region none (lift directEnv I)).run s = .ok (r, s') ∧
      asmCallee directEnv I s.globals = some "g" ∧
      ∃ ci ∈ Region.sources r, ci.calledFn.map (·.name) = some "h" ∧ ci.bpfFastcall = true ∧
        ci.retZExt = true := by
  intro I s
  have hruns : ((region none (lift directEnv I)).run s).map (fun p => Region.sources p.1) =
      .ok [{ calledFn := some { name := "h", ty := ⟨.int 8, []⟩ }, retZExt := true,
             bpfFastcall := true }] := by decide +kernel
  cases hp : (region none (lift directEnv I)).run s with
  | error e =>
    rw [hp] at hruns
    cases hruns
  | ok p =>
    rw [hp] at hruns
    have hsources := Except.ok.inj hruns
    refine ⟨p.1, p.2, rfl, by decide +kernel, _, hsources ▸ List.mem_singleton_self _, rfl, rfl, rfl⟩

end BpfTv
