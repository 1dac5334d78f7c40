import BpfTv.Lifter.GlobalNames

/-!
# The lookups of a lifted function

The symbols that lifting an instruction looks up can be told from the instruction (`Env.requests`), and
nothing but these lookups changes the globals (`lift_looks`). When no global is built twice on the way, each
symbol has one object in the whole function (`objectOf_eq`).
-/

namespace BpfTv

variable {env : Env} {I : MCInst} {e : MCExpr} {M : ModuleInfo} {G : Globals} {s s₁ s' : LState} {R : Region}
  {nm n : String} {nms nms' : List String} {id fuel : Nat} {prev : Option Term}

/-- The symbol of an operand. -/
def MCExpr.symbol? : MCExpr → Option String
  | .symbolRef sym | .specifier _ sym => some sym
  | .other => none

/-- What `getExprVar` looks up. -/
def MCExpr.requests (e : MCExpr) : List String := e.symbol?.toList.map demangle

/-- What lifting an instruction looks up. -/
def Env.requests (env : Env) (I : MCInst) : List String :=
  match I.opcode with
  | .LD_imm64 =>
    match I.getOperand 1 with
    | .ok (.expr e) => e.requests
    | _ => []
  | .JAL =>
    match I.getOperand 0 with
    | .ok (.expr e) => e.requests
    | .ok (.imm id) => if env.bytesMode then [] else [helperName id]
    | _ => []
  | _ => []

theorem requests_eq_nil (hld : I.opcode ≠ .LD_imm64) (hjal : I.opcode ≠ .JAL) : env.requests I = [] := by
  unfold Env.requests
  split
  · exact absurd ‹_› hld
  · exact absurd ‹_› hjal
  · rfl

/-! ## Lookups between two states -/

/-- From `s` to `s'`, the globals have changed by looking `nms` up. -/
def Looks (env : Env) (nms : List String) (s s' : LState) : Prop :=
  ∃ ids, lookupAll env.module env.fuel nms s.globals = .ok (ids, s'.globals)

theorem Looks.nil (h : s'.globals = s.globals) : Looks env [] s s' := ⟨[], by rw [h]; rfl⟩

theorem Looks.append (h : Looks env nms s s₁) (h' : Looks env nms' s₁ s') : Looks env (nms ++ nms') s s' := by
  obtain ⟨ids, h⟩ := h
  obtain ⟨ids', h'⟩ := h'
  refine ⟨ids ++ ids', ?_⟩
  generalize s.globals = G at h
  induction nms generalizing G ids with
  | nil =>
    obtain ⟨rfl, rfl⟩ := Prod.mk.inj (Except.ok.inj h)
    exact h'
  | cons nm nms ih =>
    obtain ⟨id, G₁, ids₁, hone, hrest, rfl⟩ := lookupAll_cons.mp h
    exact lookupAll_cons.mpr ⟨id, G₁, _, hone, ih ids₁ G₁ hrest, rfl⟩

theorem Looks.then_same (h : Looks env nms s s₁) (h' : s'.globals = s₁.globals) : Looks env nms s s' := by
  rw [← List.append_nil nms]
  exact h.append (.nil h')

theorem Looks.names (h : Looks env nms s s') (hs : s.globals.Named env.module) : s'.globals.Named env.module := by
  obtain ⟨ids, h⟩ := h
  generalize s.globals = G at h hs
  induction nms generalizing G ids with
  | nil =>
    obtain ⟨_, rfl⟩ := Prod.mk.inj (Except.ok.inj h)
    exact hs
  | cons nm nms ih =>
    obtain ⟨id, G₁, ids₁, hone, hrest, _⟩ := lookupAll_cons.mp h
    exact ih ids₁ G₁ hrest (hs.lookup hone)

theorem Looks.empty (h : Looks env nms s s') (hs : s.globals.deferredGlobs = []) : s'.globals.deferredGlobs = [] := by
  obtain ⟨ids, h⟩ := h
  exact lookupAll_empty hs h

theorem Looks.entries {x : String × Nat} (h : Looks env nms s s') (hs : s.globals.deferredGlobs = [])
    (hx : x ∈ s.globals.LLVMglobals) : x ∈ s'.globals.LLVMglobals := by
  obtain ⟨ids, h⟩ := h
  exact lookupAll_entries hx hs h

/-! ## Lookups of an instruction -/

theorem looks_lookupGlobalM (h : (lookupGlobalM env nm).run s = .ok (id, s')) : Looks env [nm] s s' :=
  ⟨[id], lookupAll_cons.mpr ⟨id, _, [], (lookupGlobalM_run h).1, rfl, rfl⟩⟩

theorem getExprVar_symbol (h : (getExprVar env e).run s = .ok (id, s')) :
    ∃ sym, e.symbol? = some sym ∧ (lookupGlobalM env (demangle sym)).run s = .ok (id, s') := by
  obtain ⟨name, s₁, hname, hl⟩ := run_bind_ok h
  cases e with
  | other => cases hname
  | symbolRef sym | specifier k sym =>
    cases hname
    exact ⟨sym, rfl, hl⟩

theorem looks_getExprVar (h : (getExprVar env e).run s = .ok (id, s')) : Looks env e.requests s s' := by
  obtain ⟨sym, hsym, hl⟩ := getExprVar_symbol h
  rw [MCExpr.requests, hsym]
  exact looks_lookupGlobalM hl

/-- The globals are left alone. -/
def KeepsGlobals (s s' : LState) : Prop := s'.globals = s.globals

theorem keepsGlobals_moves : Moves KeepsGlobals where
  refl _ := rfl
  trans _ _ _ h h' := h'.trans h
  push _ _ _ _ := rfl
  pushUnspec _ _ _ _ := rfl
  close _ _ _ := rfl
  newBlock _ := rfl
  setBlock _ _ := rfl

theorem keepsGlobals_blocks : Blocks KeepsGlobals .univ :=
  keepsGlobals_moves.blocks (fun _ => trivial) fun _ => trivial

theorem keepsGlobals_emits : Emits KeepsGlobals .univ := keepsGlobals_blocks.emits

theorem keepsGlobals_emit (op : Op) (ty : Ty) : Sat KeepsGlobals .univ (emit op ty) fun _ => True :=
  Sat.emit (fun _ _ => rfl) trivial

theorem keepsGlobals_doCall (FC : Function) (ci : CallInst) (name : String) :
    Sat KeepsGlobals .univ (doCall FC ci name) fun _ => True :=
  sat_doCall keepsGlobals_emits fun _ => keepsGlobals_emit _ _

theorem ldImm64_looks (hop : I.opcode = .LD_imm64) (h : (ldImm64 env I).run s = .ok ((), s')) :
    Looks env (env.requests I) s s' := by
  have hR := keepsGlobals_emits
  obtain ⟨v, s₁, hv, h⟩ := run_bind_ok h
  have hset : s'.globals = s₁.globals := (sat_set64 hR s₁ () s' h).1
  refine Looks.then_same ?_ hset
  obtain ⟨op, s₂, hread, hv⟩ := run_bind_ok hv
  obtain ⟨hval, rfl⟩ := liftExcept_run hread
  simp only [Env.requests, hop, hval]
  cases op with
  | imm v => exact .nil (sat_const hR _ _ _ hv).1
  | reg r => cases hv
  | expr e =>
    obtain ⟨g, s₃, hg, hcast⟩ := run_bind_ok hv
    exact (looks_getExprVar hg).then_same (sat_emit hR rfl _ _ _ hcast).1

theorem doDirectCall_looks (h : (doDirectCall env I e).run s = .ok ((), s')) : Looks env e.requests s s' := by
  obtain ⟨g, s₁, name, hg, _, h⟩ := doDirectCall_cases h
  refine (looks_getExprVar hg).then_same ?_
  rcases h with ⟨_, h⟩ | ⟨_, FC, ci, _, _, h⟩
  · exact (sat_createTrap keepsGlobals_emits _ _ _ h).1
  · exact (keepsGlobals_doCall _ _ _ _ _ _ h).1

theorem doHelperCall_looks {k : Int} (h : (doHelperCall env I k).run s = .ok ((), s')) :
    Looks env (if env.bytesMode then [] else [helperName k]) s s' := by
  by_cases hbytes : env.bytesMode = true
  · rw [if_pos hbytes]
    exact .nil (sat_callBytes keepsGlobals_emits hbytes (fun _ => keepsGlobals_emit _ _) _ _ _ h).1
  · rw [if_neg hbytes]
    obtain ⟨ci, g, s₁, FC, _, hg, _, h⟩ := doHelperCall_run hbytes h
    exact (looks_lookupGlobalM hg).then_same (keepsGlobals_doCall _ _ _ _ _ _ h).1

theorem jal_looks (hop : I.opcode = .JAL) (h : (jal env I).run s = .ok ((), s')) :
    Looks env (env.requests I) s s' := by
  obtain ⟨op, s₁, hread, h⟩ := run_bind_ok h
  obtain ⟨hval, rfl⟩ := liftExcept_run hread
  simp only [Env.requests, hop, hval]
  cases op with
  | reg r => cases h
  | imm k => exact doHelperCall_looks h
  | expr e => exact doDirectCall_looks h

/-- **Lookups.** Lifting an instruction changes the globals by the lookups of the instruction. -/
theorem lift_looks (h : (region prev (lift env I)).run s = .ok (R, s')) : Looks env (env.requests I) s s' := by
  obtain ⟨hlift, _⟩ := region_run h
  show Looks env (env.requests I) { s with code := ⟨[{ term := prev }], 0⟩ } s'
  by_cases hld : I.opcode = .LD_imm64
  · refine ldImm64_looks hld ?_
    rw [← hlift]
    unfold lift
    rw [hld]
  by_cases hjal : I.opcode = .JAL
  · refine jal_looks hjal ?_
    rw [← hlift]
    unfold lift
    rw [hjal]
  rw [requests_eq_nil hld hjal]
  refine .nil ?_
  by_cases hterm : I.opcode.isTerminator = true
  · exact (lift_sat_terminator keepsGlobals_blocks hterm _ _ _ hlift).1
  · have hcall : I.opcode.isCall = false := by simpa [Opcode.isCall] using hjal
    exact (lift_sat_of keepsGlobals_emits (fun h => absurd h hld) (eq_false_of_ne_true hterm) hcall _ _ _ hlift).1

theorem fallThrough_globals (h : (region prev (fallThrough env)).run s = .ok (R, s')) : s'.globals = s.globals := by
  obtain ⟨hfall, _⟩ := region_run h
  exact (sat_fallThrough keepsGlobals_blocks _ _ _ hfall).1

theorem platformInit_globals (h : (region prev (platformInit env)).run s = .ok (R, s')) : s'.globals = s.globals := by
  obtain ⟨hinit, _⟩ := region_run h
  exact (sat_platformInit keepsGlobals_emits _ _ _ hinit).1

theorem platformInit_start (h : (region prev (platformInit env)).run { globals := Globals.init env.module } =
    .ok (R, s')) : s'.globals.Named env.module ∧ s'.globals.deferredGlobs = [] := by
  rw [platformInit_globals h]
  exact ⟨named_init env.module, rfl⟩

/-! ## One object for a symbol -/

/-- No global is built twice while `nms` are looked up: the condition of `one_definition`. -/
def ModuleInfo.CleanLookups (M : ModuleInfo) (nms : List String) : Prop :=
  ∀ fuel, ∀ b ∈ lookupAllBuilds M fuel nms (Globals.init M), M.CleanBuild b.1 b.2

/-- The object that a symbol has when `nms` have been looked up. -/
def ModuleInfo.objectOf (M : ModuleInfo) (fuel : Nat) (nms : List String) (sym : String) : Nat :=
  match lookupAll M fuel nms (Globals.init M) with
  | .ok (_, G) => (G.find? sym).getD liftedFnId
  | .error _ => liftedFnId

theorem objectOf_eq {ids : List Nat} (hclean : M.CleanLookups nms)
    (h : lookupAll M fuel nms (Globals.init M) = .ok (ids, G)) (he : (n, id) ∈ G.LLVMglobals) :
    M.objectOf fuel nms n = id := by
  have hsingle : (Globals.init M).Single M := fun p hp => absurd hp List.not_mem_nil
  obtain ⟨hwf, hs⟩ := lookupAll_single (hclean fuel) rfl (wf_init M) hsingle h
  rw [ModuleInfo.objectOf, h]
  simp only [hs.find?_eq hwf he, Option.getD_some]

end BpfTv
