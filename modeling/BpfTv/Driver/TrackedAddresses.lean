import BpfTv.Driver.Classify

/-!
# Residual addresses stay tracked

When the rewrite succeeds, each use of a residual address is one that the classifiers follow or that
leaves no copy of the address behind. `classifyPtr` looks at a user once for each operand that is the
address, but asks the same question each time: a store of the address through itself passes, since the
address is its pointer operand, and so does a call that calls through the address. Nothing else passes.
-/

namespace BpfTv.Ssa

variable {F : Fn} {slots : List StackSlot} {N : Addr → BitVec 64 → Plans → Prop} {c : BitVec 64}
  {q : Plans}

def User.operands : User → List Val
  | .instr i => i.ops
  | .phi p => p.incoming.map (·.2)
  | .term t => t.ops

/-- Operand `k` of the `n` operands of a call is an argument, and not the function that is called. -/
def Callee.IsArg (f : Callee) (n k : Nat) : Prop :=
  match f with
  | .value => k + 1 < n
  | _ => True

/-- The use of a residual address of byte `c` as operand `k`: a load or store through the address, a
comparison, an argument of a call, an address at a constant offset, or a variable index attributed to
a slot. -/
def Tracked (F : Fn) (slots : List StackSlot) (c : BitVec 64) (k : Nat) : User → Prop
  | .instr i =>
    match i.op with
    | .load _ => k = 0
    | .store _ => k = 1
    | .icmp _ => True
    | .call f => f.IsArg i.ops.length k
    | .gep _ steps => k = 0 ∧ ((accumulateConstantOffset steps i.ops.tail).isSome ∨
        ∃ idx var n, i.ops.tail = [idx] ∧ constantBase F idx = some (var, n) ∧
          (slotAt slots (c + n)).isSome)
    | .ptrtoint | .inttoptr => True
    | .binop .add => (addParts i.ops).isSome
    | _ => False
  | .term t =>
    match t.op with
    | .call f => f.IsArg t.ops.length k
    | _ => False
  | .phi _ => False

/-- The two uses that pass unnoticed: a store of the pointer through itself, and a call through it. -/
def Overlooked (p : Val) : User → Prop
  | .instr i => (∃ n, i.op = .store n) ∧ i.ops[0]? = some p ∨ i.op = .call .value ∧ i.ops.getLast? = some p
  | .term t => t.op = .call .value ∧ t.ops.getLast? = some p
  | .phi _ => False

/-! ## Types of residual pointers -/

theorem typed_gep {i : Instr} {i8 : Bool} {steps : List GepStep} (h : F.typed i = true)
    (hop : i.op = .gep i8 steps) :
    ∃ p idxs, i.ops = p :: idxs ∧ F.tyOf p = some .ptr ∧ i.ty = .ptr ∧ idxs.length = steps.length ∧
      ∀ v ∈ idxs, F.isIndex v = true := by
  unfold Fn.typed at h
  rw [hop] at h
  cases hops : i.ops with
  | nil => simp [hops] at h
  | cons p idxs =>
    simp only [hops, Bool.and_eq_true, decide_eq_true_eq, List.all_eq_true] at h
    exact ⟨p, idxs, rfl, h.1.1.1, h.1.1.2, h.1.2, h.2⟩

theorem typed_inttoptr {i : Instr} (h : F.typed i = true) (hop : i.op = .inttoptr) :
    ∃ v, i.ops = [v] ∧ F.tyOf v = some (.int 64) ∧ i.ty = .ptr := by
  unfold Fn.typed at h
  rw [hop] at h
  match hops : i.ops with
  | [] | _ :: _ :: _ => simp [hops] at h
  | [v] =>
    simp only [hops, Bool.and_eq_true, decide_eq_true_eq] at h
    exact ⟨v, rfl, h.1, h.2⟩

theorem typed_load {i : Instr} {n : Nat} (h : F.typed i = true) (hop : i.op = .load n) :
    ∃ p, i.ops = [p] := by
  unfold Fn.typed at h
  rw [hop] at h
  match hops : i.ops with
  | [] | _ :: _ :: _ => simp [hops] at h
  | [p] => exact ⟨p, rfl⟩

theorem typed_store {i : Instr} {n : Nat} (h : F.typed i = true) (hop : i.op = .store n) :
    ∃ v p, i.ops = [v, p] := by
  unfold Fn.typed at h
  rw [hop] at h
  match hops : i.ops with
  | [] | [_] | _ :: _ :: _ :: _ => simp [hops] at h
  | [v, p] => exact ⟨v, p, rfl⟩

theorem isIndex_inst {id : Nat} (h : F.isIndex (.inst id) = true) :
    F.tyOf (.inst id) = some (.int 64) := by
  simpa [Fn.isIndex] using h

theorem stackMem_spec {stack : Instr} (hF : F.WellTyped) (h : stackMem F = some stack) :
    stack ∈ F.instrs ∧ stack.ty = .ptr := by
  have hmem : stack ∈ F.instrs := by
    have hbody := List.mem_of_find?_eq_some h
    cases hb : F.blocks with
    | nil => simp [hb] at hbody
    | cons b bs =>
      rw [hb] at hbody
      exact Fn.mem_instrs.mpr ⟨b, by rw [hb]; exact List.mem_cons_self .., hbody⟩
  have htyped := hF.typed stack hmem
  have hfound := List.find?_some h
  unfold Fn.typed at htyped
  refine ⟨hmem, ?_⟩
  split at hfound
  · rename_i hop
    simp only [hop, Bool.and_eq_true, decide_eq_true_eq] at htyped
    exact htyped.2
  · rename_i name hop
    simp only [Bool.and_eq_true, decide_eq_true_eq] at hfound
    simp only [hop, hfound.1, Bool.or_eq_true, decide_eq_true_eq] at htyped
    exact htyped.resolve_left (by decide)
  · cases hfound

theorem residual_ptr {stack : Instr} {p : Val} (hF : F.WellTyped) (hstack : stackMem F = some stack)
    (h : Residual F slots stack.id (.ptr p) c) : ∃ i ∈ F.instrs, p = .inst i.id ∧ i.ty = .ptr := by
  cases h with
  | base =>
    obtain ⟨hmem, hty⟩ := stackMem_spec hF hstack
    exact ⟨stack, hmem, rfl, hty⟩
  | gep _ user op =>
    have hmem := (Fn.mem_users_instr.mp user).1
    obtain ⟨_, _, _, _, hty, _⟩ := typed_gep (hF.typed _ hmem) op
    exact ⟨_, hmem, rfl, hty⟩
  | inttoptr _ user op =>
    have hmem := (Fn.mem_users_instr.mp user).1
    obtain ⟨_, _, _, hty⟩ := typed_inttoptr (hF.typed _ hmem) op
    exact ⟨_, hmem, rfl, hty⟩
  | sumToPtr _ user op =>
    have hmem := (Fn.mem_users_instr.mp user).1
    obtain ⟨_, _, _, hty⟩ := typed_inttoptr (hF.typed _ hmem) op
    exact ⟨_, hmem, rfl, hty⟩

theorem gep_operand {i : Instr} {i8 : Bool} {steps : List GepStep} {p : Val} {k : Nat}
    (hF : F.WellTyped) (hi : i ∈ F.instrs) (hop : i.op = .gep i8 steps)
    (hp : ∃ j ∈ F.instrs, p = .inst j.id ∧ j.ty = .ptr) (hk : i.ops[k]? = some p) : k = 0 := by
  obtain ⟨q, idxs, hops, _, _, _, hidx⟩ := typed_gep (hF.typed i hi) hop
  obtain ⟨j, hj, rfl, hty⟩ := hp
  cases k with
  | zero => rfl
  | succ k =>
    rw [hops, List.getElem?_cons_succ] at hk
    have hint := isIndex_inst (hidx _ (List.mem_of_getElem? hk))
    rw [hF.tyOf_inst hj, hty] at hint
    cases hint

/-! ## The uses -/

theorem isArg_of_ne {f : Callee} {ops : List Val} {v : Val} {k : Nat} (hk : ops[k]? = some v)
    (h : f = .value → ops.getLast? ≠ some v) : f.IsArg ops.length k := by
  cases f with
  | value =>
    have hlt := (List.getElem?_eq_some_iff.mp hk).1
    have hlast : k ≠ ops.length - 1 := fun heq => h rfl (by rw [List.getLast?_eq_getElem?, ← heq, hk])
    show k + 1 < ops.length
    omega
  | _ => trivial

theorem tracked_ptr {p : Val} {i : Instr} {k : Nat} (hF : F.WellTyped) (hi : i ∈ F.instrs)
    (hp : ∃ j ∈ F.instrs, p = .inst j.id ∧ j.ty = .ptr) (huse : PtrUse F slots N p c i q)
    (hover : ¬Overlooked p (.instr i)) (hk : i.ops[k]? = some p) : Tracked F slots c k (.instr i) := by
  unfold Tracked
  cases huse with
  | planned op acc =>
    simp only [op]
    exact ⟨gep_operand hF hi op hp hk, Or.inl (by rw [acc]; rfl)⟩
  | gep op acc =>
    simp only [op]
    exact ⟨gep_operand hF hi op hp hk, Or.inl (by rw [acc]; rfl)⟩
  | varGep op acc tail base slot =>
    simp only [op]
    exact ⟨gep_operand hF hi op hp hk, Or.inr ⟨_, _, _, tail, base, by rw [slot]; rfl⟩⟩
  | load op =>
    simp only [op]
    obtain ⟨q, hops⟩ := typed_load (hF.typed i hi) op
    have hlt := (List.getElem?_eq_some_iff.mp hk).1
    rw [hops, List.length_singleton] at hlt
    omega
  | store op =>
    simp only [op]
    obtain ⟨v, q, hops⟩ := typed_store (hF.typed i hi) op
    have hlt := (List.getElem?_eq_some_iff.mp hk).1
    rw [hops, List.length_cons, List.length_singleton] at hlt
    have hk0 : k ≠ 0 := fun hzero => hover (Or.inl ⟨⟨_, op⟩, hzero ▸ hk⟩)
    omega
  | @call callee op =>
    simp only [op]
    exact isArg_of_ne hk fun hvalue hlast => hover (Or.inr ⟨by rw [op, hvalue], hlast⟩)
  | ptrtoint op | icmp op => simp only [op]

theorem tracked_cast {i : Instr} {k : Nat} (huse : CastUse slots N c i q) :
    Tracked F slots c k (.instr i) := by
  unfold Tracked
  cases huse with
  | planned op parts | sum op parts =>
    simp only [op]
    rw [parts]
    rfl
  | plannedCast op | inttoptr op | icmp op => simp only [op]

theorem tracked_sum {i : Instr} {k : Nat} (huse : SumUse N c i q) :
    Tracked F slots c k (.instr i) := by
  unfold Tracked
  cases huse with
  | inttoptr op | icmp op => simp only [op]

theorem not_tracked_of_overlooked {p : Val} {u : User} (h : Overlooked p u) :
    ∃ k, u.operands[k]? = some p ∧ ¬Tracked F slots c k u := by
  cases u with
  | phi => cases h
  | term t =>
    obtain ⟨op, hp⟩ := h
    rw [List.getLast?_eq_getElem?] at hp
    refine ⟨_, hp, ?_⟩
    unfold Tracked
    simp only [op, Callee.IsArg]
    omega
  | instr i =>
    rcases h with ⟨⟨n, op⟩, hp⟩ | ⟨op, hp⟩
    · refine ⟨0, hp, ?_⟩
      unfold Tracked
      simp only [op]
      omega
    · rw [List.getLast?_eq_getElem?] at hp
      refine ⟨_, hp, ?_⟩
      unfold Tracked
      simp only [op, Callee.IsArg]
      omega

theorem rewrite_ok {U : ∀ F : Fn, F.UseLists} {depth : Nat} {R : Rewrite} {stack : Instr} (hslots : slots ≠ [])
    (hstack : stackMem F = some stack) (h : rewriteStackObjects U depth F slots = .ok R) :
    ∃ plans, classifyPtr F (U F) slots depth (.inst stack.id) 0 = .ok plans ∧ R = applyPlans U F plans := by
  unfold rewriteStackObjects at h
  simp only [if_neg hslots, hstack] at h
  cases hplans : classifyPtr F (U F) slots depth (.inst stack.id) 0 with
  | error e =>
    rw [hplans] at h
    cases h
  | ok plans =>
    rw [hplans] at h
    cases h
    exact ⟨plans, rfl, rfl⟩

/-- When the slots are taken out of the block, every use of a residual address is tracked if and only
if no residual pointer is stored through itself or called through. -/
theorem residual_tracked {U : ∀ F : Fn, F.UseLists} {depth : Nat} {R : Rewrite} {stack : Instr}
    (hF : F.WellTyped) (hslots : slots ≠ []) (hstack : stackMem F = some stack)
    (h : rewriteStackObjects U depth F slots = .ok R) :
    (∀ a c, Residual F slots stack.id a c → ∀ u ∈ F.users a.val, ∀ k, u.operands[k]? = some a.val →
      Tracked F slots c k u) ↔
    ∀ p c, Residual F slots stack.id (.ptr p) c → ∀ u ∈ F.users p, ¬Overlooked p u := by
  obtain ⟨plans, hplans, _⟩ := rewrite_ok hslots hstack h
  constructor
  · intro htracked p c hres u hu hover
    obtain ⟨k, hk, hnot⟩ := not_tracked_of_overlooked hover
    exact hnot (htracked (.ptr p) c hres u hu k hk)
  · intro hover a c hres u hu k hk
    have hclass := classified_of_residual hres ⟨depth, plans, hplans, Plans.le_refl plans⟩
    obtain ⟨q, _, haccepted⟩ := user_of_classified hclass hres.isOpen hu
    cases haccepted with
    | invoke ha op =>
      subst ha
      unfold Tracked
      simp only [op]
      exact isArg_of_ne hk fun hvalue hlast => hover _ c hres _ hu ⟨by rw [op, hvalue], hlast⟩
    | instr huse =>
      cases a with
      | ptr p =>
        exact tracked_ptr hF (Fn.mem_users_instr.mp hu).1 (residual_ptr hF hstack hres) huse
          (hover p c hres _ hu) hk
      | cast pti => exact tracked_cast huse
      | sum x => exact tracked_sum huse

def retVoid : Terminator := { op := .ret, ops := [], succs := [] }

/-- A stack block with a slot in its last eight bytes. -/
def spillBlock : Instr := { id := 0, name := "stack", ty := .ptr, op := .alloca 1024 16, ops := [] }

def lastSlot : List StackSlot := [⟨-8, 8, 8, 1⟩]

/-- The address of the last slot goes to a call by way of integers, a residual address is loaded. -/
def escapingBody : List Instr :=
  [spillBlock,
    { id := 1, ty := .ptr, op := .gep true [.scale 1], ops := [.inst 0, .int 64 1024] },
    { id := 2, ty := .int 64, op := .ptrtoint, ops := [.inst 1] },
    { id := 3, ty := .int 64, op := .binop .add, ops := [.inst 2, .int 64 (-8)] },
    { id := 4, ty := .ptr, op := .inttoptr, ops := [.inst 3] },
    { id := 5, ty := .void, op := .call (.function "use"), ops := [.inst 4] },
    { id := 6, ty := .ptr, op := .gep true [.scale 1], ops := [.inst 1, .int 64 (-16)] },
    { id := 7, ty := .int 64, op := .load 8, ops := [.inst 6] }]

def escapingFn : Fn := { args := [], blocks := [{ body := escapingBody, term := retVoid }] }

theorem escapingFn_typed : escapingFn.WellTyped := ⟨by decide, by decide⟩

theorem residual_tracked_escaping : (∃ R, rewriteStackObjects Fn.useLists 8 escapingFn lastSlot = .ok R) ∧
    ∀ a c, Residual escapingFn lastSlot 0 a c →
      ∀ u ∈ escapingFn.users a.val, ∀ k, u.operands[k]? = some a.val →
        Tracked escapingFn lastSlot c k u := by
  have hstack : stackMem escapingFn = some spillBlock := rfl
  obtain ⟨R, h⟩ : ∃ R, rewriteStackObjects Fn.useLists 8 escapingFn lastSlot = .ok R := ⟨_, rfl⟩
  refine ⟨⟨R, h⟩, ?_⟩
  refine (residual_tracked escapingFn_typed (by decide) hstack h).mpr ?_
  intro p c _ u hu
  have hplain : ∀ i ∈ escapingBody, ¬Overlooked p (.instr i) := by
    simp [escapingBody, Overlooked, spillBlock]
  cases mem_users.mp hu with
  | instr hi => exact hplain _ hi
  | phi hb hp =>
    obtain rfl := List.mem_singleton.mp hb
    cases hp
  | term hb hv =>
    obtain rfl := List.mem_singleton.mp hb
    cases hv

/-- The store of a pointer through itself. -/
def selfStore : Instr := { id := 2, ty := .void, op := .store 8, ops := [.inst 1, .inst 1] }

def selfStoreFn : Fn :=
  { args := []
    blocks := [{ body := [spillBlock,
                   { id := 1, ty := .ptr, op := .gep true [.scale 1], ops := [.inst 0, .int 64 16] }, selfStore]
                 term := retVoid }] }

/-- The rewrite succeeds while byte 16 of the block, in no slot, has its address stored as data. -/
theorem residual_tracked_fails :
    selfStoreFn.WellTyped ∧ stackMem selfStoreFn = some spillBlock ∧
    (∃ R, rewriteStackObjects Fn.useLists 4 selfStoreFn lastSlot = .ok R) ∧
    Residual selfStoreFn lastSlot 0 (.ptr (.inst 1)) 16 ∧ .instr selfStore ∈ selfStoreFn.users (.inst 1) ∧
    selfStore.ops[0]? = some (.inst 1) ∧ ¬Tracked selfStoreFn lastSlot 16 0 (.instr selfStore) := by
  refine ⟨⟨by decide, by decide⟩, rfl, ⟨_, rfl⟩, ?_, by decide, rfl, ?_⟩
  · exact .gep .base (i := { id := 1, ty := .ptr, op := .gep true [.scale 1], ops := [.inst 0, .int 64 16] })
      (by decide) rfl rfl (by decide)
  · show ¬(0 = 1)
    decide

end BpfTv.Ssa
