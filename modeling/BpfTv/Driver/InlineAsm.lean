import BpfTv.Driver.SourceRewrites
import BpfTv.Llvm.Erase

/-!
# Empty inline asm

An inline asm without instructions gives each register output the value of the input that is tied to
it. Its value, or the field that an `extractvalue` takes out of it, is a copy of an operand: wherever it
is available, so is the operand, with the same value (`copies_eval`).
-/

namespace BpfTv.Ssa

open Control

variable {V W : Type} {α β : Type} {F : Fn} {M : Semantics V W} {c c' : SsaCfg V W} {i ci ev : Instr}
  {ia : InlineAsm} {u v w : Val} {n : Node} {world : W}

/-! ## Tied inputs -/

/-- The input that a register output is tied to, among the arguments `xs` of the call. -/
def tiedInput (cs : List ConstraintInfo) (xs : List α) (c : ConstraintInfo) : Option α := do
  guard (c.isIndirect = false ∧ 0 ≤ c.MatchingInput)
  let t ← cs[c.MatchingInput.toNat]?
  guard (t.type = .isInput)
  xs[(cs.take c.MatchingInput.toNat).countP (·.type = .isInput)]?

def tiedInputs (cs : List ConstraintInfo) (xs : List α) : Option (List α) :=
  (cs.filter (·.type = .isOutput)).mapM (tiedInput cs xs)

/-- An input consumes the argument slot behind those of the inputs before it. -/
theorem argOf_getElem (cs : List ConstraintInfo) (arg m : Nat) : (argOf cs arg)[m]? = (cs[m]?).map fun t =>
    if t.type = .isInput then some (arg + (cs.take m).countP (·.type = .isInput)) else none := by
  induction cs generalizing arg m with
  | nil => rfl
  | cons c cs ih =>
    cases m with
    | zero =>
      unfold argOf
      split
      · rename_i hin
        simp [hin]
      · rename_i hin
        simp [hin]
    | succ m =>
      unfold argOf
      split
      · rename_i hin
        rw [List.getElem?_cons_succ, List.getElem?_cons_succ, ih, List.take_succ_cons,
          List.countP_cons_of_pos (by simpa using hin)]
        congr 1
        funext t
        rw [Nat.add_assoc, Nat.add_comm 1]
      · rename_i hin
        rw [List.getElem?_cons_succ, List.getElem?_cons_succ, ih, List.take_succ_cons,
          List.countP_cons_of_neg (by simpa using hin)]

theorem mapM_congr {f g : α → Option β} {xs : List α} (h : ∀ x ∈ xs, f x = g x) : xs.mapM f = xs.mapM g := by
  induction xs with
  | nil => rfl
  | cons x xs ih =>
    rw [List.mapM_cons, List.mapM_cons, h x (List.mem_cons_self ..),
      ih fun y hy => h y (List.mem_cons_of_mem _ hy)]

theorem mapM_eq_none {f : α → Option β} {xs : List α} {x : α} (hx : x ∈ xs) (hf : f x = none) :
    xs.mapM f = none := by
  induction xs with
  | nil => cases hx
  | cons y xs ih =>
    rw [List.mapM_cons]
    rcases List.mem_cons.mp hx with rfl | hx
    · rw [hf]
      rfl
    · rw [ih hx]
      cases f y with
      | none => rfl
      | some z => rfl

theorem outVal_eq (cs : List ConstraintInfo) (ops : List Val) : outVal cs ops = tiedInputs cs ops := by
  unfold outVal tiedInputs
  simp only
  split
  · rename_i hany
    obtain ⟨c, hc, hind⟩ := List.any_eq_true.mp hany
    refine (mapM_eq_none hc ?_).symm
    simp [tiedInput, hind]
  · rename_i hany
    refine mapM_congr fun c hc => ?_
    have hdirect : c.isIndirect = false := by
      cases hind : c.isIndirect with
      | false => rfl
      | true => exact absurd (List.any_eq_true.mpr ⟨c, hc, hind⟩) hany
    rw [argOf_getElem, tiedInput]
    by_cases hm : 0 ≤ c.MatchingInput
    · cases ht : cs[c.MatchingInput.toNat]? with
      | none => simp [hm, hdirect]
      | some t =>
        by_cases hin : t.type = .isInput
        · simp [hm, hdirect, hin]
        · simp [hm, hdirect, hin]
    · simp [hm]

theorem tiedInput_map (f : α → β) (cs : List ConstraintInfo) (xs : List α) (c : ConstraintInfo) :
    tiedInput cs (xs.map f) c = (tiedInput cs xs c).map f := by
  simp only [tiedInput, List.getElem?_map, Option.bind_eq_bind, Option.map_bind, Function.comp_def]

theorem tiedInputs_map (f : α → β) (cs : List ConstraintInfo) (xs : List α) :
    tiedInputs cs (xs.map f) = (tiedInputs cs xs).map (·.map f) := by
  unfold tiedInputs
  induction cs.filter (·.type = .isOutput) with
  | nil => rfl
  | cons c os ih =>
    rw [List.mapM_cons, List.mapM_cons, ih, tiedInput_map]
    cases tiedInput cs xs c with
    | none => rfl
    | some x =>
      cases os.mapM (tiedInput cs xs) with
      | none => rfl
      | some ys => rfl

theorem mem_tiedInputs {cs : List ConstraintInfo} {xs outs : List α} (h : tiedInputs cs xs = some outs) {x : α}
    (hx : x ∈ outs) : x ∈ xs := by
  obtain ⟨c, _, hc⟩ := mem_mapM_some h x hx
  simp only [tiedInput, Option.bind_eq_bind, Option.bind_eq_some_iff] at hc
  obtain ⟨_, _, t, _, _, _, hx⟩ := hc
  exact List.mem_of_getElem? hx

/-! ## What the asm computes -/

/-- An aggregate has the tied inputs as its fields. -/
def Fields (M : Semantics V W) (fields : List (Datum V) → Datum V) : Prop :=
  (∀ ia ty xs outs world, ia.asmString.isEmpty = true → ty.isStruct = true →
    tiedInputs ia.constraints xs = some outs → M.exec (.call (.asm ia)) ty xs world = some (fields outs, world)) ∧
  ∀ k ty outs x world, outs[k]? = some x → M.exec (.extractvalue [k]) ty [fields outs] world = some (x, world)

/-- A call of inline asm with an empty template gives each register output the value of the input tied
to it, and has no other effect. -/
structure AsmIdentity (M : Semantics V W) : Prop where
  void : ∀ ia xs world, ia.asmString.isEmpty = true →
    ∃ x, M.exec (.call (.asm ia)) .void xs world = some (x, world)
  scalar : ∀ ia ty xs x world, ia.asmString.isEmpty = true → ty ≠ .void → ty.isStruct = false →
    tiedInputs ia.constraints xs = some [x] → M.exec (.call (.asm ia)) ty xs world = some (x, world)
  struct : ∃ fields, Fields M fields

theorem emptyAsm_some (h : ci.emptyAsm = some ia) :
    ci.op = .call (.asm ia) ∧ ia.asmString.isEmpty = true := by
  unfold Instr.emptyAsm at h
  split at h
  · rename_i ja hop
    split at h
    · rename_i hempty
      cases h
      exact ⟨hop, hempty⟩
    · cases h
  · cases h

theorem run_exec {op : Op} {ty : Ty} {xs : List (Datum V)} (h : op.isAddress ty = false) :
    M.run op ty xs world = M.exec op ty xs world := by
  rw [Semantics.run, h]
  rfl

/-! ## Copies -/

/-- A value is a copy of another one: of the tied input of a call, or of the input that a field of an
aggregate is tied to. -/
inductive Copies (F : Fn) : Val → Val → Prop
  | refl (v : Val) : Copies F v v
  | call {ci : Instr} {ia : InlineAsm} {v w : Val} (hci : ci ∈ F.instrs) (hasm : ci.emptyAsm = some ia)
      (hty : ci.ty ≠ .void ∧ ci.ty.isStruct = false) (tied : tiedInputs ia.constraints ci.ops = some [v])
      (h : Copies F v w) : Copies F (.inst ci.id) w
  | field {ev ci : Instr} {ia : InlineAsm} {k : Nat} {outs : List Val} {u v w : Val} (hev : ev ∈ F.instrs)
      (op : ev.op = .extractvalue [k]) (ops : ev.ops = [u]) (hu : Copies F u (.inst ci.id))
      (hci : ci ∈ F.instrs) (hasm : ci.emptyAsm = some ia) (hty : ci.ty.isStruct = true)
      (tied : tiedInputs ia.constraints ci.ops = some outs) (hk : outs[k]? = some v) (h : Copies F v w) :
      Copies F (.inst ev.id) w

theorem Copies.trans (h : Copies F u v) (h' : Copies F v w) : Copies F u w := by
  induction h with
  | refl => exact h'
  | call hci hasm hty tied _ ih => exact .call hci hasm hty tied (ih h')
  | field hev op ops hu hci hasm hty tied hk _ _ ih => exact .field hev op ops hu hci hasm hty tied hk (ih h')

/-- The value is computed from the other one. -/
def Needs (F : Fn) (v w : Val) : Prop := ∃ i ∈ F.instrs, v = .inst i.id ∧ w ∈ i.ops

theorem Copies.needs (h : Copies F v w) : Relation.ReflTransGen (Needs F) v w := by
  induction h with
  | refl => exact .refl
  | call hci _ _ tied _ ih =>
    exact Relation.ReflTransGen.head ⟨_, hci, rfl, mem_tiedInputs tied (List.mem_singleton_self _)⟩ ih
  | @field ev ci ia k outs u v w hev op ops _ hci _ _ tied hk _ ihu ih =>
    have hfirst : Needs F (.inst ev.id) u := ⟨ev, hev, rfl, by rw [ops]; exact List.mem_singleton_self _⟩
    have hlast : Needs F (.inst ci.id) v := ⟨ci, hci, rfl, mem_tiedInputs tied (List.mem_of_getElem? hk)⟩
    exact Relation.ReflTransGen.trans (Relation.ReflTransGen.head hfirst ihu)
      (Relation.ReflTransGen.head hlast ih)

theorem Needs.available (hF : F.SsaForm) (h : Needs F v w) (hv : F.Available v n) : F.Available w n := by
  obtain ⟨i, hi, rfl, hw⟩ := h
  intro a ha d hd
  exact (hF.dom i hi a (ha ▸ hw) d hd).trans (hv i.id rfl (.body i.id) (Fn.defines_body hi))

theorem available_of_needs (hF : F.SsaForm) (h : Relation.ReflTransGen (Needs F) v w) (hv : F.Available v n) :
    F.Available w n := by
  induction h with
  | refl => exact hv
  | tail _ hs ih => exact hs.available hF ih

theorem Copies.available (hF : F.SsaForm) (h : Copies F v w) (hv : F.Available v n) : F.Available w n :=
  available_of_needs hF h.needs hv

theorem needs_at (hF : F.SsaForm) (hi : i ∈ F.instrs) (h : w ∈ i.ops) : F.Available w (.body i.id) :=
  fun a ha d hd => hF.dom i hi a (ha ▸ h) d hd

/-- No value that can be available is needed for itself. -/
theorem not_cyclic (hF : F.SsaForm) (hn : Relation.ReflTransGen F.Edge (.phis 0) n) (hv : F.Available v n) :
    ¬Relation.TransGen (Needs F) v v := by
  intro hcyc
  obtain ⟨w, ⟨i, hi, rfl, hw⟩, hrest⟩ := (Relation.TransGen.head'_iff).mp hcyc
  have hdom := hv i.id rfl (.body i.id) (Fn.defines_body hi)
  have hself := available_of_needs hF hrest (needs_at hF hi hw) i.id rfl (.body i.id) (Fn.defines_body hi)
  exact not_dom_self (hdom.reaches hn) hself

/-! ## Their values -/

theorem dom_at (hi : i ∈ F.instrs) (hv : F.Available (.inst i.id) n) : Dom F.Edge (.phis 0) (.body i.id) n :=
  hv i.id rfl (.body i.id) (Fn.defines_body hi)

/-- Where an instruction is available, its value is what its operands give. -/
theorem env_of_run (hF : F.SsaForm) (hi : i ∈ F.instrs) {f : List (Datum V) → Datum V}
    (hrun : ∀ (ρ : SsaEnv V) world x world',
      M.run i.op i.ty (i.ops.map (·.eval M ρ)) world = some (x, world') → x = f (i.ops.map (·.eval M ρ)))
    (hc : F.Reaches M world c) (hav : F.Available (.inst i.id) c.node) :
    c.env i.id = f (i.ops.map (·.eval M c.env)) := by
  refine (relation_established (R := fun xs x => x = f xs) hF hi M world (hF.dom i hi) ?_).holds_of_dom
    (stepsAlong F M world) hc (dom_at hi hav)
  intro c₁ c₂ hc₁ hs hnode
  obtain ⟨world', h⟩ := step_value hF.nodup hi hc₁ hs hnode
  exact hrun _ _ _ _ h

theorem tied_eval {cs : List ConstraintInfo} {ops outs : List Val} (tied : tiedInputs cs ops = some outs)
    (ρ : SsaEnv V) : tiedInputs cs (ops.map (·.eval M ρ)) = some (outs.map (·.eval M ρ)) := by
  rw [tiedInputs_map, tied]
  rfl

theorem scalar_eval (hF : F.SsaForm) (hM : AsmIdentity M) (hci : ci ∈ F.instrs) (hasm : ci.emptyAsm = some ia)
    (hty : ci.ty ≠ .void ∧ ci.ty.isStruct = false) (tied : tiedInputs ia.constraints ci.ops = some [v])
    (hc : F.Reaches M world c) (hav : F.Available (.inst ci.id) c.node) :
    c.env ci.id = v.eval M c.env := by
  obtain ⟨hop, hempty⟩ := emptyAsm_some hasm
  have h := env_of_run (M := M) (f := fun xs => ((tiedInputs ia.constraints xs).getD []).headD .undef) hF hci
    (fun ρ world x world' hrun => ?_) hc hav
  · rw [h, tied_eval tied]
    rfl
  · have htied := tied_eval (M := M) tied ρ
    rw [hop, run_exec rfl, hM.scalar ia ci.ty _ _ world hempty hty.1 hty.2 htied] at hrun
    rw [htied, ← (Prod.mk.inj (Option.some.inj hrun)).1]
    rfl

theorem aggregate_eval {fields : List (Datum V) → Datum V} {outs : List Val} (hF : F.SsaForm)
    (hfields : Fields M fields) (hci : ci ∈ F.instrs) (hasm : ci.emptyAsm = some ia)
    (hty : ci.ty.isStruct = true) (tied : tiedInputs ia.constraints ci.ops = some outs)
    (hc : F.Reaches M world c) (hav : F.Available (.inst ci.id) c.node) :
    c.env ci.id = fields (outs.map (·.eval M c.env)) := by
  obtain ⟨hop, hempty⟩ := emptyAsm_some hasm
  have h := env_of_run (M := M) (f := fun xs => fields ((tiedInputs ia.constraints xs).getD [])) hF hci
    (fun ρ world x world' hrun => ?_) hc hav
  · rw [h, tied_eval tied]
    rfl
  · have htied := tied_eval (M := M) tied ρ
    rw [hop, run_exec rfl, hfields.1 ia ci.ty _ _ world hempty hty htied] at hrun
    rw [htied, ← (Prod.mk.inj (Option.some.inj hrun)).1]
    rfl

theorem extract_run {fields : List (Datum V) → Datum V} {outs : List Val} {k : Nat} {x : Datum V} {world' : W}
    (hfields : Fields M fields) (op : ev.op = .extractvalue [k]) (ops : ev.ops = [u])
    (hu : u.eval M c.env = fields (outs.map (·.eval M c.env))) (hk : outs[k]? = some v) :
    M.run ev.op ev.ty (ev.ops.map (·.eval M c.env)) world' = some (x, world) ↔
      x = v.eval M c.env ∧ world' = world := by
  have hk' : (outs.map (·.eval M c.env))[k]? = some (v.eval M c.env) := by
    rw [List.getElem?_map, hk]
    rfl
  rw [op, run_exec rfl, ops, List.map_singleton, hu, hfields.2 k ev.ty _ _ world' hk', Option.some.injEq,
    Prod.mk.injEq, eq_comm]

/-- A copy has the value of what it is a copy of. -/
theorem copies_eval (hF : F.SsaForm) (hM : AsmIdentity M) (h : Copies F v w) (hc : F.Reaches M world c)
    (hav : F.Available v c.node) : v.eval M c.env = w.eval M c.env := by
  induction h generalizing c with
  | refl => rfl
  | @call ci ia v w hci hasm hty tied _ ih =>
    have hneeds : Needs F (.inst ci.id) v := ⟨ci, hci, rfl, mem_tiedInputs tied (List.mem_singleton_self _)⟩
    rw [← ih hc (hneeds.available hF hav)]
    exact scalar_eval hF hM hci hasm hty tied hc hav
  | @field ev ci ia k outs u v w hev op ops hu hci hasm hty tied hk _ ihu ih =>
    obtain ⟨fields, hfields⟩ := hM.struct
    -- the operand of the `extractvalue` is the aggregate, and has the inputs as its fields
    have huev : u ∈ ev.ops := by
      rw [ops]
      exact List.mem_singleton_self _
    have hciev : F.Available (.inst ci.id) (.body ev.id) := hu.available hF (needs_at hF hev huev)
    have houts : ∀ a, .inst a ∈ outs → ∀ d, F.Defines a d → Dom F.Edge (.phis 0) d (.body ev.id) :=
      fun a ha d hd => (needs_at hF hci (mem_tiedInputs tied ha) a rfl d hd).trans (dom_at hci hciev)
    have hvav : F.Available v c.node := fun a ha d hd =>
      (houts a (ha ▸ List.mem_of_getElem? hk) d hd).trans (dom_at hev hav)
    rw [← ih hc hvav]
    have h := (relation_established (R := fun xs x => xs[k]? = some x) hF hev M world houts ?_).holds_of_dom
      (stepsAlong F M world) hc (dom_at hev hav)
    · rw [List.getElem?_map, hk, Option.map_some, Option.some.injEq] at h
      exact h.symm
    · intro c₁ c₂ hc₁ hs hnode
      obtain ⟨world', hrun⟩ := step_value hF.nodup hev hc₁ hs hnode
      have hueval : u.eval M c₁.env = fields (outs.map (·.eval M c₁.env)) := by
        rw [ihu hc₁ (hnode ▸ needs_at hF hev huev)]
        exact aggregate_eval hF hfields hci hasm hty tied hc₁ (hnode ▸ hciev)
      rw [List.getElem?_map, hk, ((extract_run hfields op ops hueval hk).mp hrun).1]
      rfl

/-! ## Instructions without effect -/

/-- What the rewrites erase. -/
inductive Silent (F : Fn) : Instr → Prop
  | void {ci : Instr} {ia : InlineAsm} (hasm : ci.emptyAsm = some ia) (hty : ci.ty = .void) : Silent F ci
  | call {ci : Instr} {ia : InlineAsm} {v : Val} (hasm : ci.emptyAsm = some ia)
      (hty : ci.ty ≠ .void ∧ ci.ty.isStruct = false) (tied : tiedInputs ia.constraints ci.ops = some [v]) :
      Silent F ci
  | struct {ci : Instr} {ia : InlineAsm} {outs : List Val} (hasm : ci.emptyAsm = some ia)
      (hty : ci.ty.isStruct = true) (tied : tiedInputs ia.constraints ci.ops = some outs) : Silent F ci
  | field {ev ci : Instr} {ia : InlineAsm} {k : Nat} {outs : List Val} {u v : Val} (hev : ev ∈ F.instrs)
      (op : ev.op = .extractvalue [k]) (ops : ev.ops = [u]) (hu : Copies F u (.inst ci.id))
      (hci : ci ∈ F.instrs) (hasm : ci.emptyAsm = some ia) (hty : ci.ty.isStruct = true)
      (tied : tiedInputs ia.constraints ci.ops = some outs) (hk : outs[k]? = some v) : Silent F ev

theorem silent_run (hF : F.SsaForm) (hM : AsmIdentity M) (h : Silent F i) (hc : F.Reaches M world c)
    (hnode : c.node = .body i.id) :
    ∃ x, M.run i.op i.ty (i.ops.map (·.eval M c.env)) c.world = some (x, c.world) := by
  cases h with
  | void hasm hty =>
    obtain ⟨hop, hempty⟩ := emptyAsm_some hasm
    rw [hop, run_exec rfl, hty]
    exact hM.void _ _ _ hempty
  | call hasm hty tied =>
    obtain ⟨hop, hempty⟩ := emptyAsm_some hasm
    rw [hop, run_exec rfl]
    exact ⟨_, hM.scalar _ _ _ _ _ hempty hty.1 hty.2 (tied_eval tied _)⟩
  | struct hasm hty tied =>
    obtain ⟨fields, hfields⟩ := hM.struct
    obtain ⟨hop, hempty⟩ := emptyAsm_some hasm
    rw [hop, run_exec rfl]
    exact ⟨_, hfields.1 _ _ _ _ _ hempty hty (tied_eval tied _)⟩
  | @field ci ia k outs u v hev op ops hu hci hasm hty tied hk =>
    obtain ⟨fields, hfields⟩ := hM.struct
    have huev : F.Available u c.node := by
      rw [hnode]
      exact needs_at hF hev (by rw [ops]; exact List.mem_singleton_self _)
    have hueval : u.eval M c.env = fields (outs.map (·.eval M c.env)) := by
      rw [copies_eval hF hM hu hc huev]
      exact aggregate_eval hF hfields hci hasm hty tied hc (hu.available hF huev)
    exact ⟨_, (extract_run hfields op ops hueval hk).mpr ⟨rfl, rfl⟩⟩

end BpfTv.Ssa
