import BpfTv.Lifter.CallSemantics

/-!
# The contract for arguments

A caller passes an argument in the low bits of its register (`marshallArgs`); the lifted callee
assumes that a register arrives as `enforceSExtZExt` makes it from the argument and its attributes
(`platformInit`). The callee assumes every register that callers may pass exactly when the parameter
has no attribute (`argument_contract`).
-/

namespace BpfTv

variable {s s₁ s₂ s' : LState} {rt rt₁ rt' : Rt} {v : Value} {x : RVal} {env : Env}

/-! ## The callee -/

/-- The bytes of unspecified state in the register of an argument. -/
def Argument.junkBytes (a : Argument) : Nat :=
  match a.ty with
  | .int w => BpfTv.junkBytes a.hasSExtAttr a.hasZExtAttr w
  | _ => 0

/-- The register of an argument with value `x`; its unspecified state starts at `off`. -/
def Argument.reg (a : Argument) (W : World) (off : Nat) : RVal → BitVec 64
  | @RVal.int w y => enforced a.hasSExtAttr a.hasZExtAttr y (W.junk off (64 - w))
  | .ptr (.flat p) => p
  | _ => 0

/-- Where the unspecified state of argument `i` starts. -/
def argOff (off : Nat) (args : List Argument) (i : Nat) : Nat :=
  off + ((args.take i).map Argument.junkBytes).sum

theorem storePtrReg_wlp {r : Fin 12} {a : BitVec 64} (hopen : s.code.Open)
    (hv : s.Has rt v (.ptr (.flat a))) :
    (createStore v (.regFile r)).wlp s rt fun _ s' rt' =>
      Writes s rt r a s' rt' ∧ s'.unspecifiedOff = s.unspecifiedOff := by
  have hx : Instr.exec ⟨s.next, .store v (.regFile r)⟩ rt = .ok (rt.setReg r a) := by
    simp only [Instr.exec, hv.eval]
    rfl
  refine Emit.wlp_bind (Emit.wlp_of_wp (emit_wp hopen hx (Emit.wlp_pure ?_)))
  exact ⟨⟨⟨hopen.push _, Nat.le_succ _, fun _ _ => rfl, fun _ _ => rfl, rfl⟩, rfl, rfl, rfl⟩, rfl⟩

theorem initArg_wlp {a : Argument} {n : Nat} {r : Fin 12} (hopen : s.code.Open)
    (hx : (rt.world.args n).HasTy a.ty) (hne : a.ty ≠ .void) :
    (do
      let val ← enforceSExtZExt (.arg n a.ty) a.hasSExtAttr a.hasZExtAttr
      createStore val (.regFile r)).wlp s rt fun _ s' rt' =>
        Writes s rt r (a.reg rt.world s.unspecifiedOff (rt.world.args n)) s' rt' ∧
        s'.unspecifiedOff = s.unspecifiedOff + a.junkBytes := by
  have hv : s.Has rt (.arg n a.ty) (rt.world.args n) := ⟨rfl, trivial⟩
  have ht : (Value.arg n a.ty).ty = a.ty := rfl
  unfold Argument.reg Argument.junkBytes
  generalize rt.world.args n = x at hx hv ⊢
  generalize a.ty = t at hx hv ht hne ⊢
  cases hx with
  | int hw y =>
    refine (enforce_gives hw hopen ht hv _ _).bind fun u s₁ rt₁ hu _ q hoff => ?_
    refine Emit.wlp_mono (storeReg_wlp q.isOpen hu) ?_
    rintro _ s₂ rt₂ ⟨hw, ho⟩
    exact ⟨q.writes hw, ho.trans hoff⟩
  | ptr p =>
    have hen : enforceSExtZExt (.arg n .ptr) a.hasSExtAttr a.hasZExtAttr = pure (.arg n .ptr) := rfl
    rw [hen, pure_bind]
    exact storePtrReg_wlp hopen hv
  | void => exact absurd rfl hne

theorem argOff_succ (off : Nat) (a : Argument) (rest : List Argument) (j : Nat) :
    argOff off (a :: rest) (j + 1) = argOff (off + a.junkBytes) rest j := by
  simp only [argOff, List.take_succ_cons, List.map_cons, List.sum_cons]
  omega

theorem initArgs_wlp (args : List Argument) (n : Nat) (hopen : s.code.Open)
    (hty : ∀ j a, args[j]? = some a → (rt.world.args (n + j)).HasTy a.ty) :
    (initArgs n args).wlp s rt fun _ s' rt' => Later s rt s' rt' ∧
      (∀ r : Fin 12, r.val ≤ n → rt'.regs r = rt.regs r) ∧
      ∀ j a, args[j]? = some a → rt'.regs (argReg (n + j)) =
        a.reg rt.world (argOff s.unspecifiedOff args j) (rt.world.args (n + j)) := by
  induction args generalizing n s rt with
  | nil => exact Emit.wlp_pure ⟨(Quiet.refl hopen).toLater, fun _ _ => rfl, fun j a hj => by simp at hj⟩
  | cons a rest ih =>
    have hstep : ∀ h : n < 5, a.ty ≠ .void → (do
        let val ← enforceSExtZExt (.arg n a.ty) a.hasSExtAttr a.hasZExtAttr
        createStore val (.regFile ⟨1 + n, by omega⟩)
        initArgs (n + 1) rest).wlp s rt fun _ s' rt' => Later s rt s' rt' ∧
          (∀ r : Fin 12, r.val ≤ n → rt'.regs r = rt.regs r) ∧
          ∀ j (b : Argument), (a :: rest)[j]? = some b → rt'.regs (argReg (n + j)) =
            b.reg rt.world (argOff s.unspecifiedOff (a :: rest) j) (rt.world.args (n + j)) := by
      intro h hne
      have h0 := hty 0 a rfl
      rw [← bind_assoc]
      refine Emit.wlp_bind (Emit.wlp_mono (initArg_wlp (r := ⟨1 + n, by omega⟩) hopen h0 hne) ?_)
      rintro _ s₁ rt₁ ⟨hw, hoff⟩
      refine Emit.wlp_mono (ih (n + 1) hw.isOpen fun j b hb => ?_) ?_
      · rw [hw.world_eq, Nat.add_assoc, Nat.add_comm 1 j]
        exact hty (j + 1) b hb
      rintro _ s₂ rt₂ ⟨hl, hframe, hargs⟩
      refine ⟨hw.toLater.trans hl, fun r hr => ?_, fun j b hb => ?_⟩
      · rw [hframe r (by omega), hw.regs_eq, Function.update_of_ne]
        rintro rfl
        simp at hr
      · cases j with
        | zero =>
          obtain rfl : a = b := by simpa using hb
          have hreg : argReg n = ⟨1 + n, by omega⟩ := Fin.ext (Nat.mod_eq_of_lt (by omega))
          rw [Nat.add_zero, hreg, hframe _ (by simp; omega), hw.regs_eq, Function.update_self]
          simp [argOff]
        | succ j =>
          have hb' := hargs j b hb
          rw [hw.world_eq, hoff, ← argOff_succ, Nat.add_assoc, Nat.add_comm 1 j] at hb'
          exact hb'
    by_cases h : n < 5
    · cases hta : a.ty with
      | int w => simpa only [initArgs, hta, dif_pos h] using hstep h (by simp [hta])
      | ptr => simpa only [initArgs, hta, dif_pos h] using hstep h (by simp [hta])
      | _ =>
        unfold initArgs
        rw [hta]
        exact Emit.wlp_of_error rfl
    · unfold initArgs
      cases hta : a.ty with
      | int w =>
        simp only [dif_neg h]
        exact Emit.wlp_of_error rfl
      | ptr =>
        simp only [dif_neg h]
        exact Emit.wlp_of_error rfl
      | _ => exact Emit.wlp_of_error rfl

/-- The arguments of the lifted function are values of their types. -/
def Env.ArgsTyped (env : Env) (W : World) : Prop :=
  ∀ i a, env.srcArgs[i]? = some a → (W.args i).HasTy a.ty

/-- The offset of the unspecified state of the arguments: behind that of the twelve registers. -/
def regFileBytes : Nat := 8 * 12

theorem platformInit_wlp (hopen : s.code.Open) (hty : env.ArgsTyped rt.world) :
    (platformInit env).wlp s rt fun _ s' rt' => Later s rt s' rt' ∧
      ∀ i a, env.srcArgs[i]? = some a → rt'.regs (argReg i) = a.reg rt.world
        (argOff (s.unspecifiedOff + regFileBytes) env.srcArgs i) (rt.world.args i) := by
  have hregs : (List.finRange 12).forM (fun r => createRegStorage (.R r) 64) =
      ((List.finRange 12).map Reg.R).forM fun r => invalidateReg r 64 := List.forM_map.symm
  unfold platformInit
  rw [hregs]
  refine Emit.wlp_bind (Emit.wlp_mono (invalidateAll_wlp _ hopen) ?_)
  rintro _ s₁ rt₁ ⟨he, hoff⟩
  refine Emit.wlp_bind (Emit.wlp_of_wp (wp_liftOk (unsignedConst_run (by decide) s₁) ?_))
  have hstack : s₁.Has rt₁ (.stack (0 + (BitVec.ofNat 64 stackBytes).toNat))
      (.ptr (.flat (rt₁.world.stackBase + BitVec.ofNat 64 (0 + (BitVec.ofNat 64 stackBytes).toNat)))) :=
    ⟨rfl, trivial⟩
  simp only [createGEP, pure_bind]
  refine Emit.wlp_bind (Emit.wlp_mono (storePtrReg_wlp he.isOpen hstack) ?_)
  rintro _ s₂ rt₂ ⟨hw, hoff₂⟩
  have hworld : rt₂.world = rt.world := hw.world_eq.trans he.world_eq
  refine Emit.wlp_mono (initArgs_wlp env.srcArgs 0 hw.isOpen fun j a ha => ?_) ?_
  · rw [hworld, Nat.zero_add]
    exact hty j a ha
  rintro _ s₃ rt₃ ⟨hl, _, hargs⟩
  refine ⟨he.toLater.trans (hw.toLater.trans hl), fun i a ha => ?_⟩
  have hi := hargs i a ha
  rw [Nat.zero_add, hworld, hoff₂, hoff] at hi
  simpa [regFileBytes] using hi

/-! ## What the two parties see -/

/-- The caller, whose code goes from `s` to `s'` and gives the arguments `vs`, passes `v` as argument
`i` when the register is `y`. -/
def PassesArg (s s' : LState) (vs : List Value) (i : Nat) {n : Nat} (v : BitVec n) (y : BitVec 64) :
    Prop :=
  ∃ rt rt', s'.code.Runs ir (s.code.endCfg rt) (s'.code.endCfg rt') ∧ rt.regs (argReg i) = y ∧
    ∃ u, vs[i]? = some u ∧ u.eval rt' = .ok (.int v)

/-- The callee, whose code goes from `s` to `s'`, assumes that the register may be `y` when argument
`i` is `v`. -/
def AssumesArg (env : Env) (s s' : LState) (i : Nat) {n : Nat} (v : BitVec n) (y : BitVec 64) : Prop :=
  ∃ rt rt', env.ArgsTyped rt.world ∧ rt.world.args i = .int v ∧
    s'.code.Runs ir (s.code.endCfg rt) (s'.code.endCfg rt') ∧ rt'.regs (argReg i) = y

theorem forall₂_getElem? {γ δ : Type} {R : γ → δ → Prop} {xs : List γ} {ys : List δ}
    (h : List.Forall₂ R xs ys) {i : Nat} {y : δ} (hy : ys[i]? = some y) :
    ∃ x, xs[i]? = some x ∧ R x y := by
  induction h generalizing i with
  | nil => cases hy
  | @cons x y' xs ys hd _ ih =>
    cases i with
    | zero =>
      obtain rfl : y' = y := by simpa using hy
      exact ⟨x, rfl, hd⟩
    | succ i => exact ih hy

theorem passes_iff {fTy : FunctionType} {vs : List Value} {i n : Nat}
    (hparam : fTy.params[i]? = some (.int n)) (hopen : s.code.Open)
    (hrun : (marshallArgs fTy).run s = .ok (vs, s')) (v : BitVec n) (y : BitVec 64) :
    PassesArg s s' vs i v y ↔ y.setWidth n = v := by
  have hagg : fTy.ret ≠ .aggregate := by
    intro h
    unfold marshallArgs at hrun
    rw [if_pos h] at hrun
    cases hrun
  have hlift : ∀ rt, ∃ rt', s'.code.Open ∧ s'.code.Runs ir (s.code.endCfg rt) (s'.code.endCfg rt') ∧
      ∃ u, vs[i]? = some u ∧ u.eval rt' = .ok (.int ((rt.regs (argReg i)).setWidth n)) := by
    intro rt
    unfold marshallArgs at hrun
    rw [if_neg hagg] at hrun
    have hmarshall : (marshallParams 0 fTy.params).wlp s rt _ := marshallParams_wlp fTy.params 0 hopen
    obtain ⟨rt', hseg, ⟨hvs, q⟩, _⟩ := hmarshall vs s' hrun
    refine ⟨rt', q.isOpen, hseg.runs _ (Emit.Code.Le.refl _), ?_⟩
    have hi : (fTy.params.mapIdx fun i ty => argOf ty (rt.regs (argReg (0 + i))))[i]? =
        some (.int ((rt.regs (argReg i)).setWidth n)) := by
      rw [List.getElem?_mapIdx, hparam, Nat.zero_add]
      rfl
    obtain ⟨u, hu, hv⟩ := forall₂_getElem? hvs hi
    exact ⟨u, hu, hv.eval⟩
  constructor
  · rintro ⟨rt, rt', hruns, rfl, u, hu, heval⟩
    obtain ⟨rt'', ho, hruns', u', hu', heval'⟩ := hlift rt
    have hst : rt' = rt'' := ho.end_unique hruns hruns'
    obtain rfl : u = u' := by
      rw [hu] at hu'
      cases hu'
      rfl
    rw [hst, heval'] at heval
    simpa using heval
  · rintro rfl
    obtain ⟨rt', _, hruns, hu⟩ := hlift (Rt.start World.zero (fun _ => y) fun _ => 0)
    exact ⟨_, rt', hruns, rfl, hu⟩

theorem initArgs_types {args : List Argument} {n : Nat} (hrun : (initArgs n args).run s = .ok ((), s')) :
    ∀ a ∈ args, a.ty = .ptr ∨ ∃ w, a.ty = .int w := by
  induction args generalizing n s with
  | nil => exact nofun
  | cons a rest ih =>
    have hrest : (a.ty = .ptr ∨ ∃ w, a.ty = .int w) ∧
        ∃ s₁, (initArgs (n + 1) rest).run s₁ = .ok ((), s') := by
      unfold initArgs at hrun
      cases hta : a.ty with
      | int w =>
        refine ⟨Or.inr ⟨w, rfl⟩, ?_⟩
        by_cases h : n < 5
        · simp only [hta, dif_pos h] at hrun
          obtain ⟨_, _, _, hrun⟩ := run_bind_ok hrun
          obtain ⟨_, s₁, _, hrun⟩ := run_bind_ok hrun
          exact ⟨s₁, hrun⟩
        · simp only [hta, dif_neg h] at hrun
          cases hrun
      | ptr =>
        refine ⟨Or.inl rfl, ?_⟩
        by_cases h : n < 5
        · simp only [hta, dif_pos h] at hrun
          obtain ⟨_, _, _, hrun⟩ := run_bind_ok hrun
          obtain ⟨_, s₁, _, hrun⟩ := run_bind_ok hrun
          exact ⟨s₁, hrun⟩
        · simp only [hta, dif_neg h] at hrun
          cases hrun
      | _ =>
        simp only [hta] at hrun
        cases hrun
    obtain ⟨hty, s₁, hrun'⟩ := hrest
    exact List.forall_mem_cons.mpr ⟨hty, ih hrun'⟩

/-- A lifted function can be called: there are arguments of its types, argument `i` at will. -/
theorem exists_args {i : Nat} {arg : Argument} (harg : env.srcArgs[i]? = some arg)
    (htys : ∀ a ∈ env.srcArgs, a.ty ≠ .int 0) (hrun : (platformInit env).run s = .ok ((), s'))
    (hx : x.HasTy arg.ty) :
    ∃ args : Nat → RVal, args i = x ∧ ∀ W : World, W.args = args → env.ArgsTyped W := by
  obtain ⟨_, _, _, hrun⟩ := run_bind_ok hrun
  obtain ⟨_, _, _, hrun⟩ := run_bind_ok hrun
  obtain ⟨_, _, _, hrun⟩ := run_bind_ok hrun
  obtain ⟨_, _, _, hrun⟩ := run_bind_ok hrun
  have hvalue : ∀ j : Nat, ∃ z : RVal, ∀ a : Argument, env.srcArgs[j]? = some a → z.HasTy a.ty := by
    intro j
    cases hj : env.srcArgs[j]? with
    | none => exact ⟨.void, nofun⟩
    | some a =>
      have ha : a ∈ env.srcArgs := List.mem_of_getElem? hj
      rcases initArgs_types hrun a ha with h | ⟨w, h⟩
      · exact ⟨.ptr (.flat 0), fun b hb => by cases hb; exact h ▸ .ptr 0⟩
      · have hw : 0 < w := Nat.pos_of_ne_zero (by rintro rfl; exact htys a ha h)
        exact ⟨.int (0 : BitVec w), fun b hb => by cases hb; exact h ▸ .int hw 0⟩
  choose value hvalue using hvalue
  refine ⟨Function.update value i x, Function.update_self .., fun W hW j a ha => ?_⟩
  rw [hW]
  by_cases hji : j = i
  · subst hji
    obtain rfl : arg = a := by simpa [harg] using ha
    rw [Function.update_self]
    exact hx
  · rw [Function.update_of_ne hji]
    exact hvalue j a ha

theorem assumes_iff {i n : Nat} {arg : Argument} (hn : 0 < n) (harg : env.srcArgs[i]? = some arg)
    (hty : arg.ty = .int n) (htys : ∀ a ∈ env.srcArgs, a.ty ≠ .int 0) (hopen : s.code.Open)
    (hrun : (platformInit env).run s = .ok ((), s')) (v : BitVec n) (y : BitVec 64) :
    AssumesArg env s s' i v y ↔ ∃ junk, y = enforced arg.hasSExtAttr arg.hasZExtAttr v junk := by
  have hlift : ∀ rt, env.ArgsTyped rt.world → rt.world.args i = .int v → ∃ rt', s'.code.Open ∧
      s'.code.Runs ir (s.code.endCfg rt) (s'.code.endCfg rt') ∧ rt'.regs (argReg i) =
        enforced arg.hasSExtAttr arg.hasZExtAttr v
          (rt.world.junk (argOff (s.unspecifiedOff + regFileBytes) env.srcArgs i) (64 - n)) := by
    intro rt hargs hv
    obtain ⟨rt', hseg, hl, hregs⟩ := platformInit_wlp hopen hargs () s' hrun
    refine ⟨rt', hl.isOpen, hseg.runs _ (Emit.Code.Le.refl _), ?_⟩
    rw [hregs i arg harg, hv]
    rfl
  constructor
  · rintro ⟨rt, rt', hargs, hv, hruns, rfl⟩
    obtain ⟨u, ho, hruns', hu⟩ := hlift rt hargs hv
    have hst : rt' = u := ho.end_unique hruns hruns'
    exact ⟨_, hst ▸ hu⟩
  · rintro ⟨junk, rfl⟩
    obtain ⟨args, hargs, htyped⟩ := exists_args harg htys hrun (x := .int v) (hty ▸ .int hn v)
    obtain ⟨u, hu⟩ := exists_junk { World.zero with args := args }
      (argOff (s.unspecifiedOff + regFileBytes) env.srcArgs i) junk
    let W : World := { World.zero with args := args, unspec := u }
    obtain ⟨rt', _, hruns, hr⟩ := hlift (Rt.start W (fun _ => 0) fun _ => 0) (htyped W rfl) hargs
    exact ⟨_, rt', htyped W rfl, hargs, hruns, hr.trans (congrArg _ hu)⟩

/-! ## The contract -/

/-- **The contract for arguments.** Every register with which the lifted caller passes `v` is one
that the lifted callee assumes for `v`, exactly when the parameter has no attribute. -/
theorem argument_contract {env : Env} {fTy : FunctionType} {i n : Nat} {arg : Argument} (hn : 0 < n)
    (hn64 : n < 64) (hparam : fTy.params[i]? = some (.int n)) (harg : env.srcArgs[i]? = some arg)
    (hty : arg.ty = .int n) (htys : ∀ a ∈ env.srcArgs, a.ty ≠ .int 0) {s₁ s₁' s₂ s₂' : LState}
    {vs : List Value} (ho₁ : s₁.code.Open) (hcaller : (marshallArgs fTy).run s₁ = .ok (vs, s₁'))
    (ho₂ : s₂.code.Open) (hcallee : (platformInit env).run s₂ = .ok ((), s₂')) (v : BitVec n) :
    (∀ y, PassesArg s₁ s₁' vs i v y → AssumesArg env s₂ s₂' i v y) ↔
      arg.hasSExtAttr = false ∧ arg.hasZExtAttr = false := by
  simp only [passes_iff hparam ho₁ hcaller, assumes_iff hn harg hty htys ho₂ hcallee]
  cases hattr : (arg.hasSExtAttr || arg.hasZExtAttr) with
  | false =>
    have hnone : arg.hasSExtAttr = false ∧ arg.hasZExtAttr = false := by simpa using hattr
    refine iff_of_true (fun y hy => ?_) hnone
    rw [hnone.1, hnone.2]
    exact (exists_padded hn64.le v y).mpr hy
  | true =>
    simp only [exists_enforced hattr]
    refine iff_of_false (fun hall => ?_) ?_
    · -- the register with the highest bit flipped
      obtain ⟨hlow, hne⟩ := flip_high hn64
        (if arg.hasZExtAttr then v.setWidth 64 else v.signExtend 64)
      refine hne (hall _ (hlow.trans ?_))
      rw [low_extended hn64.le, BitVec.setWidth_eq, BitVec.signExtend_eq, ite_self]
    · rintro ⟨h₁, h₂⟩
      rw [h₁, h₂] at hattr
      cases hattr

/-- The contract at the second parameter of `f(ptr, i12)`, where it holds. -/
theorem argument_contract_plain :
    let env : Env := { srcArgs := [{ ty := .ptr }, { ty := .int 12 }]
                       module := .bytes "f" ⟨.void, [.ptr, .int 12]⟩ }
    let s : LState := { globals := Globals.init env.module }
    ∃ vs s₁' s₂', (marshallArgs ⟨.void, [.ptr, .int 12]⟩).run s = .ok (vs, s₁') ∧
      (platformInit env).run s = .ok ((), s₂') ∧
      ∀ y, PassesArg s s₁' vs 1 (7 : BitVec 12) y → AssumesArg env s s₂' 1 (7 : BitVec 12) y := by
  intro env s
  obtain ⟨⟨vs, s₁'⟩, h₁⟩ := ok_of_isSome
    (x := (marshallArgs ⟨.void, [.ptr, .int 12]⟩).run s) (by decide +kernel)
  obtain ⟨⟨⟨⟩, s₂'⟩, h₂⟩ := ok_of_isSome (x := (platformInit env).run s) (by decide +kernel)
  exact ⟨vs, s₁', s₂', h₁, h₂, (argument_contract (by decide) (by decide) rfl rfl rfl (by decide)
    Emit.Code.open_fresh h₁ Emit.Code.open_fresh h₂ (7 : BitVec 12)).mpr ⟨rfl, rfl⟩⟩

/-- A caller passes zero to `f(zeroext i8)` in a register with bit 63 set, which `f` rules out. -/
theorem argument_contract_zext8_fails :
    let env : Env := { srcArgs := [{ ty := .int 8, hasZExtAttr := true }]
                       module := .bytes "f" ⟨.void, [.int 8]⟩ }
    let s : LState := { globals := Globals.init env.module }
    ∃ vs s₁' s₂', (marshallArgs ⟨.void, [.int 8]⟩).run s = .ok (vs, s₁') ∧
      (platformInit env).run s = .ok ((), s₂') ∧
      PassesArg s s₁' vs 0 (0 : BitVec 8) (BitVec.intMin 64) ∧
      ¬AssumesArg env s s₂' 0 (0 : BitVec 8) (BitVec.intMin 64) := by
  intro env s
  obtain ⟨⟨vs, s₁'⟩, h₁⟩ := ok_of_isSome
    (x := (marshallArgs ⟨.void, [.int 8]⟩).run s) (by decide +kernel)
  obtain ⟨⟨⟨⟩, s₂'⟩, h₂⟩ := ok_of_isSome (x := (platformInit env).run s) (by decide +kernel)
  refine ⟨vs, s₁', s₂', h₁, h₂, ?_, ?_⟩
  · rw [passes_iff rfl Emit.Code.open_fresh h₁]
    decide
  · have harg : env.srcArgs[0]? = some { ty := .int 8, hasZExtAttr := true } := rfl
    rw [assumes_iff (by decide) harg rfl (by decide) Emit.Code.open_fresh h₂, exists_enforced rfl]
    decide

end BpfTv
