import BpfTv.Lifter.CallSemantics

/-!
# The contract for return values

A function with `zeroext` or `signext` on its result has to extend it, and callers rely on that.
The obligation is checked in two places: `adjustSrc` makes the source function return the extended
value, and `doReturn` looks at `r0`. Callers assume what `enforceSExtZExt` computes. The two agree
for results without attributes and for results of more than 32 bits; for narrower ones `doReturn`
looks at the low 32 bits only (`return_contract`).
-/

namespace BpfTv

variable {s s₁ s₂ s' : LState} {rt rt₁ rt' : Rt} {v : Value} {x : RVal} {env : Env}

/-! ## The source function -/

/-- The return type that `adjustSrc` gives the source function, and what it records about the
original one. -/
def adjustSrc (env : Env) (origRetTy : Ty) (sext zext : Bool) : Except LiftError Env :=
  match origRetTy with
  | .int _ | .ptr | .void =>
    let origRetWidth := origRetTy.bitWidth
    if 64 < origRetWidth then
      throw (.exit "ERROR: Scalar return values larger than 64 bits are not supported")
    else
      let has_ret_attr := sext || zext
      let actualRetTy : Ty :=
        if has_ret_attr && origRetWidth ≠ 32 && origRetWidth ≠ 64 then .int 64 else origRetTy
      return { env with srcRetTy := actualRetTy, origRetWidth, has_ret_attr }
  | _ => throw (.exit ("ERROR: Unsupported Function Return Type: Only int, ptr, vec, " ++
      "float, and void supported for now"))

/-- What a return of the source function returns now. -/
def adjustReturn (env : Env) (zext : Bool) (retVal : Value) : LiftM Value :=
  if env.has_ret_attr && env.origRetWidth ≠ 32 && env.origRetWidth ≠ 64 then
    if zext then
      createZExt retVal 64
    else if env.origRetWidth < 32 then do
      let sext ← createSExt retVal 32
      createZExt sext 64
    else
      createSExt retVal 64
  else
    return retVal

/-! ## What the three parties see -/

/-- The source function returns `x` where the original one returned `v`. -/
def SourceReturns (env : Env) (zext : Bool) {n : Nat} (v : BitVec n) (x : RVal) : Prop :=
  ∀ s rt V, s.code.Open → V.ty = .int n → s.Has rt V (.int v) →
    (adjustReturn env zext V).wp s rt fun u s' rt' => s'.code.Open ∧ u.eval rt' = .ok x

/-- With `y` in `r0`, the lifted function returns `x`. -/
def Returned (env : Env) (y : BitVec 64) (x : RVal) : Prop :=
  ∀ s rt, s.code.Open → rt.regs 0 = y → (doReturn env).wp s rt fun _ s' rt' =>
    ∃ u, s'.code.term = some (.ret (some u)) ∧ u.eval rt' = .ok x

/-- The check of the callee accepts `y` in `r0` for `v`. -/
def AcceptsReturn (env : Env) (zext : Bool) {n : Nat} (v : BitVec n) (y : BitVec 64) : Prop :=
  ∃ x, SourceReturns env zext v x ∧ Returned env y x

/-- After the lifted call, whose code goes from `s` to `s'`, `r0` may be `y` when the callee
returned `v`. -/
def AllowsReturn (c : CallSite) (s s' : LState) {n : Nat} (v : BitVec n) (y : BitVec 64) : Prop :=
  ∃ rt rt', (c.result rt).1 = .int v ∧
    s'.code.Runs ir (s.code.endCfg rt) (s'.code.endCfg rt') ∧ rt'.regs 0 = y

/-! ## The callee -/

/-- The returns of the source function are rewritten. -/
abbrev Env.Rewrites (env : Env) : Prop :=
  (env.has_ret_attr && env.origRetWidth ≠ 32 && env.origRetWidth ≠ 64) = true

theorem Computes.returns {m : LiftM Value} {t : Ty} (h : Computes m s rt x t) :
    m.wp s rt fun u s' rt' => s'.code.Open ∧ u.eval rt' = .ok x :=
  Emit.wp_mono h fun _ _ _ ⟨hu, _, q⟩ => ⟨q.isOpen, hu.eval⟩

theorem source_kept {zext : Bool} {n : Nat} (v : BitVec n) (h : ¬env.Rewrites) :
    SourceReturns env zext v (.int v) := by
  intro s rt V hopen ht hV
  rw [adjustReturn, if_neg h]
  exact (Computes.pure hopen hV ht).returns

theorem source_zext {n : Nat} (hn : n < 64) (v : BitVec n) (h : env.Rewrites) :
    SourceReturns env true v (.int (v.setWidth 64)) := by
  intro s rt V hopen ht hV
  rw [adjustReturn, if_pos h, if_pos rfl]
  exact (zext_computes hopen ht hV hn).returns

theorem source_sext {n : Nat} (hn : n < 64) (v : BitVec n) (h : env.Rewrites)
    (hw : env.origRetWidth = n) : SourceReturns env false v
      (.int (if n < 32 then (v.signExtend 32).setWidth 64 else v.signExtend 64)) := by
  intro s rt V hopen ht hV
  rw [adjustReturn, if_pos h, if_neg Bool.false_ne_true, hw]
  by_cases h32 : n < 32
  · rw [if_pos h32, if_pos h32]
    exact ((sext_computes hopen ht hV h32).then fun u s₁ rt₁ hu htu q =>
      zext_computes q.isOpen htu hu (by decide)).returns
  · rw [if_neg h32, if_neg h32]
    exact (sext_computes hopen ht hV hn).returns

/-- The source function returns one value for each value of the original one. -/
theorem SourceReturns.unique {zext : Bool} {n : Nat} {v : BitVec n} {x' : RVal}
    (h : SourceReturns env zext v x) (h' : SourceReturns env zext v x') : x = x' := by
  let s : LState := { globals := Globals.init env.module }
  let rt : Rt := Rt.start World.zero (fun _ => 0) fun _ => 0
  have hV : s.Has rt (.const n v) (.int v) := has_const s rt v
  obtain ⟨u, s', rt', ⟨_, h₁⟩, _, h₂⟩ := Emit.wp_inter
    (h s rt _ Emit.Code.open_fresh rfl hV) (h' s rt _ Emit.Code.open_fresh rfl hV)
    (fun _ _ _ hq => hq.1.step_end _) (fun _ _ _ hq => hq.1.step_end _)
  rw [h₁] at h₂
  cases h₂
  rfl

theorem returned_of_computes {y : BitVec 64} {m : LiftM Value} {t : Ty}
    (hm : doReturn env = m >>= fun u => createReturn (some u))
    (h : ∀ s rt, s.code.Open → rt.regs 0 = y → Computes m s rt x t) : Returned env y x := by
  intro s rt hopen hy
  rw [hm]
  refine (h s rt hopen hy).bind fun u s₁ rt₁ hu _ q => ?_
  exact Emit.wp_close q.isOpen (terminate_run q.isOpen _) rfl
    ⟨u, q.isOpen.term_close _, hu.eval⟩

theorem doReturn_int {w : Nat} (h : env.srcRetTy = .int w) : doReturn env = (do
    let retVal ← readReg64 (.R 0)
    let retVal ← (if w < retVal.bitWidth then createTrunc retVal w else pure retVal : LiftM Value)
    maskRet env w retVal) >>= fun u => createReturn (some u) := by
  unfold doReturn
  rw [h]
  simp only [bind_assoc]
  rfl

theorem truncRet_computes {w : Nat} {f : Value → LiftM Value} {t : Ty} (hw : w ≤ 64)
    (hopen : s.code.Open) (hf : ∀ u s₁ rt₁, s₁.Has rt₁ u (.int ((rt.regs 0).setWidth w)) →
      u.ty = .int w → Quiet s rt s₁ rt₁ → Computes (f u) s₁ rt₁ x t) :
    Computes (do
      let retVal ← readReg64 (.R 0)
      let retVal ← (if w < retVal.bitWidth then createTrunc retVal w else pure retVal : LiftM Value)
      f retVal) s rt x t := by
  refine (readReg64_computes hopen (.R 0)).then fun r s₁ rt₁ hr htr q₁ => ?_
  rw [bitWidth_int htr]
  refine (truncIf_computes hw q₁.isOpen htr hr).then fun u s₂ rt₂ hu htu q₂ => ?_
  exact hf u s₂ rt₂ hu htu (q₁.trans q₂)

theorem returned_plain {w : Nat} (hw : w ≤ 64) (h : env.srcRetTy = .int w)
    (hmask : (env.has_ret_attr && env.origRetWidth < 32) = false) (y : BitVec 64) :
    Returned env y (.int (y.setWidth w)) := by
  refine returned_of_computes (t := .int w) (doReturn_int h) fun s rt hopen hy => ?_
  refine truncRet_computes hw hopen fun u s₁ rt₁ hu htu q => ?_
  rw [maskRet, hmask, if_neg Bool.false_ne_true, ← hy]
  exact Computes.pure q.isOpen hu htu

theorem returned_masked (h : env.srcRetTy = .int 64) (hattr : env.has_ret_attr = true)
    (hlt : env.origRetWidth < 32) (y : BitVec 64) :
    Returned env y (.int ((y.setWidth 32).setWidth 64)) := by
  refine returned_of_computes (t := .int 64) (doReturn_int h) fun s rt hopen hy => ?_
  refine truncRet_computes (Nat.le_refl 64) hopen fun u s₁ rt₁ hu htu q => ?_
  have hmask : (env.has_ret_attr && env.origRetWidth < 32) = true := by simp [hattr, hlt]
  rw [BitVec.setWidth_eq, hy] at hu
  rw [maskRet, if_pos hmask]
  refine wp_assert (by omega) (wp_assert rfl ?_)
  exact (trunc_computes q.isOpen htu hu (by decide)).then fun a s₂ rt₂ ha hta q₂ =>
    zext_computes q₂.isOpen hta ha (by decide)

theorem Returned.unique {y : BitVec 64} {x' : RVal} (h : Returned env y x) (h' : Returned env y x') :
    x = x' := by
  let s : LState := { globals := Globals.init env.module }
  let rt : Rt := Rt.start World.zero (fun _ => y) fun _ => 0
  obtain ⟨_, s', rt', ⟨u, ht, hu⟩, u', ht', hu'⟩ := Emit.wp_inter
    (h s rt Emit.Code.open_fresh rfl) (h' s rt Emit.Code.open_fresh rfl)
    (fun _ _ _ ⟨_, ht, _⟩ => Emit.Code.step_leave ht rfl)
    (fun _ _ _ ⟨_, ht, _⟩ => Emit.Code.step_leave ht rfl)
  obtain rfl : u = u' := by
    rw [ht] at ht'
    cases ht'
    rfl
  rw [hu] at hu'
  cases hu'
  rfl

theorem accepts_iff {zext : Bool} {n : Nat} {v : BitVec n} {y : BitVec 64} {x' : RVal}
    (h : SourceReturns env zext v x) (h' : Returned env y x') : AcceptsReturn env zext v y ↔ x = x' := by
  constructor
  · rintro ⟨x'', h₁, h₂⟩
    rw [h.unique h₁, h'.unique h₂]
  · rintro rfl
    exact ⟨x, h, h'⟩

theorem int_eq_iff {w : Nat} (a b : BitVec w) : RVal.int a = RVal.int b ↔ a = b := by
  simp

theorem adjustSrc_int {env₀ : Env} {n : Nat} {sext zext : Bool}
    (h : adjustSrc env₀ (.int n) sext zext = .ok env) : n ≤ 64 ∧ env.origRetWidth = n ∧
      env.has_ret_attr = (sext || zext) ∧ env.srcRetTy = if env.Rewrites then .int 64 else .int n := by
  unfold adjustSrc at h
  by_cases hn : 64 < (Ty.int n).bitWidth
  · simp only [if_pos hn] at h
    cases h
  · simp only [if_neg hn] at h
    cases h
    exact ⟨Nat.not_lt.mp hn, rfl, rfl, rfl⟩

section accepts

variable {env₀ : Env} {n : Nat} {sext zext : Bool} (v : BitVec n) (y : BitVec 64)
  (h : adjustSrc env₀ (.int n) sext zext = .ok env)
include h

theorem rewrites_iff : env.Rewrites ↔ (sext || zext) = true ∧ n ≠ 32 ∧ n ≠ 64 := by
  obtain ⟨_, hwidth, hattr, _⟩ := adjustSrc_int h
  simp only [Env.Rewrites, hattr, hwidth, Bool.and_eq_true, decide_eq_true_eq, and_assoc]

theorem accepts_kept (hattr : (sext || zext) = true → n = 32 ∨ n = 64) :
    AcceptsReturn env zext v y ↔ y.setWidth n = v := by
  obtain ⟨hn, hwidth, ha, hty⟩ := adjustSrc_int h
  have hr : ¬env.Rewrites := by
    rw [rewrites_iff h]
    rintro ⟨h₁, h₂, h₃⟩
    rcases hattr h₁ with h' | h'
    · exact h₂ h'
    · exact h₃ h'
  have hmask : (env.has_ret_attr && env.origRetWidth < 32) = false := by
    rw [ha, hwidth]
    cases hb : (sext || zext) with
    | false => rfl
    | true =>
      have := hattr hb
      exact decide_eq_false (by omega)
  rw [if_neg hr] at hty
  rw [accepts_iff (source_kept v hr) (returned_plain hn hty hmask y), int_eq_iff, eq_comm]

theorem source_rewritten (hattr : (sext || zext) = true) (h32 : n ≠ 32) (h64 : n ≠ 64) :
    env.srcRetTy = .int 64 ∧ SourceReturns env zext v (.int (if zext then v.setWidth 64 else
      if n < 32 then (v.signExtend 32).setWidth 64 else v.signExtend 64)) := by
  obtain ⟨hn, hwidth, ha, hty⟩ := adjustSrc_int h
  have hr : env.Rewrites := (rewrites_iff h).mpr ⟨hattr, h32, h64⟩
  rw [if_pos hr] at hty
  refine ⟨hty, ?_⟩
  cases zext with
  | true => exact source_zext (by omega) v hr
  | false => exact source_sext (by omega) v hr hwidth

/-- Below 32 bits, the check looks at the low 32 bits of `r0`. -/
theorem accepts_narrow (hattr : (sext || zext) = true) (hlt : n < 32) :
    AcceptsReturn env zext v y ↔
      y.setWidth 32 = if zext then v.setWidth 32 else v.signExtend 32 := by
  obtain ⟨_, hwidth, ha, _⟩ := adjustSrc_int h
  obtain ⟨hty, hsrc⟩ := source_rewritten v h hattr (by omega) (by omega)
  rw [accepts_iff hsrc (returned_masked hty (ha.trans hattr) (hwidth ▸ hlt) y), if_pos hlt]
  have hinj : ∀ a b : BitVec 32, a.setWidth 64 = b.setWidth 64 → b = a := by
    intro a b hab
    have hab' := congrArg (BitVec.setWidth 32) hab
    rwa [BitVec.setWidth_setWidth_of_le _ (by decide), BitVec.setWidth_setWidth_of_le _ (by decide),
      BitVec.setWidth_eq, BitVec.setWidth_eq, eq_comm] at hab'
  have hz : v.setWidth 64 = (v.setWidth 32).setWidth 64 :=
    (BitVec.setWidth_setWidth (by omega)).symm
  rw [hz, ← apply_ite (BitVec.setWidth 64), int_eq_iff]
  exact ⟨hinj _ _, fun he => by rw [he]⟩

/-- From 33 bits on, the check looks at all of `r0`. -/
theorem accepts_wide (hattr : (sext || zext) = true) (hlt : 32 < n) (h64 : n ≠ 64) :
    AcceptsReturn env zext v y ↔ y = if zext then v.setWidth 64 else v.signExtend 64 := by
  obtain ⟨_, hwidth, _, _⟩ := adjustSrc_int h
  obtain ⟨hty, hsrc⟩ := source_rewritten v h hattr (by omega) h64
  have hmask : (env.has_ret_attr && env.origRetWidth < 32) = false := by
    rw [hwidth, decide_eq_false (Nat.lt_asymm hlt), Bool.and_false]
  have hret := returned_plain (Nat.le_refl 64) hty hmask y
  rw [BitVec.setWidth_eq] at hret
  rw [accepts_iff hsrc hret, if_neg (Nat.lt_asymm hlt), int_eq_iff, eq_comm]

end accepts

/-! ## The caller -/

theorem exists_call (off : Nat) {w : Nat} (j : BitVec w) (x : RVal) : ∃ W : World,
    W.junk off w = j ∧ ∀ callee xs m, W.callee callee xs m = (x, m) := by
  obtain ⟨u, hu⟩ := exists_junk { World.zero with callee := fun _ _ m => (x, m) } off j
  exact ⟨_, hu, fun _ _ _ => rfl⟩

theorem allows_iff {c : CallSite} {n : Nat} (hn : 0 < n) (hret : c.ty.ret = .int n)
    (hopen : s.code.Open) (hrun : c.lift.run s = .ok ((), s')) (v : BitVec n) (y : BitVec 64) :
    AllowsReturn c s s' v y ↔ ∃ junk, y = enforced c.sext c.zext v junk := by
  have hlift : ∀ rt, (c.result rt).1 = .int v → ∃ rt', s'.code.Open ∧
      s'.code.Runs ir (s.code.endCfg rt) (s'.code.endCfg rt') ∧
      rt'.regs 0 = enforced c.sext c.zext v (rt.world.junk s.unspecifiedOff (64 - n)) := by
    intro rt hres
    have hty : c.WellTyped rt := by
      rw [CallSite.WellTyped, hres, hret]
      exact .int hn v
    obtain ⟨rt', hseg, hafter, _⟩ := callSite_wlp c hopen hty () s' hrun
    refine ⟨rt', hafter.isOpen, hseg.runs _ (Emit.Code.Le.refl _), ?_⟩
    rw [hafter.frame.result, hres]
    rfl
  constructor
  · rintro ⟨rt, rt', hres, hruns, rfl⟩
    obtain ⟨u, ho, hruns', hu⟩ := hlift rt hres
    have hst : rt' = u := ho.end_unique hruns hruns'
    exact ⟨_, hst ▸ hu⟩
  · rintro ⟨junk, rfl⟩
    obtain ⟨W, hW, hcallee⟩ := exists_call s.unspecifiedOff junk (.int v)
    have hres : (c.result (Rt.start W (fun _ => 0) fun _ => 0)).1 = .int v := by
      rw [CallSite.result, Rt.result]
      exact congrArg Prod.fst (hcallee _ _ _)
    obtain ⟨rt', _, hruns, hr⟩ := hlift _ hres
    exact ⟨_, rt', hres, hruns, hr.trans (congrArg _ hW)⟩

/-! ## The contract -/

/-- **The contract for return values.** Every `r0` that the check of the callee accepts for `v` is one
that the lifted call allows, exactly when the result has no attribute or more than 32 bits. -/
theorem return_contract {env₀ env : Env} {n : Nat} {sext zext : Bool} (hn : 0 < n)
    (hadj : adjustSrc env₀ (.int n) sext zext = .ok env) {c : CallSite} (hret : c.ty.ret = .int n)
    (hsext : c.sext = sext) (hzext : c.zext = zext) {s s' : LState} (hopen : s.code.Open)
    (hrun : c.lift.run s = .ok ((), s')) (v : BitVec n) :
    (∀ y, AcceptsReturn env zext v y → AllowsReturn c s s' v y) ↔
      (sext || zext) = false ∨ 32 < n := by
  have hn64 := (adjustSrc_int hadj).1
  simp only [allows_iff hn hret hopen hrun, hsext, hzext]
  cases hattr : (sext || zext) with
  | false =>
    obtain ⟨rfl, rfl⟩ : sext = false ∧ zext = false := by simpa using hattr
    refine iff_of_true (fun y hy => ?_) (Or.inl rfl)
    rw [accepts_kept v y hadj nofun] at hy
    exact (exists_padded hn64 v y).mpr hy
  | true =>
    simp only [exists_enforced hattr, Bool.true_eq_false, false_or]
    rcases Nat.lt_or_ge 32 n with hlt | hle
    · refine iff_of_true (fun y hy => ?_) hlt
      by_cases h64 : n = 64
      · subst h64
        rw [accepts_kept v y hadj fun _ => Or.inr rfl, BitVec.setWidth_eq] at hy
        rw [BitVec.setWidth_eq, BitVec.signExtend_eq, ite_self, hy]
      · exact (accepts_wide v y hadj hattr hlt h64).mp hy
    · refine iff_of_false (fun hall => ?_) (Nat.not_lt.mpr hle)
      -- the register with the highest bit flipped
      obtain ⟨hlow, hne⟩ := flip_high (n := 32) (by decide) (if zext then v.setWidth 64 else v.signExtend 64)
      refine hne (hall _ ?_)
      rw [low_extended (by decide)] at hlow
      rcases Nat.lt_or_eq_of_le hle with hlt | rfl
      · exact (accepts_narrow v _ hadj hattr hlt).mpr hlow
      · refine (accepts_kept v _ hadj fun _ => Or.inl rfl).mpr ?_
        rw [hlow, BitVec.setWidth_eq, BitVec.signExtend_eq, ite_self]

/-- The contract at a result of 33 bits with `signext`, where it holds. -/
theorem return_contract_sext33 :
    let env₀ : Env := { module := .bytes "g" ⟨.void, []⟩ }
    let f : Function := { name := "f", ty := ⟨.int 33, []⟩, retSExt := true }
    let c : CallSite := .call f ⟨some f, false, false, false, false⟩ "f"
    let s : LState := { globals := Globals.init env₀.module }
    ∃ env s', adjustSrc env₀ (.int 33) true false = .ok env ∧ c.lift.run s = .ok ((), s') ∧
      ∀ y, AcceptsReturn env false (5 : BitVec 33) y → AllowsReturn c s s' (5 : BitVec 33) y := by
  intro env₀ f c s
  obtain ⟨⟨⟨⟩, s'⟩, hrun⟩ := ok_of_isSome (x := c.lift.run s) (by decide +kernel)
  obtain ⟨env, henv⟩ := ok_of_isSome (x := adjustSrc env₀ (.int 33) true false) (by decide)
  exact ⟨env, s', henv, hrun, (return_contract (by decide) henv rfl rfl rfl Emit.Code.open_fresh hrun
    (5 : BitVec 33)).mpr (Or.inr (by decide))⟩

/-- `zeroext i32 f()`. -/
def zext32 : Function := { name := "f", ty := ⟨.int 32, []⟩, retZExt := true }

/-- A `zeroext i32` function may return zero with bit 63 of `r0` set, which its callers rule out. -/
theorem return_contract_zext32_fails :
    let env₀ : Env := { module := .bytes "g" ⟨.void, []⟩ }
    let c : CallSite := .call zext32 ⟨some zext32, false, false, false, false⟩ "f"
    let s : LState := { globals := Globals.init env₀.module }
    ∃ env s', adjustSrc env₀ (.int 32) false true = .ok env ∧ c.lift.run s = .ok ((), s') ∧
      AcceptsReturn env true (0 : BitVec 32) (BitVec.intMin 64) ∧
      ¬AllowsReturn c s s' (0 : BitVec 32) (BitVec.intMin 64) := by
  intro env₀ c s
  obtain ⟨⟨⟨⟩, s'⟩, hrun⟩ := ok_of_isSome (x := c.lift.run s) (by decide +kernel)
  obtain ⟨env, henv⟩ := ok_of_isSome (x := adjustSrc env₀ (.int 32) false true) (by decide)
  refine ⟨env, s', henv, hrun, ?_, ?_⟩
  · exact (accepts_kept (0 : BitVec 32) _ henv fun _ => Or.inl rfl).mpr (by decide)
  · rw [allows_iff (by decide) rfl Emit.Code.open_fresh hrun, exists_enforced rfl]
    decide

end BpfTv
