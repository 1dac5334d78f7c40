import BpfTv.Lib.Filling
import BpfTv.Lifter.ArgumentContract
import BpfTv.Lifter.FunctionRuns

/-!
# The state at the first instruction

`EntryRegs` says which registers a program may be entered with. `platformInit` makes such registers from
the arguments and the unspecified state (`InitRegs`), and any such registers for some content of the
unspecified state (`fills_initRegs`).
-/

namespace BpfTv

open Control Emit Bytes

variable {s s' : LState} {rt rt' : Rt} {env : Env} {W : World} {F : LFunction} {regs regs' : Regs}

/-! ## Registers -/

/-- The argument may arrive as `y` when it is `x`. -/
def Argument.Arrives (a : Argument) (y : BitVec 64) : RVal → Prop
  | @RVal.int _ x => ∃ junk, y = enforced a.hasSExtAttr a.hasZExtAttr x junk
  | .ptr (.flat p) => y = p
  | _ => y = 0

/-- The registers with which a program may be entered: `r10` is the frame pointer, the arguments are in
`r1`-`r5`, the rest can be anything. -/
structure EntryRegs (env : Env) (W : World) (regs : Regs) : Prop where
  frame : regs 10 = W.stackBase + BitVec.ofNat 64 stackBytes
  args : ∀ (i : Nat) (a : Argument), env.srcArgs[i]? = some a → a.Arrives (regs (argReg i)) (W.args i)

/-- The registers that `platformInit` makes. -/
structure InitRegs (env : Env) (W : World) (regs : Regs) : Prop where
  frame : regs 10 = W.stackBase + BitVec.ofNat 64 stackBytes
  args : ∀ (i : Nat) (a : Argument), env.srcArgs[i]? = some a →
    regs (argReg i) = a.reg W (argOff regFileBytes env.srcArgs i) (W.args i)
  rest : ∀ r : Fin 12, r ≠ 10 → (∀ i < env.srcArgs.length, r ≠ argReg i) → regs r = W.junk (8 * r) 64

theorem Argument.arrives_reg (a : Argument) (W : World) (off : Nat) (x : RVal) :
    a.Arrives (a.reg W off x) x := by
  cases x with
  | int x => exact ⟨_, rfl⟩
  | ptr p => cases p <;> rfl
  | _ => rfl

theorem InitRegs.entry (h : InitRegs env W regs) : EntryRegs env W regs where
  frame := h.frame
  args i a ha := h.args i a ha ▸ a.arrives_reg W _ _

theorem InitRegs.unique (h : InitRegs env W regs) (h' : InitRegs env W regs') : regs = regs' := by
  funext r
  by_cases h10 : r = 10
  · rw [h10, h.frame, h'.frame]
  by_cases harg : ∃ i < env.srcArgs.length, r = argReg i
  · obtain ⟨i, hi, rfl⟩ := harg
    rw [h.args i _ (List.getElem?_eq_getElem hi), h'.args i _ (List.getElem?_eq_getElem hi)]
  · have hne : ∀ i < env.srcArgs.length, r ≠ argReg i := fun i hi heq => harg ⟨i, hi, heq⟩
    rw [h.rest r h10 hne, h'.rest r h10 hne]

theorem argReg_val {i : Nat} (hi : i < 5) : (argReg i).val = 1 + i := Nat.mod_eq_of_lt (by omega)

/-! ## The code of `platformInit` -/

theorem argOff_last (off : Nat) (args : List Argument) {i : Nat} {a : Argument} (h : args[i]? = some a) :
    argOff off args (i + 1) = argOff off args i + a.junkBytes := by
  simp only [argOff, List.take_add_one, h, Option.toList_some, List.map_append, List.map_singleton,
    List.sum_append, List.sum_singleton, Nat.add_assoc]

theorem initArgs_frame (args : List Argument) (n : Nat) (hopen : s.code.Open)
    (hty : ∀ j a, args[j]? = some a → (rt.world.args (n + j)).HasTy a.ty) :
    (initArgs n args).wlp s rt fun _ s' rt' => s'.code.Open ∧ args.length ≤ 5 - n ∧
      s'.unspecifiedOff = argOff s.unspecifiedOff args args.length ∧ rt'.mem = rt.mem ∧ rt'.calls = rt.calls ∧
      ∀ r : Fin 12, (∀ j < args.length, r ≠ argReg (n + j)) → rt'.regs r = rt.regs r := by
  induction args generalizing n s rt with
  | nil => exact Emit.wlp_pure ⟨hopen, Nat.zero_le _, rfl, rfl, rfl, fun _ _ => rfl⟩
  | cons a rest ih =>
    by_cases h : n < 5
    · have hstep : a.ty ≠ .void → (do
          let val ← enforceSExtZExt (.arg n a.ty) a.hasSExtAttr a.hasZExtAttr
          createStore val (.regFile ⟨1 + n, by omega⟩)
          initArgs (n + 1) rest).wlp s rt fun _ s' rt' => s'.code.Open ∧ (a :: rest).length ≤ 5 - n ∧
            s'.unspecifiedOff = argOff s.unspecifiedOff (a :: rest) (a :: rest).length ∧
            rt'.mem = rt.mem ∧ rt'.calls = rt.calls ∧
            ∀ r : Fin 12, (∀ j < (a :: rest).length, r ≠ argReg (n + j)) → rt'.regs r = rt.regs r := by
        intro hne
        rw [← bind_assoc]
        refine Emit.wlp_bind (Emit.wlp_mono (initArg_wlp (r := ⟨1 + n, by omega⟩) hopen (hty 0 a rfl) hne) ?_)
        rintro _ s₁ rt₁ ⟨hw, hoff⟩
        refine Emit.wlp_mono (ih (n + 1) hw.isOpen fun j b hb => ?_) ?_
        · rw [hw.world_eq, Nat.add_assoc, Nat.add_comm 1 j]
          exact hty (j + 1) b hb
        rintro _ s₂ rt₂ ⟨ho, hlen, hoff', hmem, hcalls, hregs⟩
        refine ⟨ho, by rw [List.length_cons]; omega, ?_, hmem.trans hw.mem_eq, hcalls.trans hw.calls_eq,
          fun r hr => ?_⟩
        · rw [hoff', hoff, List.length_cons, argOff_succ]
        · rw [hregs r fun j hj => ?_, hw.regs_eq, Function.update_of_ne]
          · intro heq
            refine hr 0 (by simp) (heq.trans (Fin.ext ?_))
            rw [Nat.add_zero, argReg_val h]
          · have hne' := hr (j + 1) (by rw [List.length_cons]; omega)
            rwa [Nat.add_assoc, Nat.add_comm 1 j]
      cases hta : a.ty with
      | int w => simpa only [initArgs, hta, dif_pos h] using hstep (by simp [hta])
      | ptr => simpa only [initArgs, hta, dif_pos h] using hstep (by simp [hta])
      | _ =>
        unfold initArgs
        rw [hta]
        exact Emit.wlp_of_error rfl
    · unfold initArgs
      cases hta : a.ty with
      | int w =>
        simp only [dif_neg h]
        exact Emit.wlp_of_error rfl
      | ptr =>
        simp only [dif_neg h]
        exact Emit.wlp_of_error rfl
      | _ => exact Emit.wlp_of_error rfl

theorem clobbered_of_not_mem {rs : List (Fin 12)} {off : Nat} {r : Fin 12} (h : r ∉ rs) :
    clobbered W off (rs.map Reg.R) regs r = regs r := by
  induction rs generalizing off regs with
  | nil => rfl
  | cons q rs ih =>
    rw [List.mem_cons, not_or] at h
    exact (ih h.2).trans (Function.update_of_ne h.1 _ _)

theorem clobbered_of_mem {rs : List (Fin 12)} {off k : Nat} {r : Fin 12} (hnd : rs.Nodup)
    (hk : rs[k]? = some r) : clobbered W off (rs.map Reg.R) regs r = W.junk (off + 8 * k) 64 := by
  induction rs generalizing off regs k with
  | nil => cases hk
  | cons q rs ih =>
    obtain ⟨hq, hrs⟩ := List.nodup_cons.mp hnd
    cases k with
    | zero =>
      obtain rfl : q = r := by simpa using hk
      exact (clobbered_of_not_mem hq).trans (Function.update_self ..)
    | succ k =>
      rw [List.map_cons, clobbered, ih hrs hk]
      exact congrArg (W.junk · 64) (by omega)

theorem platformInit_frame (hopen : s.code.Open) (hoff₀ : s.unspecifiedOff = 0)
    (hty : env.ArgsTyped rt.world) : (platformInit env).wlp s rt fun _ s' rt' => s'.code.Open ∧
      env.srcArgs.length ≤ 5 ∧ s'.unspecifiedOff = argOff regFileBytes env.srcArgs env.srcArgs.length ∧
      rt'.mem = rt.mem ∧ rt'.calls = rt.calls ∧
      rt'.regs 10 = rt.world.stackBase + BitVec.ofNat 64 stackBytes ∧
      ∀ r : Fin 12, r ≠ 10 → (∀ i < env.srcArgs.length, r ≠ argReg i) →
        rt'.regs r = rt.world.junk (8 * r) 64 := by
  have hregs : (List.finRange 12).forM (fun r => createRegStorage (.R r) 64) =
      ((List.finRange 12).map Reg.R).forM fun r => invalidateReg r 64 := List.forM_map.symm
  unfold platformInit
  rw [hregs]
  refine Emit.wlp_bind (Emit.wlp_mono (invalidateAll_wlp _ hopen) ?_)
  rintro _ s₁ rt₁ ⟨he, hoff⟩
  refine Emit.wlp_bind (Emit.wlp_of_wp (wp_liftOk (unsignedConst_run (by decide) s₁) ?_))
  have hstack : s₁.Has rt₁ (.stack (0 + (BitVec.ofNat 64 stackBytes).toNat))
      (.ptr (.flat (rt₁.world.stackBase + BitVec.ofNat 64 (0 + (BitVec.ofNat 64 stackBytes).toNat)))) :=
    ⟨rfl, trivial⟩
  simp only [createGEP, pure_bind]
  refine Emit.wlp_bind (Emit.wlp_mono (storePtrReg_wlp he.isOpen hstack) ?_)
  rintro _ s₂ rt₂ ⟨hw, hoff₂⟩
  have hworld : rt₂.world = rt.world := hw.world_eq.trans he.world_eq
  refine Emit.wlp_mono (initArgs_frame env.srcArgs 0 hw.isOpen fun j a ha => ?_) ?_
  · rw [hworld, Nat.zero_add]
    exact hty j a ha
  rintro _ s₃ rt₃ ⟨ho, hlen, hoff₃, hmem, hcalls, hframe⟩
  have hoff' : s₂.unspecifiedOff = regFileBytes := by
    rw [hoff₂, hoff, hoff₀, Nat.zero_add, List.length_map, List.length_finRange]
    rfl
  refine ⟨ho, hlen, by rw [hoff₃, hoff'], hmem.trans (hw.mem_eq.trans he.mem_eq),
    hcalls.trans (hw.calls_eq.trans he.calls_eq), ?_, fun r h10 hr => ?_⟩
  · rw [hframe 10 fun j hj heq => ?_, hw.regs_eq, Function.update_self, he.world_eq]
    · rfl
    · have hval := congrArg Fin.val heq
      rw [Nat.zero_add, argReg_val (by omega)] at hval
      have h10 : (10 : Fin 12).val = 10 := rfl
      omega
  · have hget : (List.finRange 12)[r.val]? = some r := by
      rw [List.getElem?_eq_getElem (by simp), List.getElem_finRange]
      rfl
    rw [hframe r fun j hj => by rw [Nat.zero_add]; exact hr j hj, hw.regs_eq, Function.update_of_ne h10,
      he.regs_eq, hoff₀, clobbered_of_mem (List.nodup_finRange 12) hget, Nat.zero_add]

theorem init_region {r : Region} {s₁ : LState} (hty : env.ArgsTyped W)
    (h : (region none (platformInit env)).run { globals := Globals.init env.module } = .ok (r, s₁))
    (regs₀ : Fin 12 → BitVec 64) (mem : Mem) :
    s₁.unspecifiedOff = argOff regFileBytes env.srcArgs env.srcArgs.length ∧ env.srcArgs.length ≤ 5 ∧
      ∃ rt', r.Runs ir ⟨0, 0, Rt.start W regs₀ mem⟩ (r.endCfg rt') ∧ r.step ir (r.endCfg rt') = .ok none ∧
        r.term = none ∧ rt'.world = W ∧ rt'.mem = mem ∧ rt'.calls = [] ∧ InitRegs env W rt'.regs := by
  obtain ⟨hrun, rfl⟩ := region_run h
  have hty' : env.ArgsTyped (Rt.start W regs₀ mem).world := hty
  obtain ⟨rt', hseg, ho, hlen, hoff, hmem, hcalls, h10, hrest⟩ :=
    platformInit_frame Code.open_fresh rfl hty' () s₁ hrun
  obtain ⟨rt'', hseg', hl, hargs⟩ := platformInit_wlp Code.open_fresh hty' () s₁ hrun
  have hruns := hseg.runs _ (Code.Le.refl _)
  have hruns' := hseg'.runs _ (Code.Le.refl _)
  obtain rfl : rt' = rt'' := ho.end_unique hruns hruns'
  refine ⟨hoff, hlen, rt', hruns, ho.step_end rt', ho.term, hl.world_eq, hmem, hcalls, h10, fun i a ha => ?_, hrest⟩
  have hi := hargs i a ha
  rwa [Nat.zero_add] at hi

/-! ## Any registers -/

theorem fills_junk {w a : Nat} (W : World) (j : BitVec w) :
    Fills a (a + (w + 7) / 8) fun u => ({ W with unspec := u } : World).junk a w = j := by
  have hlt : j.toNat < 256 ^ ((w + 7) / 8) := by
    calc j.toNat < 2 ^ w := j.isLt
      _ ≤ 2 ^ (8 * ((w + 7) / 8)) := Nat.pow_le_pow_right (by omega) (by omega)
      _ = 256 ^ ((w + 7) / 8) := by rw [Nat.pow_mul]
  refine (fills_read hlt).mono fun u hu => ?_
  show BitVec.ofNat w (Bytes.read u (a, (w + 7) / 8)) = j
  rw [hu, BitVec.ofNat_toNat, BitVec.setWidth_eq]

theorem fills_arg {a : Argument} {x : RVal} {y : BitVec 64} {off : Nat} (hx : x.HasTy a.ty)
    (h : a.Arrives y x) :
    Fills off (off + a.junkBytes) fun u => y = a.reg { W with unspec := u } off x := by
  unfold Argument.junkBytes
  unfold Argument.Arrives at h
  generalize a.ty = t at hx
  cases hx with
  | @int w hw v =>
    obtain ⟨j, rfl⟩ := h
    simp only [Argument.reg, junkBytes]
    split
    · rename_i hattr
      refine .of_true fun u => ?_
      have hone := (exists_enforced hattr v (enforced a.hasSExtAttr a.hasZExtAttr v j)).mp ⟨j, rfl⟩
      have hany := (exists_enforced hattr v _).mp ⟨({ W with unspec := u } : World).junk off (64 - w), rfl⟩
      exact hone.trans hany.symm
    · exact (fills_junk W j).mono fun u hu => by rw [hu]
  | ptr p => exact .of_true fun _ => h
  | void => exact .of_true fun _ => h

theorem fills_args (hty : env.ArgsTyped W) (h : EntryRegs env W regs) (n : Nat) (hn : n ≤ env.srcArgs.length) :
    Fills regFileBytes (argOff regFileBytes env.srcArgs n) fun u => ∀ i < n, ∀ a, env.srcArgs[i]? = some a →
      regs (argReg i) = a.reg { W with unspec := u } (argOff regFileBytes env.srcArgs i) (W.args i) := by
  induction n with
  | zero => exact .of_true fun _ i hi => absurd hi (Nat.not_lt_zero i)
  | succ n ih =>
    have ha : env.srcArgs[n]? = some env.srcArgs[n] := List.getElem?_eq_getElem hn
    have hle : regFileBytes ≤ argOff regFileBytes env.srcArgs n := Nat.le_add_right _ _
    have hone : Fills (argOff regFileBytes env.srcArgs n) _ fun u => regs (argReg n) =
        env.srcArgs[n].reg { W with unspec := u } (argOff regFileBytes env.srcArgs n) (W.args n) :=
      fills_arg (hty n _ ha) (h.args n _ ha)
    rw [argOff_last _ _ ha]
    refine ((ih (Nat.le_of_succ_le hn)).and hone hle (Nat.le_add_right _ _)).mono fun u ⟨hprev, hlast⟩ i hi b hb => ?_
    rcases Nat.lt_succ_iff_lt_or_eq.mp hi with hi | rfl
    · exact hprev i hi b hb
    · obtain rfl : env.srcArgs[i] = b := by simpa [ha] using hb
      exact hlast

/-- **Any entry registers.** -/
theorem fills_initRegs (hty : env.ArgsTyped W) (h : EntryRegs env W regs) :
    Fills 0 (argOff regFileBytes env.srcArgs env.srcArgs.length) fun u =>
      InitRegs env { W with unspec := u } regs := by
  have hfile : Fills 0 (0 + 8 * 12) fun u => ∀ j < 12,
      ({ W with unspec := u } : World).junk (8 * j) 64 = regs (Fin.ofNat 12 j) := by
    refine Fills.row 12 fun j hj => ?_
    rw [Nat.zero_add]
    exact fills_junk (w := 64) W (regs (Fin.ofNat 12 j))
  refine (hfile.and (fills_args hty h _ (Nat.le_refl _)) (Nat.zero_le _) (Nat.le_add_right _ _)).mono
    fun u ⟨hregs, hargs⟩ => ⟨h.frame, fun i a ha => ?_, fun r _ _ => ?_⟩
  · exact hargs i (List.getElem?_eq_some_iff.mp ha).1 a ha
  · rw [hregs r r.isLt]
    exact congrArg regs (Fin.ext (Nat.mod_eq_of_lt r.isLt).symm)

end BpfTv
