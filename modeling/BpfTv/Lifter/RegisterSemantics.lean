import BpfTv.Lifter.BuilderSpec
import BpfTv.Bpf.Isa

/-!
# Register semantics

The IR that `lift` writes for a register instruction computes what RFC 9669 says, and the condition
of a conditional jump is the one of RFC 9669 (`register_semantics`). One lemma for each shape of
`lift`, on top of the specifications of the `create*` functions; `Writes` says that nothing but the
destination changes.
-/

namespace BpfTv

variable {α : Type} {s s₁ s₂ : LState} {rt rt₁ rt₂ : Rt} {v : Value} {I : MCInst} {w : Width}
  {src : Src}

/-! ## Operands -/

/-- Operand `idx` is `op`. -/
abbrev MCInst.HasOp (I : MCInst) (idx : Nat) (op : MCOperand) : Prop := I.operands[idx]? = some op

theorem MCInst.HasOp.get {idx : Nat} {op : MCOperand} (h : I.HasOp idx op) :
    I.getOperand idx = .ok op := by
  rw [MCInst.getOperand, h]

theorem getRegOperand_run {idx : Nat} {r : Reg} (h : I.HasOp idx (.reg r)) (s : LState) :
    (getRegOperand I idx).run s = .ok (r, s) := by
  simp only [getRegOperand, StateT.run_bind, h.get]
  rfl

/-- `readRegOperand64` or `readRegOperand32`. -/
def readRegOperand (w : Width) (I : MCInst) (idx : Nat) : LiftM Value :=
  match w with
  | .w64 => readRegOperand64 I idx
  | .w32 => readRegOperand32 I idx

/-- `updateReg64` or `updateReg32`. -/
def updateReg (w : Width) (V : Value) (r : Reg) : LiftM Unit :=
  match w with
  | .w64 => updateReg64 V r
  | .w32 => updateReg32 V r

@[simp] theorem mapReg_reg (w : Width) (r : Fin 12) : (w.reg r).mapRegToBackingReg = r := by
  cases w <;> rfl

theorem readReg64_computes (hopen : s.code.Open) (r : Reg) :
    Computes (readReg64 r) s rt (.int (rt.regs r.mapRegToBackingReg)) (.int 64) :=
  loadReg_computes hopen _

theorem readReg32_computes (hopen : s.code.Open) (r : Reg) :
    Computes (readReg32 r) s rt (.int ((rt.regs r.mapRegToBackingReg).setWidth 32)) (.int 32) :=
  (readReg64_computes hopen r).then fun _ _ _ hv ht q => trunc_computes q.isOpen ht hv (by decide)

theorem bind_run_computes {m : LiftM α} {a : α} {f : α → LiftM Value} {x : RVal} {t : Ty}
    (hm : m.run s = .ok (a, s)) (h : Computes (f a) s rt x t) : Computes (m >>= f) s rt x t :=
  Emit.wp_bind (wp_liftOk hm h)

theorem readRegOperand_computes {idx : Nat} {r : Reg} (hopen : s.code.Open)
    (h : I.HasOp idx (.reg r)) (w : Width) :
    Computes (readRegOperand w I idx) s rt
      (.int ((rt.regs r.mapRegToBackingReg).setWidth w.bits)) (.int w.bits) := by
  cases w with
  | w64 =>
    show Computes _ s rt (.int ((rt.regs r.mapRegToBackingReg).setWidth 64)) (.int 64)
    rw [BitVec.setWidth_eq]
    exact bind_run_computes (getRegOperand_run h s) (readReg64_computes hopen r)
  | w32 => exact bind_run_computes (getRegOperand_run h s) (readReg32_computes hopen r)

theorem readImmOperand_computes {idx bits : Nat} {c : Int} (hopen : s.code.Open)
    (h : I.HasOp idx (.imm c)) (hc : -2 ^ (bits - 1) ≤ c ∧ c < 2 ^ (bits - 1)) :
    Computes (readImmOperand I idx bits) s rt (.int (BitVec.ofInt bits c)) (.int bits) := by
  have hop : (liftExcept (I.getOperand idx)).run s = .ok (.imm c, s) := by
    rw [h.get]
    rfl
  exact bind_run_computes hop (signedConst_computes hopen hc)

theorem toInt_range (v : BitVec 32) (w : Width) :
    -2 ^ (w.bits - 1) ≤ v.toInt ∧ v.toInt < 2 ^ (w.bits - 1) := by
  have h₁ : -2 ^ (32 - 1) ≤ v.toInt := BitVec.le_toInt v
  have h₂ : v.toInt < 2 ^ (32 - 1) := BitVec.toInt_lt
  cases w with
  | w32 => exact ⟨h₁, h₂⟩
  | w64 => exact ⟨le_trans (by decide) h₁, lt_trans h₂ (by decide)⟩

theorem ofInt_toInt_signExtend {n : Nat} (v : BitVec n) (w : Nat) :
    BitVec.ofInt w v.toInt = v.signExtend w := rfl

theorem readALUSrcOperand_computes {idx : Nat} (hopen : s.code.Open)
    (h : I.HasOp idx (src.operand w)) :
    Computes (readALUSrcOperand I idx w.bits) s rt (.int (src.value rt.regs w.bits))
      (.int w.bits) := by
  have hop : (liftExcept (I.getOperand idx)).run s = .ok (src.operand w, s) := by
    rw [h.get]
    rfl
  refine bind_run_computes hop ?_
  cases src with
  | imm c => exact readImmOperand_computes hopen h (toInt_range c w)
  | reg r =>
    cases w with
    | w32 => exact readReg32_computes hopen (.W r)
    | w64 =>
      show Computes _ s rt (.int ((rt.regs r).setWidth 64)) (.int 64)
      rw [BitVec.setWidth_eq]
      exact readReg64_computes hopen (.R r)

/-! ## Results -/

/-- The destination is set to `x`, everything else is as before. -/
structure Writes (s : LState) (rt : Rt) (dst : Fin 12) (x : BitVec 64) (s' : LState) (rt' : Rt) :
    Prop extends Later s rt s' rt' where
  regs_eq : rt'.regs = Function.update rt.regs dst x
  mem_eq : rt'.mem = rt.mem
  calls_eq : rt'.calls = rt.calls

theorem Quiet.writes {dst : Fin 12} {x : BitVec 64} (h : Quiet s rt s₁ rt₁)
    (h' : Writes s₁ rt₁ dst x s₂ rt₂) : Writes s rt dst x s₂ rt₂ where
  toLater := h.toLater.trans h'.toLater
  regs_eq := by rw [h'.regs_eq, h.regs_eq]
  mem_eq := h'.mem_eq.trans h.mem_eq
  calls_eq := h'.calls_eq.trans h.calls_eq

theorem Quiet.writes_wp {dst : Fin 12} {x : BitVec 64} {m : LiftM α} (h : Quiet s rt s₁ rt₁)
    (hm : m.wp s₁ rt₁ fun _ => Writes s₁ rt₁ dst x) : m.wp s₁ rt₁ fun _ => Writes s rt dst x :=
  Emit.wp_mono hm fun _ _ _ hw => h.writes hw

theorem updateReg64_wp {x : BitVec 64} {r : Reg} (hopen : s.code.Open) (hv : s.Has rt v (.int x))
    (ht : v.ty = .int 64) :
    (updateReg64 v r).wp s rt fun _ => Writes s rt r.mapRegToBackingReg x :=
  wp_assert (bitWidth_int ht) (storeReg_wp hopen hv fun _ _ _ _ hl => ⟨hl, rfl, rfl, rfl⟩)

theorem updateReg32_wp {x : BitVec 32} {r : Reg} (hopen : s.code.Open) (hv : s.Has rt v (.int x))
    (ht : v.ty = .int 32) :
    (updateReg32 v r).wp s rt fun _ => Writes s rt r.mapRegToBackingReg (x.setWidth 64) := by
  refine wp_assert (bitWidth_int ht) ((zext_computes hopen ht hv (by decide)).bind ?_)
  exact fun z s₁ rt₁ hz htz q => q.writes_wp (updateReg64_wp q.isOpen hz htz)

theorem updateReg_wp {x : BitVec w.bits} {r : Reg} (hopen : s.code.Open) (hv : s.Has rt v (.int x))
    (ht : v.ty = .int w.bits) :
    (updateReg w v r).wp s rt fun _ => Writes s rt r.mapRegToBackingReg (x.setWidth 64) := by
  cases w with
  | w32 => exact updateReg32_wp hopen hv ht
  | w64 =>
    have hx : BitVec.setWidth 64 x = x := BitVec.setWidth_eq x
    rw [hx]
    exact updateReg64_wp hopen hv ht

/-- The common shape of the two-operand operations. -/
def twoOp (w : Width) (I : MCInst) (f : Value → Value → LiftM Value) : LiftM Unit := do
  let a ← readRegOperand w I 1
  let b ← readALUSrcOperand I 2 w.bits
  let v ← f a b
  updateReg w v (← getRegOperand I 0)

/-- `f` computes `g` on every pair of operands. -/
def Implements (w : Width) (f : Value → Value → LiftM Value)
    (g : BitVec w.bits → BitVec w.bits → BitVec w.bits) : Prop :=
  ∀ (s : LState) (rt : Rt) (a b : Value) (x y : BitVec w.bits), s.code.Open →
    a.ty = .int w.bits → b.ty = .int w.bits → s.Has rt a (.int x) → s.Has rt b (.int y) →
    Computes (f a b) s rt (.int (g x y)) (.int w.bits)

theorem twoOp_wp {dst : Fin 12} {f : Value → Value → LiftM Value}
    {g : BitVec w.bits → BitVec w.bits → BitVec w.bits} (hf : Implements w f g)
    (hopen : s.code.Open) (h0 : I.HasOp 0 (.reg (w.reg dst))) (h1 : I.HasOp 1 (.reg (w.reg dst)))
    (h2 : I.HasOp 2 (src.operand w)) :
    (twoOp w I f).wp s rt fun _ => Writes s rt dst
      ((g ((rt.regs dst).setWidth w.bits) (src.value rt.regs w.bits)).setWidth 64) := by
  refine (readRegOperand_computes hopen h1 w).bind fun a s₁ rt₁ ha hta q₁ => ?_
  refine (readALUSrcOperand_computes q₁.isOpen h2).bind fun b s₂ rt₂ hb htb q₂ => ?_
  refine (hf s₂ rt₂ a b _ _ q₂.isOpen hta htb (ha.later q₂.toLater) hb).bind
    fun v s₃ rt₃ hv htv q₃ => ?_
  refine Emit.wp_bind (wp_liftOk (getRegOperand_run h0 s₃) ?_)
  have hu := ((q₁.trans q₂).trans q₃).writes_wp (updateReg_wp (r := w.reg dst) q₃.isOpen hv htv)
  rw [mapReg_reg, q₁.regs_eq] at hu
  exact hu

/-! ## The operations -/

/-- What `lift` builds for a two-operand operation. -/
def AluOp.build (w : Width) (op : AluOp) (a b : Value) : LiftM Value :=
  match op with
  | add => createBinop a b .add
  | sub => createBinop a b .sub
  | mul => createBinop a b .mul
  | or => createBinop a b .or
  | and => createBinop a b .and
  | xor => createBinop a b .xor
  | lsh => createMaskedShl a b
  | rsh => createMaskedLShr a b
  | arsh => createMaskedAShr a b
  | div => do createCheckedUDiv a b (← zeroConst w.bits a)
  | mod => do createCheckedURem a b (← pure a)
  | sdiv => do createCheckedSDiv a b (← zeroConst w.bits a) (← pure a)
  | smod => do createCheckedSRem a b (← pure a) (← zeroConst w.bits a)
  | mov => pure b

theorem lift_alu (env : Env) (op : AluOp) (hop : op ≠ .mov) (w : Width) (dst : Fin 12) (src : Src) :
    lift env (RegInsn.alu op w dst src).mc =
      twoOp w (RegInsn.alu op w dst src).mc (op.build w) := by
  cases op <;> first
    | exact absurd rfl hop
    | (cases w <;> cases src <;> rfl)

theorem width_pos (w : Width) : 0 < w.bits := by cases w <;> decide

/-- The mask of a shift amount is its remainder by the width. -/
theorem mask_eq (w : Width) (y : BitVec w.bits) :
    (BitVec.ofNat w.bits (w.bits - 1) &&& y).toNat = y.toNat % w.bits := by
  rw [BitVec.and_comm, BitVec.toNat_and, BitVec.toNat_ofNat]
  cases w with
  | w32 => exact Nat.and_two_pow_sub_one_eq_mod y.toNat 5
  | w64 => exact Nat.and_two_pow_sub_one_eq_mod y.toNat 6

theorem shift_implements {o : BinOp} {g : BitVec w.bits → BitVec w.bits → BitVec w.bits}
    (hg : ∀ x y m : BitVec w.bits, m.toNat = y.toNat % w.bits → o.eval x m = .ok (g x y)) :
    Implements w (createMasked o) g := fun _ _ _ _ x y hopen hta htb ha hb =>
  masked_computes hopen hta htb ha hb (hg x y _ (mask_eq w y))

theorem mask_lt {n : Nat} (w : Width) {y m : BitVec n} (h : m.toNat = y.toNat % w.bits) :
    m.toNat < w.bits := by
  rw [h]
  exact Nat.mod_lt _ (width_pos w)

theorem udiv_spec {n : Nat} (x y : BitVec n) : BitVec.ofNat n (x.toNat / y.toNat) = x / y := by
  apply BitVec.eq_of_toNat_eq
  rw [BitVec.toNat_ofNat, BitVec.toNat_udiv]
  exact Nat.mod_eq_of_lt (lt_of_le_of_lt (Nat.div_le_self _ _) x.isLt)

theorem umod_spec {n : Nat} (x y : BitVec n) : BitVec.ofNat n (x.toNat % y.toNat) = x % y := by
  apply BitVec.eq_of_toNat_eq
  rw [BitVec.toNat_ofNat, BitVec.toNat_umod]
  exact Nat.mod_eq_of_lt (lt_of_le_of_lt (Nat.mod_le _ _) x.isLt)

theorem sdiv_spec {n : Nat} (x y : BitVec n) : BitVec.ofInt n (x.toInt.tdiv y.toInt) = x.sdiv y := by
  apply BitVec.eq_of_toInt_eq
  rw [BitVec.toInt_ofInt, BitVec.toInt_sdiv]

theorem srem_spec {n : Nat} (x y : BitVec n) : BitVec.ofInt n (x.toInt.tmod y.toInt) = x.srem y := by
  rw [← BitVec.toInt_srem, BitVec.ofInt_toInt]

theorem allOnes_ne_zero (w : Width) : BitVec.allOnes w.bits ≠ 0 := by cases w <;> decide

theorem intMin_sdiv_allOnes (w : Width) :
    (BitVec.intMin w.bits).sdiv (BitVec.allOnes w.bits) = BitVec.intMin w.bits := by
  cases w <;> decide

theorem intMin_srem_allOnes (w : Width) :
    (BitVec.intMin w.bits).srem (BitVec.allOnes w.bits) = 0 := by
  cases w <;> decide

theorem zeroConst_run (w : Width) (a : Value) (s : LState) :
    (zeroConst w.bits a).run s = .ok (.const w.bits (BitVec.ofNat w.bits 0), s) :=
  unsignedConst_run (Nat.two_pow_pos _) s

/-- Every operation is built correctly. -/
theorem build_implements (w : Width) (op : AluOp) (hop : op ≠ .mov) :
    Implements w (op.build w) op.eval := by
  cases op with
  | mov => exact absurd rfl hop
  | add => exact fun _ _ _ _ _ _ hopen hta _ ha hb => binop_computes hopen hta ha hb rfl
  | sub => exact fun _ _ _ _ _ _ hopen hta _ ha hb => binop_computes hopen hta ha hb rfl
  | mul => exact fun _ _ _ _ _ _ hopen hta _ ha hb => binop_computes hopen hta ha hb rfl
  | or => exact fun _ _ _ _ _ _ hopen hta _ ha hb => binop_computes hopen hta ha hb rfl
  | and => exact fun _ _ _ _ _ _ hopen hta _ ha hb => binop_computes hopen hta ha hb rfl
  | xor => exact fun _ _ _ _ _ _ hopen hta _ ha hb => binop_computes hopen hta ha hb rfl
  | lsh =>
    refine shift_implements fun x y m hm => ?_
    rw [BinOp.eval, if_pos (mask_lt w hm), hm, AluOp.eval]
  | rsh =>
    refine shift_implements fun x y m hm => ?_
    rw [BinOp.eval, if_pos (mask_lt w hm), hm, AluOp.eval]
  | arsh =>
    refine shift_implements fun x y m hm => ?_
    rw [BinOp.eval, if_pos (mask_lt w hm), hm, AluOp.eval]
  | div =>
    intro s rt a b x y hopen hta htb ha hb
    refine bind_run_computes (zeroConst_run w a s) ?_
    refine checkedUnsigned_computes hopen hta htb ha hb (has_const s rt _) (fun hy => ?_) fun hy => ?_
    · rw [AluOp.eval, if_pos hy]
      rfl
    · rw [AluOp.eval, if_neg hy, udiv_spec, BinOp.eval, if_neg hy]
  | mod =>
    intro s rt a b x y hopen hta htb ha hb
    refine checkedUnsigned_computes hopen hta htb ha hb ha (fun hy => ?_) fun hy => ?_
    · rw [AluOp.eval, if_pos hy]
    · rw [AluOp.eval, if_neg hy, umod_spec, BinOp.eval, if_neg hy]
  | sdiv =>
    intro s rt a b x y hopen hta htb ha hb
    refine bind_run_computes (zeroConst_run w a s) ?_
    refine checkedSigned_computes hopen hta htb ha hb (has_const s rt _) ha (fun hy => ?_)
      (fun hx hy => ?_) fun hy hov => ?_
    · rw [AluOp.eval, if_pos hy]
      rfl
    · rw [AluOp.eval, if_neg (hy ▸ allOnes_ne_zero w), sdiv_spec, hx, hy, intMin_sdiv_allOnes]
    · rw [AluOp.eval, if_neg hy, sdiv_spec, BinOp.eval, if_neg (not_or.mpr ⟨hy, hov⟩)]
  | smod =>
    intro s rt a b x y hopen hta htb ha hb
    show Computes (zeroConst w.bits a >>= fun z => createCheckedSRem a b a z) s rt _ _
    refine bind_run_computes (zeroConst_run w a s) ?_
    refine checkedSigned_computes hopen hta htb ha hb ha (has_const s rt _) (fun hy => ?_)
      (fun hx hy => ?_) fun hy hov => ?_
    · rw [AluOp.eval, if_pos hy]
    · rw [AluOp.eval, if_neg (hy ▸ allOnes_ne_zero w), srem_spec, hx, hy, intMin_srem_allOnes]
      rfl
    · rw [AluOp.eval, if_neg hy, srem_spec, BinOp.eval, if_neg (not_or.mpr ⟨hy, hov⟩)]

/-! ## Moves, negation and byte swaps -/

theorem set_dst_wp {m : LiftM Value} {dst : Fin 12} {x : BitVec w.bits}
    (hm : Computes m s rt (.int x) (.int w.bits)) (h0 : I.HasOp 0 (.reg (w.reg dst))) :
    (do updateReg w (← m) (← getRegOperand I 0)).wp s rt fun _ =>
      Writes s rt dst (x.setWidth 64) := by
  refine hm.bind fun v s₁ rt₁ hv htv q => ?_
  refine Emit.wp_bind (wp_liftOk (getRegOperand_run h0 s₁) ?_)
  have hu := q.writes_wp (updateReg_wp (r := w.reg dst) q.isOpen hv htv)
  rwa [mapReg_reg] at hu

theorem neg_spec {n : Nat} (x : BitVec n) : BitVec.ofNat n 0 - x = -x := by
  simp

theorem neg_wp {dst : Fin 12} (w : Width) (hopen : s.code.Open) (h0 : I.HasOp 0 (.reg (w.reg dst)))
    (h1 : I.HasOp 1 (.reg (w.reg dst))) :
    (neg I w.bits).wp s rt fun _ =>
      Writes s rt dst ((-(rt.regs dst).setWidth w.bits).setWidth 64) := by
  have hm : Computes (do
      let v ← readRegOperand w I 1
      let z ← getUnsignedIntConst 0 w.bits
      createSub z v) s rt (.int (-(rt.regs dst).setWidth w.bits)) (.int w.bits) := by
    refine (readRegOperand_computes hopen h1 w).then fun v s₁ rt₁ hv htv q => ?_
    refine bind_run_computes (unsignedConst_run (Nat.two_pow_pos _) s₁) ?_
    rw [mapReg_reg] at hv
    rw [← neg_spec]
    exact binop_computes q.isOpen rfl (has_const s₁ rt₁ _) hv rfl
  have hset := set_dst_wp hm h0
  simp only [bind_assoc] at hset
  cases w <;> exact hset

theorem truncSext_computes {m : LiftM Value} {x : BitVec 64} {n : Nat} (bits : Nat) (w : Width)
    (hm : Computes m s rt (.int (x.setWidth n)) (.int n)) (hn : bits ≤ n) (hb : bits < w.bits) :
    Computes (do
      let v ← createTrunc (← m) bits
      createSExt v w.bits) s rt (.int ((x.setWidth bits).signExtend w.bits)) (.int w.bits) := by
  refine hm.then fun u s₁ rt₁ hu htu q₁ => ?_
  refine (trunc_computes q₁.isOpen htu hu hn).then fun v s₂ rt₂ hv htv q₂ => ?_
  rw [BitVec.setWidth_setWidth_of_le _ hn] at hv
  exact sext_computes q₂.isOpen htv hv hb

theorem movsx_wp (op : MovsxOp) (dst src : Fin 12) (env : Env) (hopen : s.code.Open) :
    (lift env (RegInsn.movsx op dst src).mc).wp s rt fun _ => Writes s rt dst
      ((((rt.regs src).setWidth op.bits).signExtend op.width.bits).setWidth 64) := by
  have h0 : (RegInsn.movsx op dst src).mc.HasOp 0 (.reg (op.width.reg dst)) := rfl
  have h1 : (RegInsn.movsx op dst src).mc.HasOp 1 (.reg (op.srcWidth.reg src)) := rfl
  have hread : Computes _ s rt _ _ := readRegOperand_computes hopen h1 op.srcWidth
  rw [mapReg_reg] at hread
  cases op with
  | w64b32 =>
    have hm : Computes _ s rt _ (.int Width.w64.bits) := hread.then fun u s₁ rt₁ hu htu q₁ =>
      sext_computes q₁.isOpen htu hu (by decide)
    have hset := set_dst_wp hm h0
    simp only [bind_assoc] at hset
    exact hset
  | w64b8 | w32b8 =>
    have hset := set_dst_wp (truncSext_computes 8 _ hread (by decide) (by decide)) h0
    simp only [bind_assoc] at hset
    exact hset
  | w64b16 | w32b16 =>
    have hset := set_dst_wp (truncSext_computes 16 _ hread (by decide) (by decide)) h0
    simp only [bind_assoc] at hset
    exact hset

/-! ### Byte swaps -/

theorem byteAt_div (x i : Nat) : Bytes.byteAt (x / 256) i = Bytes.byteAt x (i + 1) := by
  simp only [Bytes.byteAt, Nat.pow_succ', Nat.div_div_eq_div_mul]

theorem swapBytes_eq_leNat (n x : Nat) :
    swapBytes n x = Bytes.leNat (fun i => Bytes.byteAt x (n - 1 - i)) n := by
  induction n generalizing x with
  | zero => rfl
  | succ n ih =>
    have hlow : ∀ i < n, Bytes.byteAt (x / 256) (n - 1 - i) = Bytes.byteAt x (n + 1 - 1 - i) := by
      intro i hi
      rw [byteAt_div]
      congr 1
      omega
    have htop : (Bytes.byteAt x (n + 1 - 1 - n)).toNat = x % 256 := by
      rw [show n + 1 - 1 - n = 0 by omega]
      simp [Bytes.byteAt]
    rw [swapBytes, ih, Bytes.leNat_congr hlow, Bytes.leNat_succ_top, htop]
    ring

theorem swapBytes_mod (n x : Nat) : swapBytes n (x % 256 ^ n) = swapBytes n x := by
  induction n generalizing x with
  | zero => rfl
  | succ n ih =>
    have hdiv : x % 256 ^ (n + 1) / 256 = x / 256 % 256 ^ n := by
      rw [Nat.pow_succ', Nat.mod_mul_right_div_self]
    have hmod : x % 256 ^ (n + 1) % 256 = x % 256 :=
      Nat.mod_mod_of_dvd x (Dvd.intro_left (256 ^ n) rfl)
    rw [swapBytes, swapBytes, hdiv, hmod, ih]

theorem bswap_spec (op : EndOp) (hop : op.swaps = true) (x : BitVec 64) :
    (bswap (x.setWidth (8 * op.bytes))).setWidth 64 = op.eval x := by
  have hdiv : 8 * op.bytes / 8 = op.bytes := Nat.mul_div_cancel_left _ (by decide)
  have hpow : 2 ^ (8 * op.bytes) = 256 ^ op.bytes := by rw [Nat.pow_mul]
  have hlt : swapBytes op.bytes x.toNat < 2 ^ (8 * op.bytes) := by
    rw [swapBytes_eq_leNat, hpow]
    exact Bytes.leNat_lt _ _
  have hle : 2 ^ (8 * op.bytes) ≤ 2 ^ 64 := by cases op <;> decide
  apply BitVec.eq_of_toNat_eq
  rw [EndOp.eval, if_pos hop, BitVec.toNat_setWidth, bswap, hdiv, ← swapBytes_eq_leNat,
    BitVec.toNat_setWidth, hpow, swapBytes_mod, BitVec.toNat_ofNat, BitVec.toNat_ofNat,
    Nat.mod_eq_of_lt hlt]

theorem trunc_spec (op : EndOp) (hop : op.swaps = false) (x : BitVec 64) :
    (x.setWidth (8 * op.bytes)).setWidth 64 = op.eval x := by
  have hpow : 2 ^ (8 * op.bytes) = 256 ^ op.bytes := by rw [Nat.pow_mul]
  apply BitVec.eq_of_toNat_eq
  rw [EndOp.eval, if_neg (by rw [hop]; decide), BitVec.toNat_setWidth, BitVec.toNat_setWidth, hpow,
    BitVec.toNat_ofNat]

theorem truncIf_computes {n m : Nat} {x : BitVec m} (hn : n ≤ m) (hopen : s.code.Open)
    (ht : v.ty = .int m) (hv : s.Has rt v (.int x)) :
    Computes (if n < m then createTrunc v n else pure v) s rt (.int (x.setWidth n)) (.int n) := by
  by_cases h : n < m
  · rw [if_pos h]
    exact trunc_computes hopen ht hv hn
  · obtain rfl : n = m := by omega
    rw [if_neg h, BitVec.setWidth_eq]
    exact Computes.pure hopen hv ht

theorem zextIf_computes {n m : Nat} {x : BitVec n} (hn : n ≤ m) (hopen : s.code.Open)
    (ht : v.ty = .int n) (hv : s.Has rt v (.int x)) :
    Computes (if n < m then createZExt v m else pure v) s rt (.int (x.setWidth m)) (.int m) := by
  by_cases h : n < m
  · rw [if_pos h]
    exact zext_computes hopen ht hv h
  · obtain rfl : n = m := by omega
    rw [if_neg h, BitVec.setWidth_eq]
    exact Computes.pure hopen hv ht

theorem swapIf_computes {n : Nat} {x : BitVec n} (swap : Bool) (hopen : s.code.Open)
    (ht : v.ty = .int n) (hv : s.Has rt v (.int x)) :
    Computes (if swap then createBSwap v else pure v) s rt (.int (if swap then bswap x else x))
      (.int n) := by
  cases swap with
  | true => exact bswap_computes hopen ht hv
  | false => exact Computes.pure hopen hv ht

theorem endian_wp (op : EndOp) {dst : Fin 12} (hopen : s.code.Open)
    (h0 : I.HasOp 0 (.reg (.R dst))) (h1 : I.HasOp 1 (.reg (.R dst))) :
    (endian I (8 * op.bytes) op.swaps).wp s rt fun _ => Writes s rt dst (op.eval (rt.regs dst)) := by
  have hle : 8 * op.bytes ≤ 64 := by cases op <;> decide
  have hspec : BitVec.setWidth 64 (if op.swaps then bswap ((rt.regs dst).setWidth (8 * op.bytes))
      else (rt.regs dst).setWidth (8 * op.bytes)) = op.eval (rt.regs dst) := by
    cases h : op.swaps with
    | true => exact bswap_spec op h _
    | false => exact trunc_spec op h _
  refine (readRegOperand_computes hopen h1 .w64).bind fun v₁ s₁ rt₁ hv₁ ht₁ q₁ => ?_
  have hx : BitVec.setWidth Width.w64.bits (rt.regs (Reg.R dst).mapRegToBackingReg) = rt.regs dst :=
    BitVec.setWidth_eq _
  rw [hx] at hv₁
  refine (truncIf_computes hle q₁.isOpen ht₁ hv₁).bind fun v₂ s₂ rt₂ hv₂ ht₂ q₂ => ?_
  refine (swapIf_computes op.swaps q₂.isOpen ht₂ hv₂).bind fun v₃ s₃ rt₃ hv₃ ht₃ q₃ => ?_
  refine (zextIf_computes hle q₃.isOpen ht₃ hv₃).bind fun v₄ s₄ rt₄ hv₄ ht₄ q₄ => ?_
  rw [hspec] at hv₄
  refine Emit.wp_bind (wp_liftOk (getRegOperand_run h0 s₄) ?_)
  exact (((q₁.trans q₂).trans q₃).trans q₄).writes_wp (updateReg64_wp q₄.isOpen hv₄ ht₄)

/-! ## The register instructions -/

theorem mov_wp (env : Env) (w : Width) (dst : Fin 12) (src : Src) (hopen : s.code.Open) :
    (lift env (RegInsn.alu .mov w dst src).mc).wp s rt fun _ =>
      Writes s rt dst ((src.value rt.regs w.bits).setWidth 64) := by
  have h0 : (RegInsn.alu .mov w dst src).mc.HasOp 0 (.reg (w.reg dst)) := rfl
  have h1 : (RegInsn.alu .mov w dst src).mc.HasOp 1 (src.operand w) := rfl
  cases src with
  | reg r =>
    have hread : Computes _ s rt _ _ := readRegOperand_computes hopen h1 w
    rw [mapReg_reg] at hread
    have hset := set_dst_wp hread h0
    cases w <;> exact hset
  | imm c =>
    have hread : Computes _ s rt _ _ := readImmOperand_computes hopen h1 (toInt_range c w)
    have hset := set_dst_wp hread h0
    cases w <;> exact hset

theorem regInsn_wp (env : Env) (i : RegInsn) (hopen : s.code.Open) (rt : Rt) :
    (lift env i.mc).wp s rt fun _ => Writes s rt i.dst (i.result rt.regs) := by
  cases i with
  | alu op w dst src =>
    by_cases hop : op = .mov
    · subst hop
      exact mov_wp env w dst src hopen
    · rw [lift_alu env op hop w dst src]
      have hmc : (RegInsn.alu op w dst src).mc.operands =
          [.reg (w.reg dst), .reg (w.reg dst), src.operand w] := by
        cases op <;> first | rfl | exact absurd rfl hop
      refine twoOp_wp (build_implements w op hop) hopen ?_ ?_ ?_ <;> rw [MCInst.HasOp, hmc] <;> rfl
  | neg w dst =>
    have h0 : (RegInsn.neg w dst).mc.HasOp 0 (.reg (w.reg dst)) := rfl
    have h1 : (RegInsn.neg w dst).mc.HasOp 1 (.reg (w.reg dst)) := rfl
    cases w <;> exact neg_wp _ hopen h0 h1
  | movsx op dst src => exact movsx_wp op dst src env hopen
  | mov32_64 dst src =>
    have h0 : (RegInsn.mov32_64 dst src).mc.HasOp 0 (.reg (Width.w64.reg dst)) := rfl
    have h1 : (RegInsn.mov32_64 dst src).mc.HasOp 1 (.reg (.W src)) := rfl
    refine (readRegOperand_computes hopen h1 .w32).bind fun v s₁ rt₁ hv htv q => ?_
    refine Emit.wp_bind (wp_liftOk (getRegOperand_run h0 s₁) ?_)
    exact q.writes_wp (updateReg32_wp q.isOpen hv htv)
  | endian op dst =>
    have h0 : (RegInsn.endian op dst).mc.HasOp 0 (.reg (.R dst)) := rfl
    have h1 : (RegInsn.endian op dst).mc.HasOp 1 (.reg (.R dst)) := rfl
    have hlift : lift env (RegInsn.endian op dst).mc =
        endian (RegInsn.endian op dst).mc (8 * op.bytes) op.swaps := by
      cases op <;> rfl
    rw [hlift]
    exact endian_wp op hopen h0 h1
  | ldImm64 dst v =>
    have hlift : lift env (RegInsn.ldImm64 dst v).mc = (do
        let x ← getUnsignedIntConst (BitVec.ofInt 64 v.toInt).toNat 64
        let r ← getRegOperand (RegInsn.ldImm64 dst v).mc 0
        updateReg64 x r) := rfl
    rw [hlift, BitVec.ofInt_toInt]
    have hc : Computes _ s rt _ _ := unsignedConst_computes hopen v.isLt
    rw [BitVec.ofNat_toNat, BitVec.setWidth_eq] at hc
    refine hc.bind fun u s₁ rt₁ hu htu q => ?_
    refine Emit.wp_bind (wp_liftOk (getRegOperand_run (r := .R dst) rfl s₁) ?_)
    exact q.writes_wp (updateReg64_wp q.isOpen hu htu)

/-! ## Conditional jumps -/

/-- The comparison that `lift` makes. -/
def JmpOp.pred? : JmpOp → Option Pred
  | eq => some .eq
  | ne => some .ne
  | ugt => some .ugt
  | uge => some .uge
  | ult => some .ult
  | ule => some .ule
  | sgt => some .sgt
  | sge => some .sge
  | slt => some .slt
  | sle => some .sle
  | set => none

theorem pred_spec {n : Nat} {op : JmpOp} {p : Pred} (hp : op.pred? = some p) (x y : BitVec n) :
    p.eval x y = op.eval x y := by
  have heq : (x == y) = decide (x.toNat = y.toNat) := by
    rw [beq_eq_decide]
    exact decide_eq_decide.mpr BitVec.toNat_inj.symm
  cases op <;> cases hp
  case eq => exact heq
  case ne =>
    show (!(x == y)) = decide (x.toNat ≠ y.toNat)
    rw [heq, ← decide_not]
  all_goals simp [Pred.eval, JmpOp.eval, BitVec.ult, BitVec.ule, BitVec.slt, BitVec.sle]

theorem set_spec {n : Nat} (x y : BitVec n) :
    Pred.ne.eval (x &&& y) (BitVec.ofNat n 0) = JmpOp.set.eval x y := by
  show (!((x &&& y) == BitVec.ofNat n 0)) = decide (x.toNat &&& y.toNat ≠ 0)
  rw [beq_eq_decide, ← decide_not, ← BitVec.toNat_and]
  refine decide_eq_decide.mpr (not_congr ?_)
  rw [← BitVec.toNat_inj]
  simp

/-- The condition of a jump. -/
def JmpOp.cond (op : JmpOp) (w : Width) (I : MCInst) : LiftM Value := do
  let a ← readRegOperand w I 0
  let b ← readALUSrcOperand I 1 w.bits
  match op.pred? with
  | some p => createICmp p a b
  | none => do
    let c ← createAnd a b
    let z ← getUnsignedIntConst 0 w.bits
    createICmp .ne c z

theorem lift_jmp_eq (env : Env) (j : JmpInsn) : lift env j.mc = (do
    let c ← j.op.cond j.w j.mc
    let tf ← liftExcept (getBranchTargetsOperand env j.mc 2)
    createCondBranch c (.bb tf.1) (.bb tf.2)) := by
  obtain ⟨op, w, dst, src, target⟩ := j
  simp only [JmpOp.cond, bind_assoc]
  cases op <;> cases w <;> cases src <;> first | rfl | (simp only [JmpOp.pred?, bind_assoc]; rfl)

theorem cond_computes (j : JmpInsn) (hopen : s.code.Open) (rt : Rt) :
    Computes (j.op.cond j.w j.mc) s rt (.int (BitVec.ofBool (j.taken rt.regs))) (.int 1) := by
  obtain ⟨op, w, dst, src, target⟩ := j
  have h0 : (JmpInsn.mk op w dst src target).mc.HasOp 0 (.reg (w.reg dst)) := rfl
  have h1 : (JmpInsn.mk op w dst src target).mc.HasOp 1 (src.operand w) := rfl
  refine (readRegOperand_computes hopen h0 w).then fun a s₁ rt₁ ha hta q₁ => ?_
  refine (readALUSrcOperand_computes q₁.isOpen h1).then fun b s₂ rt₂ hb htb q₂ => ?_
  have ha₂ := ha.later q₂.toLater
  rw [mapReg_reg] at ha₂
  rw [q₁.regs_eq] at hb
  show Computes _ s₂ rt₂ (.int (BitVec.ofBool (op.eval ((rt.regs dst).setWidth w.bits)
    (src.value rt.regs w.bits)))) (.int 1)
  cases hp : op.pred? with
  | some p =>
    rw [← pred_spec hp]
    exact icmp_computes q₂.isOpen hta ha₂ hb
  | none =>
    obtain rfl : op = .set := by cases op <;> first | rfl | cases hp
    rw [← set_spec]
    refine (binop_computes q₂.isOpen hta ha₂ hb rfl).then fun c s₃ rt₃ hc htc q₃ => ?_
    refine bind_run_computes (unsignedConst_run (Nat.two_pow_pos _) s₃) ?_
    exact icmp_computes q₃.isOpen htc hc (has_const s₃ rt₃ _)

theorem jmpInsn_lift (env : Env) (j : JmpInsn) (hopen : s.code.Open)
    (hacc : (lift env j.mc).run s = .ok ((), s₁)) (rt : Rt) :
    ∃ rt' c tf, Emit.Code.Seg ir s.code rt s₁.code rt' ∧
      getBranchTargetsOperand env j.mc 2 = .ok tf ∧
      s₁.code.term = some (.condBr c (.bb tf.1) (.bb tf.2)) ∧
      c.eval rt' = .ok (.int (BitVec.ofBool (j.taken rt.regs))) ∧
      rt'.regs = rt.regs ∧ rt'.mem = rt.mem ∧ rt'.calls = rt.calls := by
  obtain ⟨c, s₂, rt₂, hrun, hseg, hc, _, q⟩ := cond_computes j hopen rt
  rw [lift_jmp_eq, StateT.run_bind, hrun] at hacc
  cases htf : getBranchTargetsOperand env j.mc 2 with
  | error e =>
    rw [htf] at hacc
    cases hacc
  | ok tf =>
    rw [htf] at hacc
    have hterm := terminate_run q.isOpen (.condBr c (.bb tf.1) (.bb tf.2))
    have hacc' : (terminate (.condBr c (.bb tf.1) (.bb tf.2))).run s₂ = .ok ((), s₁) := hacc
    rw [hterm] at hacc'
    cases hacc'
    exact ⟨rt₂, c, tf, hseg.trans (Emit.Code.Seg.close q.isOpen _), rfl,
      Emit.Code.Open.term_close q.isOpen _, hc.eval, q.regs_eq, q.mem_eq, q.calls_eq⟩

/-- **Register semantics.** The code of a register instruction runs to its end without undefined
behaviour or poison and leaves the register file of RFC 9669; nothing else changes. The code of a
conditional jump that is lifted ends in a branch on the condition of RFC 9669. -/
theorem register_semantics (env : Env) (s : LState) (hopen : s.code.Open) (rt : Rt) :
    (∀ i : RegInsn, ∃ s' rt', (lift env i.mc).run s = .ok ((), s') ∧ s'.code.Open ∧
      (∀ n, ∃ x, s'.code.run ir n (s.code.endCfg rt) = .ok x) ∧
      s'.code.Runs ir (s.code.endCfg rt) (s'.code.endCfg rt') ∧
      rt'.regs = i.exec rt.regs ∧ rt'.mem = rt.mem ∧ rt'.calls = rt.calls) ∧
    (∀ (j : JmpInsn) (s' : LState), (lift env j.mc).run s = .ok ((), s') → ∃ rt' c tf,
      getBranchTargetsOperand env j.mc 2 = .ok tf ∧
      s'.code.term = some (.condBr c (.bb tf.1) (.bb tf.2)) ∧
      (∀ n, ∃ x, s'.code.run ir n (s.code.endCfg rt) = .ok x) ∧
      s'.code.Runs ir (s.code.endCfg rt) (s'.code.endCfg rt') ∧
      c.eval rt' = .ok (.int (BitVec.ofBool (j.taken rt.regs))) ∧
      rt'.regs = rt.regs ∧ rt'.mem = rt.mem ∧ rt'.calls = rt.calls) := by
  refine ⟨fun i => ?_, fun j s' hacc => ?_⟩
  · obtain ⟨_, s', rt', hrun, hseg, hw⟩ := regInsn_wp env i hopen rt
    have hruns := hseg.runs _ (Emit.Code.Le.refl _)
    exact ⟨s', rt', hrun, hw.isOpen, hruns.safe (hw.isOpen.step_end rt'), hruns, hw.regs_eq,
      hw.mem_eq, hw.calls_eq⟩
  · obtain ⟨rt', c, tf, hseg, htf, hterm, hc, hregs, hmem, hcalls⟩ := jmpInsn_lift env j hopen hacc rt
    have hruns := hseg.runs _ (Emit.Code.Le.refl _)
    have hleave : ir.jump (.condBr c (.bb tf.1) (.bb tf.2)) rt' = .ok none := by
      have hj := condBr_jump (t := .bb tf.1) (f := .bb tf.2) hc
      rwa [show (if j.taken rt.regs then (Target.bb tf.1).local? else (Target.bb tf.2).local?) = none
        from ite_self none] at hj
    exact ⟨rt', c, tf, htf, hterm, hruns.safe (Emit.Code.step_leave hterm hleave), hruns, hc, hregs,
      hmem, hcalls⟩

/-- The signed division of the smallest number by minus one, in an empty function. -/
theorem register_semantics_sdiv :
    let env : Env := { module := .bytes "f" ⟨.int 64, []⟩ }
    let s : LState := { globals := Globals.init env.module }
    let rt := Rt.start World.zero (fun _ => BitVec.intMin 64) fun _ => 0
    ∃ s' rt', (lift env (RegInsn.alu .sdiv .w64 1 (.imm (-1))).mc).run s = .ok ((), s') ∧
      s'.code.Runs ir (s.code.endCfg rt) (s'.code.endCfg rt') ∧ rt'.regs 1 = BitVec.intMin 64 := by
  intro env s rt
  obtain ⟨s', rt', hrun, _, _, hruns, hregs, _⟩ :=
    (register_semantics env s Emit.Code.open_fresh rt).1 (.alu .sdiv .w64 1 (.imm (-1)))
  exact ⟨s', rt', hrun, hruns, by rw [hregs]; decide⟩

end BpfTv
