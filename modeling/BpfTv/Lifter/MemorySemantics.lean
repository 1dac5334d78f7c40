import BpfTv.Bpf.Memory
import BpfTv.Lifter.RegisterSemantics

/-!
# Memory semantics

The IR that `lift` writes for a load, a store or a store of an immediate accesses the bytes that
RFC 9669 says and nothing else (`memory_semantics`). The address is computed by
`getMemPointerOperand`; one lemma for each of the three shapes of `lift`.
-/

namespace BpfTv

variable {α : Type} {s s₁ s₂ : LState} {rt rt₁ rt₂ : Rt} {v p : Value} {I : MCInst} {a : BitVec 64}

/-! ## Accesses -/

theorem gep_computes {c : BitVec 64} (hopen : s.code.Open) (hp : s.Has rt p (.ptr (.flat a))) :
    Computes (createGEP p (.const 64 c)) s rt (.ptr (.flat (a + c))) .ptr := by
  have hexec : Instr.exec ⟨s.next, .gep p (.const 64 c)⟩ rt =
      .ok (rt.set s.next (.ptr (.flat (a + c)))) := by
    simp only [Instr.exec, hp.evalPtr, (has_const s rt c).evalInt]
    rfl
  cases p with
  | unspec off => cases hp.eval
  | stack off =>
    have ha : rt.world.stackBase + BitVec.ofNat 64 off = a := by
      have h := hp.eval
      simp only [Value.eval, Except.ok.injEq, RVal.ptr.injEq, Ptr.flat.injEq] at h
      exact h
    refine Emit.wp_pure ⟨⟨?_, trivial⟩, rfl, Quiet.refl hopen⟩
    rw [Value.eval, ← ha, BitVec.ofNat_add, BitVec.ofNat_toNat, BitVec.setWidth_eq, BitVec.add_assoc]
  | _ => exact emit_computes hopen hexec

theorem loadMem_computes (w : Nat) (hopen : s.code.Open) (hp : s.Has rt p (.ptr (.flat a))) :
    Computes (createLoad (.int w) p) s rt (.int (loadMem rt.mem a w)) (.int w) := by
  refine emit_computes hopen ?_
  simp only [Instr.exec, hp.evalPtr]
  rfl

theorem getMemPointerOperand_computes {idx : Nat} {base : Fin 12} {off : BitVec 16}
    (hopen : s.code.Open) (hb : I.HasOp idx (.reg (.R base)))
    (ho : I.HasOp (idx + 1) (.imm off.toInt)) :
    Computes (getMemPointerOperand I idx) s rt
      (.ptr (.flat (rt.regs base + off.signExtend 64))) .ptr := by
  have hrange : -2 ^ (64 - 1) ≤ off.toInt ∧ off.toInt < 2 ^ (64 - 1) :=
    ⟨le_trans (by decide) (BitVec.le_toInt off), lt_trans BitVec.toInt_lt (by decide)⟩
  have himm : ∀ s₁ : LState, (readImmOperand I (idx + 1) 64).run s₁ =
      .ok (.const 64 (off.signExtend 64), s₁) := by
    intro s₁
    have hop : (liftExcept (I.getOperand (idx + 1))).run s₁ = .ok (.imm off.toInt, s₁) := by
      rw [ho.get]
      rfl
    rw [readImmOperand, StateT.run_bind, hop]
    exact signedConst_run hrange s₁
  unfold getMemPointerOperand
  refine Computes.then (bind_run_computes (getRegOperand_run hb s) (loadPtrReg_computes hopen base)) ?_
  intro p s₁ rt₁ hp _ q
  exact bind_run_computes (himm s₁) (gep_computes q.isOpen hp)

/-- Memory is changed to `m`, everything else is as before. -/
structure Stores (s : LState) (rt : Rt) (m : Mem) (s' : LState) (rt' : Rt) : Prop extends
    Later s rt s' rt' where
  regs_eq : rt'.regs = rt.regs
  mem_eq : rt'.mem = m
  calls_eq : rt'.calls = rt.calls

theorem storeMem_wp {w : Nat} {x : BitVec w} (hopen : s.code.Open) (hv : s.Has rt v (.int x))
    (hp : s.Has rt p (.ptr (.flat a))) :
    (createStore v p).wp s rt fun _ => Stores s rt (storeMem rt.mem a x) := by
  have hexec : Instr.exec ⟨s.next, .store v p⟩ rt = .ok { rt with mem := storeMem rt.mem a x } := by
    simp only [Instr.exec, hv.eval, hp.evalPtr]
    rfl
  unfold createStore
  refine Emit.wp_bind (emit_wp hopen hexec (Emit.wp_pure ?_))
  exact ⟨⟨hopen.push _, Nat.le_succ _, fun _ _ => rfl, fun _ _ => rfl, rfl⟩, rfl, rfl, rfl⟩

theorem Quiet.stores {m : Mem} (h : Quiet s rt s₁ rt₁) (h' : Stores s₁ rt₁ m s₂ rt₂) :
    Stores s rt m s₂ rt₂ :=
  ⟨h.toLater.trans h'.toLater, h'.regs_eq.trans h.regs_eq, h'.mem_eq, h'.calls_eq.trans h.calls_eq⟩

theorem Quiet.stores_wp {m : Mem} {f : LiftM α} (h : Quiet s rt s₁ rt₁)
    (hm : f.wp s₁ rt₁ fun _ => Stores s₁ rt₁ m) : f.wp s₁ rt₁ fun _ => Stores s rt m :=
  Emit.wp_mono hm fun _ _ _ hw => h.stores hw

/-! ## Bytes -/

theorem bytes_eq (n : Nat) : (8 * n + 7) / 8 = n := by omega

theorem loadMem_eq (mem : Mem) (a : BitVec 64) (n : Nat) :
    loadMem mem a (8 * n) = BitVec.ofNat (8 * n) (readBytes mem a n) := by
  rw [loadMem, bytes_eq]
  rfl

theorem readBytes_lt (mem : Mem) (a : BitVec 64) (n : Nat) : readBytes mem a n < 2 ^ (8 * n) := by
  rw [Nat.pow_mul]
  exact Bytes.leNat_lt _ n

theorem setWidth_loadMem (mem : Mem) (a : BitVec 64) (n w : Nat) :
    (loadMem mem a (8 * n)).setWidth w = BitVec.ofNat w (readBytes mem a n) := by
  apply BitVec.eq_of_toNat_eq
  rw [loadMem_eq, BitVec.toNat_setWidth, BitVec.toNat_ofNat, BitVec.toNat_ofNat,
    Nat.mod_eq_of_lt (readBytes_lt mem a n)]

theorem storeMem_eq (mem : Mem) (a : BitVec 64) (n : Nat) {x : BitVec (8 * n)} {v : Nat}
    (hx : x.toNat = v % 2 ^ (8 * n)) : storeMem mem a x = writeBytes mem a n v := by
  funext b
  rw [storeMem, writeBytes, bytes_eq]
  by_cases hb : (b - a).toNat < n
  · rw [if_pos hb, if_pos hb, hx, Nat.pow_mul]
    exact Bytes.byteAt_mod hb
  · rw [if_neg hb, if_neg hb]

theorem MemSize.bits_le (z : MemSize) : 8 * z.bytes ≤ 64 := by cases z <;> decide

/-! ## The instruction shapes -/

theorem lift_load (env : Env) (op : LoadOp) (dst base : Fin 12) (off : BitVec 16) :
    lift env (MemInsn.load op dst base off).mc =
      load (MemInsn.load op dst base off).mc (8 * op.size.bytes) op.signed (op.width = .w32) := by
  cases op <;> rfl

theorem load_wp (env : Env) (op : LoadOp) (dst base : Fin 12) (off : BitVec 16)
    (hopen : s.code.Open) (rt : Rt) :
    (lift env (MemInsn.load op dst base off).mc).wp s rt fun _ =>
      Writes s rt dst (op.value rt.mem (rt.regs base + off.signExtend 64)) := by
  have h0 : (MemInsn.load op dst base off).mc.HasOp 0 (.reg (op.width.reg dst)) := rfl
  rw [lift_load]
  unfold load
  refine (getMemPointerOperand_computes hopen rfl rfl).bind fun p s₁ rt₁ hp _ q₁ => ?_
  refine (loadMem_computes (8 * op.size.bytes) q₁.isOpen hp).bind fun v s₂ rt₂ hv htv q₂ => ?_
  rw [q₁.mem_eq] at hv
  have q := q₁.trans q₂
  by_cases hw : op.width = .w32
  · -- a w register
    have hle : 8 * op.size.bytes ≤ 32 := by cases op <;> first | decide | cases hw
    have hs : op.signed = false := by cases op <;> first | rfl | cases hw
    rw [if_pos (decide_eq_true hw)]
    rw [hw] at h0
    refine (zextIf_computes hle q₂.isOpen htv hv).bind fun u s₃ rt₃ hu htu q₃ => ?_
    refine Emit.wp_bind (wp_liftOk (getRegOperand_run h0 s₃) ?_)
    have hval : op.value rt.mem (rt.regs base + off.signExtend 64) =
        (BitVec.setWidth 32 (loadMem rt.mem (rt.regs base + off.signExtend 64)
          (8 * op.size.bytes))).setWidth 64 := by
      rw [setWidth_loadMem, LoadOp.value, if_neg (by rw [hs]; decide)]
      apply BitVec.eq_of_toNat_eq
      rw [BitVec.toNat_setWidth, BitVec.toNat_ofNat, BitVec.toNat_ofNat]
      have hlt := readBytes_lt rt.mem (rt.regs base + off.signExtend 64) op.size.bytes
      have h32 : 2 ^ (8 * op.size.bytes) ≤ 2 ^ 32 := Nat.pow_le_pow_right (by decide) hle
      rw [Nat.mod_eq_of_lt (lt_of_lt_of_le hlt h32)]
    rw [hval]
    exact (q.trans q₃).writes_wp (updateReg32_wp q₃.isOpen hu htu)
  · have hw64 : op.width = .w64 := by cases op <;> first | rfl | exact absurd rfl hw
    rw [if_neg (by rw [decide_eq_true_eq]; exact hw)]
    rw [hw64] at h0
    have hext : Computes (if 8 * op.size.bytes < 64 then
        (if op.signed then createSExt v 64 else createZExt v 64) else pure v) s₂ rt₂
        (.int (op.value rt.mem (rt.regs base + off.signExtend 64))) (.int 64) := by
      by_cases hs : op.signed = true
      · have hlt : 8 * op.size.bytes < 64 := by cases op <;> first | decide | cases hs
        rw [if_pos hlt, if_pos hs, LoadOp.value, if_pos hs, ← loadMem_eq]
        exact sext_computes q₂.isOpen htv hv hlt
      · have hz := zextIf_computes op.size.bits_le q₂.isOpen htv hv
        rw [setWidth_loadMem] at hz
        rw [LoadOp.value, if_neg hs]
        simpa only [if_neg hs] using hz
    refine hext.bind fun u s₃ rt₃ hu htu q₃ => ?_
    refine Emit.wp_bind (wp_liftOk (getRegOperand_run h0 s₃) ?_)
    exact (q.trans q₃).writes_wp (updateReg64_wp q₃.isOpen hu htu)

theorem lift_store (env : Env) (op : StoreOp) (src base : Fin 12) (off : BitVec 16) :
    lift env (MemInsn.store op src base off).mc =
      store (MemInsn.store op src base off).mc (8 * op.size.bytes) (op.width = .w32) := by
  cases op <;> rfl

theorem store_wp (env : Env) (op : StoreOp) (src base : Fin 12) (off : BitVec 16)
    (hopen : s.code.Open) (rt : Rt) :
    (lift env (MemInsn.store op src base off).mc).wp s rt fun _ => Stores s rt
      (writeBytes rt.mem (rt.regs base + off.signExtend 64) op.size.bytes (rt.regs src).toNat) := by
  have h0 : (MemInsn.store op src base off).mc.HasOp 0 (.reg (op.width.reg src)) := rfl
  have hread : (if (decide (op.width = .w32)) = true then
      readRegOperand32 (MemInsn.store op src base off).mc 0
      else readRegOperand64 (MemInsn.store op src base off).mc 0 : LiftM Value) =
      readRegOperand op.width (MemInsn.store op src base off).mc 0 := by
    cases op <;> rfl
  have hle : 8 * op.size.bytes ≤ op.width.bits := by cases op <;> decide
  have hlow : (((rt.regs src).setWidth op.width.bits).setWidth (8 * op.size.bytes)).toNat =
      (rt.regs src).toNat % 2 ^ (8 * op.size.bytes) := by
    rw [BitVec.toNat_setWidth, BitVec.toNat_setWidth, Nat.mod_mod_of_dvd _ (Nat.pow_dvd_pow 2 hle)]
  rw [lift_store]
  unfold store
  rw [hread]
  refine (getMemPointerOperand_computes hopen rfl rfl).bind fun p s₁ rt₁ hp _ q₁ => ?_
  refine (readRegOperand_computes q₁.isOpen h0 op.width).bind fun v s₂ rt₂ hv htv q₂ => ?_
  rw [bitWidth_int htv]
  refine (truncIf_computes hle q₂.isOpen htv hv).bind fun u s₃ rt₃ hu htu q₃ => ?_
  have q := (q₁.trans q₂).trans q₃
  have hst := q.stores_wp (storeMem_wp q₃.isOpen hu (hp.later (q₂.trans q₃).toLater))
  rw [q.mem_eq, mapReg_reg, q₁.regs_eq] at hst
  rwa [storeMem_eq rt.mem _ op.size.bytes hlow] at hst

theorem lift_storeImm (env : Env) (z : MemSize) (imm : BitVec 32) (base : Fin 12) (off : BitVec 16) :
    lift env (MemInsn.storeImm z imm base off).mc =
      storeImm (MemInsn.storeImm z imm base off).mc (8 * z.bytes) := by
  cases z <;> rfl

theorem storeImm_wp (env : Env) (z : MemSize) (imm : BitVec 32) (base : Fin 12) (off : BitVec 16)
    (hopen : s.code.Open) (rt : Rt) :
    (lift env (MemInsn.storeImm z imm base off).mc).wp s rt fun _ => Stores s rt
      (writeBytes rt.mem (rt.regs base + off.signExtend 64) z.bytes (imm.signExtend 64).toNat) := by
  have hop : ∀ s₁ : LState, (liftExcept ((MemInsn.storeImm z imm base off).mc.getOperand 0)).run s₁ =
      .ok (.imm imm.toInt, s₁) := fun _ => rfl
  have hlt : (BitVec.ofInt 64 imm.toInt).toNat % 2 ^ (8 * z.bytes) < 2 ^ (8 * z.bytes) :=
    Nat.mod_lt _ (Nat.two_pow_pos _)
  have hlow : (BitVec.ofNat (8 * z.bytes)
      ((BitVec.ofInt 64 imm.toInt).toNat % 2 ^ (8 * z.bytes))).toNat =
      (imm.signExtend 64).toNat % 2 ^ (8 * z.bytes) := by
    rw [BitVec.toNat_ofNat, Nat.mod_mod, ofInt_toInt_signExtend]
  rw [lift_storeImm]
  unfold storeImm
  refine (getMemPointerOperand_computes hopen rfl rfl).bind fun p s₁ rt₁ hp _ q₁ => ?_
  refine Emit.wp_bind (wp_liftOk (hop s₁) ?_)
  refine Emit.wp_bind (wp_liftOk (unsignedConst_run hlt s₁) ?_)
  have hst := q₁.stores_wp (storeMem_wp q₁.isOpen (has_const s₁ rt₁
    (BitVec.ofNat (8 * z.bytes) ((BitVec.ofInt 64 imm.toInt).toNat % 2 ^ (8 * z.bytes)))) hp)
  rw [q₁.mem_eq] at hst
  rwa [storeMem_eq rt.mem _ z.bytes hlow] at hst

/-- What the code of a memory instruction does. -/
theorem memInsn_wp (env : Env) (i : MemInsn) (hopen : s.code.Open) (rt : Rt) :
    (lift env i.mc).wp s rt fun _ s' rt' => s'.code.Open ∧ rt'.regs = i.regs rt.regs rt.mem ∧
      rt'.mem = i.mem rt.regs rt.mem ∧ rt'.calls = rt.calls := by
  cases i with
  | load op dst base off =>
    exact Emit.wp_mono (load_wp env op dst base off hopen rt) fun _ _ _ hw =>
      ⟨hw.isOpen, hw.regs_eq, hw.mem_eq, hw.calls_eq⟩
  | store op src base off =>
    exact Emit.wp_mono (store_wp env op src base off hopen rt) fun _ _ _ hw =>
      ⟨hw.isOpen, hw.regs_eq, hw.mem_eq, hw.calls_eq⟩
  | storeImm z imm base off =>
    exact Emit.wp_mono (storeImm_wp env z imm base off hopen rt) fun _ _ _ hw =>
      ⟨hw.isOpen, hw.regs_eq, hw.mem_eq, hw.calls_eq⟩

/-- **Memory semantics.** The code of a load or a store runs to its end without undefined behaviour
and leaves the registers and the memory of RFC 9669: registers other than the destination of a load
and bytes outside of the accessed ones are as before. -/
theorem memory_semantics (env : Env) (s : LState) (hopen : s.code.Open) (rt : Rt) (i : MemInsn) :
    ∃ s' rt', (lift env i.mc).run s = .ok ((), s') ∧ s'.code.Open ∧
      (∀ n, ∃ x, s'.code.run ir n (s.code.endCfg rt) = .ok x) ∧
      s'.code.Runs ir (s.code.endCfg rt) (s'.code.endCfg rt') ∧
      rt'.regs = i.regs rt.regs rt.mem ∧ rt'.mem = i.mem rt.regs rt.mem ∧ rt'.calls = rt.calls ∧
      (∀ r, (∀ op base off, i ≠ .load op r base off) → rt'.regs r = rt.regs r) ∧
      ∀ b, i.bytes ≤ (b - i.address rt.regs).toNat → rt'.mem b = rt.mem b := by
  obtain ⟨_, s', rt', hrun, hseg, ho, hregs, hmem, hcalls⟩ := memInsn_wp env i hopen rt
  have hruns := hseg.runs _ (Emit.Code.Le.refl _)
  refine ⟨s', rt', hrun, ho, hruns.safe (ho.step_end rt'), hruns, hregs, hmem, hcalls, ?_, ?_⟩
  · intro r hr
    rw [hregs]
    exact i.regs_frame rt.regs rt.mem r hr
  · intro b hb
    rw [hmem]
    exact i.mem_frame rt.regs rt.mem b hb

/-- `*(u8 *)(r1 - 1) = 255` at address zero, in an empty function: an immediate that does not fit a
signed byte, and an address that wraps. -/
theorem memory_semantics_byte :
    let env : Env := { module := .bytes "f" ⟨.void, []⟩ }
    let s : LState := { globals := Globals.init env.module }
    let rt := Rt.start World.zero (fun _ => 0) fun _ => 0
    ∃ s' rt', (lift env (MemInsn.storeImm .b 255 1 (-1)).mc).run s = .ok ((), s') ∧
      s'.code.Runs ir (s.code.endCfg rt) (s'.code.endCfg rt') ∧
      rt'.mem (BitVec.allOnes 64) = 255 ∧ rt'.mem 0 = 0 := by
  intro env s rt
  obtain ⟨s', rt', hrun, _, _, hruns, _, hmem, _⟩ :=
    memory_semantics env s Emit.Code.open_fresh rt (.storeImm .b 255 1 (-1))
  exact ⟨s', rt', hrun, hruns, by rw [hmem]; decide, by rw [hmem]; decide⟩

end BpfTv
