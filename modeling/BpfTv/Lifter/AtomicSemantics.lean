import BpfTv.Bpf.Atomics
import BpfTv.Lifter.MemorySemantics
import BpfTv.Lifter.Regions

/-!
# Atomic semantics

The IR that `lift` writes for an atomic instruction replaces the addressed bytes and sets the register
that RFC 9669 says. It claims that the address is aligned to the size of the access, which nothing
ensures: at any other address it has undefined behaviour (`atomic_semantics`).
-/

namespace BpfTv

variable {α : Type} {s s' s₁ : LState} {rt rt₁ : Rt} {v e p : Value} {I : MCInst} {a : BitVec 64} {w n : Nat}

/-! ## The memory of an atomic -/

/-- The result `x` is read while memory is changed to `m`. -/
def Swaps (m : LiftM Value) (s : LState) (rt : Rt) (x : RVal) (t : Ty) (mem : Mem) : Prop :=
  m.wp s rt fun u s' rt' => s'.Has rt' u x ∧ u.ty = t ∧ Stores s rt mem s' rt'

theorem swaps_of_exec {op : Op} {ty : Ty} {x : RVal} {mem : Mem} (hopen : s.code.Open)
    (hx : Instr.exec ⟨s.next, op⟩ rt = .ok ({ rt with mem := mem }.set s.next x)) :
    Swaps (emit op ty) s rt x ty mem := by
  refine emit_wp hopen hx ⟨⟨by rw [Value.eval, set_env_self], Nat.lt_succ_self _⟩, rfl, ?_⟩
  exact ⟨⟨hopen.push _, Nat.le_succ _, fun id hid => set_env_of_ne _ _ (Nat.ne_of_lt hid), fun _ _ => rfl,
    rfl⟩, rfl, rfl, rfl⟩

theorem rmw_swaps {o : RmwOp} {x : BitVec w} (hopen : s.code.Open) (hp : s.Has rt p (.ptr (.flat a)))
    (hv : s.Has rt v (.int x)) (ht : v.ty = .int w) (ha : n ∣ a.toNat) :
    Swaps (emit (.atomicrmw o p v n) v.ty) s rt (.int (loadMem rt.mem a w)) (.int w)
      (storeMem rt.mem a (o.eval (loadMem rt.mem a w) x)) := by
  have hexec : evalRmw rt o a w v =
      .ok (.int (loadMem rt.mem a w), storeMem rt.mem a (o.eval (loadMem rt.mem a w) x)) := by
    simp only [evalRmw, hv.evalInt]
    rfl
  rw [ht]
  refine swaps_of_exec hopen ?_
  simp only [Instr.exec, hp.evalPtr, bitWidth_int ht]
  show (checkAlign a n >>= fun _ => _) = _
  rw [checkAlign, if_pos ha]
  show (evalRmw rt o a w v >>= fun _ => _) = _
  rw [hexec]
  rfl

theorem cmpxchg_swaps {x y : BitVec w} (hopen : s.code.Open) (hp : s.Has rt p (.ptr (.flat a)))
    (he : s.Has rt e (.int x)) (hte : e.ty = .int w) (hv : s.Has rt v (.int y)) (ha : n ∣ a.toNat) :
    Swaps (emit (.cmpxchg p e v n) (.cmpxchg w)) s rt
      (.pair (loadMem rt.mem a w) (BitVec.ofBool (loadMem rt.mem a w == x))) (.cmpxchg w)
      (if loadMem rt.mem a w = x then storeMem rt.mem a y else rt.mem) := by
  have hexec : evalCmpxchg rt a w e v = .ok
      (.pair (loadMem rt.mem a w) (BitVec.ofBool (loadMem rt.mem a w == x)),
        if loadMem rt.mem a w = x then storeMem rt.mem a y else rt.mem) := by
    simp only [evalCmpxchg, he.evalInt, hv.evalInt]
    rfl
  refine swaps_of_exec hopen ?_
  simp only [Instr.exec, hp.evalPtr, bitWidth_int hte]
  show (checkAlign a n >>= fun _ => _) = _
  rw [checkAlign, if_pos ha]
  show (evalCmpxchg rt a w e v >>= fun _ => _) = _
  rw [hexec]
  rfl

theorem rmw_exec_error {o : RmwOp} {id : Nat} (hp : s.Has rt p (.ptr (.flat a))) (ha : ¬n ∣ a.toNat) :
    Instr.exec ⟨id, .atomicrmw o p v n⟩ rt = .error .ub := by
  simp only [Instr.exec, hp.evalPtr]
  show (checkAlign a n >>= fun _ => _) = _
  rw [checkAlign, if_neg ha]
  rfl

theorem cmpxchg_exec_error {id : Nat} (hp : s.Has rt p (.ptr (.flat a))) (ha : ¬n ∣ a.toNat) :
    Instr.exec ⟨id, .cmpxchg p e v n⟩ rt = .error .ub := by
  simp only [Instr.exec, hp.evalPtr]
  show (checkAlign a n >>= fun _ => _) = _
  rw [checkAlign, if_neg ha]
  rfl

/-! ## Code only grows -/

theorem le_moves : Moves fun s s' => s.code.Le s'.code where
  refl s := Emit.Code.Le.refl s.code
  trans _ _ _ h h' := h.trans h'
  push _ _ _ hopen := Emit.Code.le_push hopen _
  pushUnspec _ _ _ hopen := Emit.Code.le_push hopen _
  close _ t hopen := Emit.Code.le_close hopen t
  newBlock s := Emit.Code.le_newBlock s.code
  setBlock s k := Emit.Code.le_setBlock s.code k

theorem le_blockwise : Blockwise (fun s s' => s.code.Le s'.code) .univ :=
  le_moves.blockwise fun s _ => Emit.Code.Le.refl s.code

theorem emit_traps {op : Op} {ty : Ty} {f : Value → LiftM α} {t : Trap} (hopen : s.code.Open)
    (hx : Instr.exec ⟨s.next, op⟩ rt = .error t)
    (hf : ∀ u, Sat (fun s s' => s.code.Le s'.code) .univ (f u) fun _ => True) :
    Emit.traps ir LState.code t (emit op ty >>= f) s rt := by
  refine Emit.traps_write hopen hx (fun u s₁ hm => ?_) fun u s₁ b s₂ _ hrun => (hf u s₁ b s₂ hrun).1
  rw [emit_run hopen] at hm
  cases hm
  rfl

/-! ## The two shapes -/

/-- What is known of an atomic at its address. -/
structure Updates (s : LState) (rt : Rt) (regs : Regs) (mem : Mem) (s' : LState) (rt' : Rt) : Prop where
  isOpen : s'.code.Open
  regs_eq : rt'.regs = regs
  mem_eq : rt'.mem = mem
  calls_eq : rt'.calls = rt.calls

theorem Stores.updates_wp {dst : Fin 12} {x : BitVec 64} {mem : Mem} {m : LiftM α} (h : Stores s rt mem s₁ rt₁)
    (hm : m.wp s₁ rt₁ fun _ => Writes s₁ rt₁ dst x) :
    m.wp s₁ rt₁ fun _ => Updates s rt (Function.update rt.regs dst x) mem :=
  Emit.wp_mono hm fun _ _ _ hw => ⟨hw.isOpen, by rw [hw.regs_eq, h.regs_eq], hw.mem_eq.trans h.mem_eq,
    hw.calls_eq.trans h.calls_eq⟩

section rmw

variable {wd : Width} {src base : Fin 12} {off : BitVec 16} {r : Reg}
  (h1 : I.HasOp 1 (.reg (.R base))) (h2 : I.HasOp 2 (.imm off.toInt))
  (hval : ∀ s rt, s.code.Open →
    Computes (atomicVal I) s rt (.int ((rt.regs src).setWidth wd.bits)) (.int wd.bits))
include h1 h2 hval

theorem atomicRmw_wp (hopen : s.code.Open) (h0 : I.HasOp 0 (.reg r))
    (hwd : atomicIs64 I.opcode = decide (wd = .w64))
    (ha : (if atomicIs64 I.opcode then 8 else 4) ∣ (rt.regs base + off.signExtend 64).toNat) :
    (atomicRmw I).wp s rt fun _ => Updates s rt
      (if atomicFetch I.opcode then Function.update rt.regs r.mapRegToBackingReg
        ((loadMem rt.mem (rt.regs base + off.signExtend 64) wd.bits).setWidth 64) else rt.regs)
      (storeMem rt.mem (rt.regs base + off.signExtend 64) ((atomicBinOp I.opcode).eval
        (loadMem rt.mem (rt.regs base + off.signExtend 64) wd.bits) ((rt.regs src).setWidth wd.bits))) := by
  unfold atomicRmw
  refine (getMemPointerOperand_computes hopen h1 h2).bind fun p s₁ rt₁ hp _ q₁ => ?_
  refine (hval s₁ rt₁ q₁.isOpen).bind fun v s₂ rt₂ hv htv q₂ => ?_
  rw [q₁.regs_eq] at hv
  have q := q₁.trans q₂
  have hswap := rmw_swaps (o := atomicBinOp I.opcode) q₂.isOpen (hp.later q₂.toLater) hv htv ha
  rw [q.mem_eq] at hswap
  refine Emit.wp_bind (Emit.wp_mono hswap fun u s₃ rt₃ ⟨hu, htu, hst⟩ => ?_)
  have hst' := q.stores hst
  have hset : (if atomicIs64 I.opcode then do updateReg64 u (← getRegOperand I 0)
      else do updateReg32 u (← getRegOperand I 0) : LiftM Unit) =
      getRegOperand I 0 >>= fun r => updateReg wd u r := by
    rw [hwd]
    cases wd <;> rfl
  by_cases hfetch : atomicFetch I.opcode = true
  · rw [if_pos hfetch, if_pos hfetch, hset]
    refine Emit.wp_bind (wp_liftOk (getRegOperand_run h0 s₃) ?_)
    exact hst'.updates_wp (updateReg_wp hst.isOpen hu htu)
  · rw [if_neg hfetch, if_neg hfetch]
    exact Emit.wp_pure ⟨hst'.isOpen, hst'.regs_eq, hst'.mem_eq, hst'.calls_eq⟩

theorem atomicRmw_traps (hopen : s.code.Open)
    (ha : ¬(if atomicIs64 I.opcode then 8 else 4) ∣ (rt.regs base + off.signExtend 64).toNat) :
    Emit.traps ir LState.code .ub (atomicRmw I) s rt := by
  have hle := le_blockwise.compat
  unfold atomicRmw
  refine Emit.traps_bind (getMemPointerOperand_computes hopen h1 h2) fun p s₁ rt₁ ⟨hp, _, q₁⟩ => ?_
  refine Emit.traps_bind (hval s₁ rt₁ q₁.isOpen) fun v s₂ rt₂ ⟨_, _, q₂⟩ => ?_
  refine emit_traps q₂.isOpen (rmw_exec_error (hp.later q₂.toLater) ha) fun u => ?_
  exact Sat.ite (Sat.ite (sat_set64 hle) (sat_set32 hle)) (hle.pure trivial)

end rmw

def readReg (w : Width) (r : Reg) : LiftM Value :=
  match w with
  | .w64 => readReg64 r
  | .w32 => readReg32 r

theorem readReg_computes (hopen : s.code.Open) (w : Width) (r : Reg) : Computes (readReg w r) s rt
    (.int ((rt.regs r.mapRegToBackingReg).setWidth w.bits)) (.int w.bits) := by
  cases w with
  | w64 =>
    show Computes _ s rt (.int ((rt.regs r.mapRegToBackingReg).setWidth 64)) (.int 64)
    rw [BitVec.setWidth_eq]
    exact readReg64_computes hopen r
  | w32 => exact readReg32_computes hopen r

/-- `CMPXCHGD` or `CMPXCHGW32`. -/
def cmpxchg (w : Width) (I : MCInst) : LiftM Unit := do
  let ptr ← getMemPointerOperand I 0
  let expected ← readReg w (.R 0)
  let newVal ← readRegOperand w I 2
  let cx ← emit (.cmpxchg ptr expected newVal w.bytes) (.cmpxchg w.bits)
  updateReg w (← createExtractValue cx w.bits) (.R 0)

section cmpxchg

variable {wd : Width} {src base : Fin 12} {off : BitVec 16}
  (h0 : I.HasOp 0 (.reg (.R base))) (h1 : I.HasOp 1 (.imm off.toInt))
  (h2 : I.HasOp 2 (.reg (wd.reg src)))
include h0 h1 h2

theorem cmpxchg_wp (hopen : s.code.Open) (ha : wd.bytes ∣ (rt.regs base + off.signExtend 64).toNat) :
    (cmpxchg wd I).wp s rt fun _ => Updates s rt
      (Function.update rt.regs 0
        ((loadMem rt.mem (rt.regs base + off.signExtend 64) wd.bits).setWidth 64))
      (if loadMem rt.mem (rt.regs base + off.signExtend 64) wd.bits = (rt.regs 0).setWidth wd.bits then
        storeMem rt.mem (rt.regs base + off.signExtend 64) ((rt.regs src).setWidth wd.bits)
      else rt.mem) := by
  unfold cmpxchg
  refine (getMemPointerOperand_computes hopen h0 h1).bind fun p s₁ rt₁ hp _ q₁ => ?_
  refine (readReg_computes q₁.isOpen wd (.R 0)).bind fun e s₂ rt₂ he hte q₂ => ?_
  refine (readRegOperand_computes q₂.isOpen h2 wd).bind fun v s₃ rt₃ hv htv q₃ => ?_
  have q := (q₁.trans q₂).trans q₃
  rw [mapReg_reg, (q₁.trans q₂).regs_eq] at hv
  rw [q₁.regs_eq] at he
  have hswap := cmpxchg_swaps q₃.isOpen (hp.later (q₂.trans q₃).toLater) (he.later q₃.toLater) hte hv ha
  rw [q.mem_eq] at hswap
  refine Emit.wp_bind (Emit.wp_mono hswap fun cx s₄ rt₄ ⟨hcx, _, hst⟩ => ?_)
  have hext : Computes (createExtractValue cx wd.bits) s₄ rt₄
      (.int (loadMem rt.mem (rt.regs base + off.signExtend 64) wd.bits)) (.int wd.bits) := by
    refine emit_computes hst.isOpen ?_
    simp only [Instr.exec, hcx.eval]
    rfl
  refine hext.bind fun u s₅ rt₅ hu htu q₅ => ?_
  have hst' : Stores s rt _ s₅ rt₅ := q.stores
    ⟨hst.toLater.trans q₅.toLater, q₅.regs_eq.trans hst.regs_eq, q₅.mem_eq.trans hst.mem_eq,
      q₅.calls_eq.trans hst.calls_eq⟩
  exact hst'.updates_wp (updateReg_wp q₅.isOpen hu htu)

theorem cmpxchg_traps (hopen : s.code.Open)
    (ha : ¬wd.bytes ∣ (rt.regs base + off.signExtend 64).toNat) :
    Emit.traps ir LState.code .ub (cmpxchg wd I) s rt := by
  have hle := le_blockwise.compat
  unfold cmpxchg
  refine Emit.traps_bind (getMemPointerOperand_computes hopen h0 h1) fun p s₁ rt₁ ⟨hp, _, q₁⟩ => ?_
  refine Emit.traps_bind (readReg_computes q₁.isOpen wd (.R 0)) fun e s₂ rt₂ ⟨_, _, q₂⟩ => ?_
  refine Emit.traps_bind (readRegOperand_computes q₂.isOpen h2 wd) fun v s₃ rt₃ ⟨_, _, q₃⟩ => ?_
  refine emit_traps q₃.isOpen (cmpxchg_exec_error (hp.later (q₂.trans q₃).toLater) ha) fun cx => ?_
  refine hle.bind (sat_emit hle rfl) fun u _ => ?_
  cases wd with
  | w64 => exact sat_updateReg64 hle
  | w32 => exact sat_updateReg32 hle

end cmpxchg

/-! ## The atomic instructions -/

theorem loadMem_width (mem : Mem) (a : BitVec 64) (w : Width) :
    loadMem mem a w.bits = BitVec.ofNat w.bits (readBytes mem a w.bytes) := by
  cases w with
  | w64 => exact loadMem_eq mem a 8
  | w32 => exact loadMem_eq mem a 4

theorem storeMem_width (mem : Mem) (a : BitVec 64) (w : Width) (x : BitVec w.bits) :
    storeMem mem a x = writeBytes mem a w.bytes x.toNat := by
  cases w with
  | w64 => exact storeMem_eq mem a 8 (Nat.mod_eq_of_lt x.isLt).symm
  | w32 => exact storeMem_eq mem a 4 (Nat.mod_eq_of_lt x.isLt).symm

theorem lift_atomicRmw (env : Env) (i : AtomicInsn) (h : ∀ w src base off, i ≠ .cmpxchg w src base off) :
    lift env i.mc = atomicRmw i.mc := by
  cases i with
  | rmw op fetch w src base off => cases op <;> cases fetch <;> cases w <;> rfl
  | xaddw src base off => rfl
  | xchg w src base off => cases w <;> rfl
  | cmpxchg w src base off => exact absurd rfl (h w src base off)

theorem lift_cmpxchg (env : Env) (w : Width) (src base : Fin 12) (off : BitVec 16) :
    lift env (AtomicInsn.cmpxchg w src base off).mc = cmpxchg w (AtomicInsn.cmpxchg w src base off).mc := by
  cases w <;> rfl

theorem atomicIs64_eq (i : AtomicInsn) (h : ∀ w src base off, i ≠ .cmpxchg w src base off) :
    atomicIs64 i.mc.opcode = decide (i.width = .w64) := by
  cases i with
  | rmw op fetch w src base off => cases op <;> cases fetch <;> cases w <;> rfl
  | xaddw src base off => rfl
  | xchg w src base off => cases w <;> rfl
  | cmpxchg w src base off => exact absurd rfl (h w src base off)

theorem atomicFetch_eq (i : AtomicInsn) (h : ∀ w src base off, i ≠ .cmpxchg w src base off) :
    i.dst = if atomicFetch i.mc.opcode then some i.src else none := by
  cases i with
  | rmw op fetch w src base off => cases op <;> cases fetch <;> cases w <;> rfl
  | xaddw src base off => rfl
  | xchg w src base off => cases w <;> rfl
  | cmpxchg w src base off => exact absurd rfl (h w src base off)

theorem atomicBinOp_eq (i : AtomicInsn) (h : ∀ w src base off, i ≠ .cmpxchg w src base off) {n : Nat}
    (expected old src : BitVec n) :
    i.written expected old src = some ((atomicBinOp i.mc.opcode).eval old src) := by
  cases i with
  | rmw op fetch w r base off => cases op <;> cases fetch <;> cases w <;> rfl
  | xaddw r base off => rfl
  | xchg w r base off => cases w <;> rfl
  | cmpxchg w r base off => exact absurd rfl (h w r base off)

theorem atomicVal_computes (i : AtomicInsn) (h : ∀ w src base off, i ≠ .cmpxchg w src base off)
    (s : LState) (rt : Rt) (hopen : s.code.Open) :
    Computes (atomicVal i.mc) s rt (.int (i.operand rt.regs)) (.int i.width.bits) := by
  have hread : ∀ (I : MCInst) (w : Width) (src : Fin 12), I.HasOp 3 (.reg (w.reg src)) →
      Computes (readRegOperand w I 3) s rt (.int ((rt.regs src).setWidth w.bits)) (.int w.bits) := by
    intro I w src hop
    have hc : Computes _ s rt _ _ := readRegOperand_computes hopen hop w
    rwa [mapReg_reg] at hc
  cases i with
  | rmw op fetch w src base off =>
    have hval : atomicVal (AtomicInsn.rmw op fetch w src base off).mc =
        readRegOperand w (AtomicInsn.rmw op fetch w src base off).mc 3 := by
      cases op <;> cases fetch <;> cases w <;> rfl
    rw [hval]
    exact hread _ w src rfl
  | xaddw src base off =>
    show Computes (readRegOperand64 _ 3 >>= fun v => createTrunc v 32) s rt _ _
    refine (hread _ .w64 src rfl).bind fun v s₁ rt₁ hv htv q => ?_
    rw [show (rt.regs src).setWidth Width.w64.bits = rt.regs src from BitVec.setWidth_eq _] at hv
    have htrunc := trunc_computes q.isOpen htv hv (show 32 ≤ 64 by decide)
    exact Emit.wp_mono htrunc fun u s₂ rt₂ ⟨hu, htu, q'⟩ => ⟨hu, htu, q.trans q'⟩
  | xchg w src base off =>
    have hval : atomicVal (AtomicInsn.xchg w src base off).mc =
        readRegOperand w (AtomicInsn.xchg w src base off).mc 3 := by
      cases w <;> rfl
    rw [hval]
    exact hread _ w src rfl
  | cmpxchg w src base off => exact absurd rfl (h w src base off)

theorem old_eq (i : AtomicInsn) (regs : Regs) (mem : Mem) :
    i.old regs mem = loadMem mem (i.address regs) i.width.bits :=
  (loadMem_width mem _ i.width).symm

theorem regs_some (i : AtomicInsn) (regs : Regs) (mem : Mem) {dst : Fin 12} (h : i.dst = some dst) :
    i.regs regs mem =
      Function.update regs dst ((loadMem mem (i.address regs) i.width.bits).setWidth 64) := by
  rw [AtomicInsn.regs, h, ← old_eq]

theorem mem_some (i : AtomicInsn) (regs : Regs) (mem : Mem) {x : BitVec i.width.bits}
    (h : i.written ((regs 0).setWidth i.width.bits) (i.old regs mem) (i.operand regs) = some x) :
    i.mem regs mem = storeMem mem (i.address regs) x := by
  rw [AtomicInsn.mem, h, storeMem_width]
  rfl

theorem mem_none (i : AtomicInsn) (regs : Regs) (mem : Mem)
    (h : i.written ((regs 0).setWidth i.width.bits) (i.old regs mem) (i.operand regs) = none) :
    i.mem regs mem = mem := by
  rw [AtomicInsn.mem, h]

theorem mem_cmpxchg (w : Width) (src base : Fin 12) (off : BitVec 16) (regs : Regs) (mem : Mem) :
    (AtomicInsn.cmpxchg w src base off).mem regs mem =
      if loadMem mem (regs base + off.signExtend 64) w.bits = (regs 0).setWidth w.bits then
        storeMem mem (regs base + off.signExtend 64) ((regs src).setWidth w.bits)
      else mem := by
  have hold := old_eq (.cmpxchg w src base off) regs mem
  by_cases h : loadMem mem (regs base + off.signExtend 64) w.bits = (regs 0).setWidth w.bits
  · rw [if_pos h]
    refine mem_some _ _ _ ?_
    rw [hold]
    exact if_pos h
  · rw [if_neg h]
    refine mem_none _ _ _ ?_
    rw [hold]
    exact if_neg h

theorem atomicRmw_operands (i : AtomicInsn) (h : ∀ w src base off, i ≠ .cmpxchg w src base off) :
    i.mc.HasOp 0 (.reg (i.operandWidth.reg i.src)) ∧ i.mc.HasOp 1 (.reg (.R i.base)) ∧
      i.mc.HasOp 2 (.imm i.off.toInt) := by
  cases i with
  | cmpxchg w src base off => exact absurd rfl (h w src base off)
  | _ => exact ⟨rfl, rfl, rfl⟩

theorem cmpxchg_operands (w : Width) (src base : Fin 12) (off : BitVec 16) :
    (AtomicInsn.cmpxchg w src base off).mc.HasOp 0 (.reg (.R base)) ∧
      (AtomicInsn.cmpxchg w src base off).mc.HasOp 1 (.imm off.toInt) ∧
      (AtomicInsn.cmpxchg w src base off).mc.HasOp 2 (.reg (w.reg src)) :=
  ⟨rfl, rfl, rfl⟩

theorem atomicAlign_eq (i : AtomicInsn) (h : ∀ w src base off, i ≠ .cmpxchg w src base off) :
    (if atomicIs64 i.mc.opcode then 8 else 4) = i.bytes := by
  rw [atomicIs64_eq i h, AtomicInsn.bytes]
  cases i.width <;> rfl

/-- At an aligned address the code does what the instruction does. -/
theorem atomicInsn_wp (env : Env) (i : AtomicInsn) (hopen : s.code.Open) (rt : Rt)
    (ha : i.bytes ∣ (i.address rt.regs).toNat) :
    (lift env i.mc).wp s rt fun _ => Updates s rt (i.regs rt.regs rt.mem) (i.mem rt.regs rt.mem) := by
  by_cases hcx : ∀ w src base off, i ≠ .cmpxchg w src base off
  · obtain ⟨h0, h1, h2⟩ := atomicRmw_operands i hcx
    rw [lift_atomicRmw env i hcx]
    rw [← atomicAlign_eq i hcx] at ha
    have hregs : i.regs rt.regs rt.mem = if atomicFetch i.mc.opcode then
        Function.update rt.regs (i.operandWidth.reg i.src).mapRegToBackingReg
          ((loadMem rt.mem (i.address rt.regs) i.width.bits).setWidth 64) else rt.regs := by
      have hdst := atomicFetch_eq i hcx
      by_cases hf : atomicFetch i.mc.opcode = true
      · rw [if_pos hf] at hdst ⊢
        rw [regs_some i _ _ hdst, mapReg_reg]
      · rw [if_neg hf] at hdst ⊢
        rw [AtomicInsn.regs, hdst]
    have hmem := mem_some i rt.regs rt.mem (atomicBinOp_eq i hcx _ _ _)
    rw [hregs, hmem, old_eq]
    exact atomicRmw_wp h1 h2 (atomicVal_computes i hcx) hopen h0 (atomicIs64_eq i hcx) ha
  · simp only [not_forall, not_not] at hcx
    obtain ⟨w, src, base, off, rfl⟩ := hcx
    obtain ⟨h0, h1, h2⟩ := cmpxchg_operands w src base off
    rw [lift_cmpxchg, regs_some (.cmpxchg w src base off) _ _ rfl, mem_cmpxchg]
    exact cmpxchg_wp h0 h1 h2 hopen ha

/-- At any other address it traps. -/
theorem atomicInsn_traps (env : Env) (i : AtomicInsn) (hopen : s.code.Open) (rt : Rt)
    (ha : ¬i.bytes ∣ (i.address rt.regs).toNat) :
    Emit.traps ir LState.code .ub (lift env i.mc) s rt := by
  by_cases hcx : ∀ w src base off, i ≠ .cmpxchg w src base off
  · obtain ⟨_, h1, h2⟩ := atomicRmw_operands i hcx
    rw [lift_atomicRmw env i hcx]
    rw [← atomicAlign_eq i hcx] at ha
    exact atomicRmw_traps h1 h2 (atomicVal_computes i hcx) hopen ha
  · simp only [not_forall, not_not] at hcx
    obtain ⟨w, src, base, off, rfl⟩ := hcx
    obtain ⟨h0, h1, h2⟩ := cmpxchg_operands w src base off
    rw [lift_cmpxchg]
    exact cmpxchg_traps h0 h1 h2 hopen ha

/-- **Atomic semantics.** The code of an atomic instruction runs to its end without undefined
behaviour and leaves the registers and the memory of RFC 9669 if and only if the address is a multiple
of the size of the access. -/
theorem atomic_semantics (env : Env) (s : LState) (hopen : s.code.Open) (rt : Rt) (i : AtomicInsn) :
    (∃ s' rt', (lift env i.mc).run s = .ok ((), s') ∧ s'.code.Open ∧
      (∀ n, ∃ x, s'.code.run ir n (s.code.endCfg rt) = .ok x) ∧
      s'.code.Runs ir (s.code.endCfg rt) (s'.code.endCfg rt') ∧
      rt'.regs = i.regs rt.regs rt.mem ∧ rt'.mem = i.mem rt.regs rt.mem ∧ rt'.calls = rt.calls ∧
      (∀ r, i.dst ≠ some r → rt'.regs r = rt.regs r) ∧
      ∀ b, i.bytes ≤ (b - i.address rt.regs).toNat → rt'.mem b = rt.mem b) ↔
    i.bytes ∣ (i.address rt.regs).toNat := by
  constructor
  · rintro ⟨s', rt', hrun, ho, _, hruns, _⟩
    by_contra ha
    exact Emit.traps_not_runs (atomicInsn_traps env i hopen rt ha) hrun (ho.step_end rt') hruns
  · intro ha
    obtain ⟨_, s', rt', hrun, hseg, ho, hregs, hmem, hcalls⟩ := atomicInsn_wp env i hopen rt ha
    have hruns := hseg.runs _ (Emit.Code.Le.refl _)
    refine ⟨s', rt', hrun, ho, hruns.safe (ho.step_end rt'), hruns, hregs, hmem, hcalls, ?_, ?_⟩
    · intro r hr
      rw [hregs]
      exact i.regs_frame rt.regs rt.mem r hr
    · intro b hb
      rw [hmem]
      exact i.mem_frame rt.regs rt.mem b hb

/-- `r0 = cmpxchg_64(r1 + 8, r0, r2)` and `w2 = atomic_fetch_add((u32 *)(r1 - 4), w2)` in an empty
function. -/
theorem atomic_semantics_aligned :
    let env : Env := { module := .bytes "f" ⟨.void, []⟩ }
    let s : LState := { globals := Globals.init env.module }
    let rt := Rt.start World.zero (fun r => if r = 2 then 0x100000003 else 0) fun b => if b = 8 then 1 else 0xff
    (∃ s' rt', (lift env (AtomicInsn.cmpxchg .w64 2 1 8).mc).run s = .ok ((), s') ∧
      s'.code.Runs ir (s.code.endCfg rt) (s'.code.endCfg rt') ∧
      rt'.regs 0 = 0xffffffffffffff01 ∧ rt'.mem = rt.mem) ∧
    ∃ s' rt', (lift env (AtomicInsn.rmw .add true .w32 2 1 (-4)).mc).run s = .ok ((), s') ∧
      s'.code.Runs ir (s.code.endCfg rt) (s'.code.endCfg rt') ∧
      rt'.regs 2 = 0xffffffff ∧ rt'.mem (-4) = 2 ∧ rt'.mem 0 = 0xff := by
  intro env s rt
  constructor
  · obtain ⟨s', rt', hrun, _, _, hruns, hregs, hmem, _⟩ :=
      (atomic_semantics env s Emit.Code.open_fresh rt (.cmpxchg .w64 2 1 8)).mpr (by decide)
    refine ⟨s', rt', hrun, hruns, by rw [hregs]; decide, ?_⟩
    rw [hmem]
    exact mem_none _ _ _ (by decide)
  · obtain ⟨s', rt', hrun, _, _, hruns, hregs, hmem, _⟩ :=
      (atomic_semantics env s Emit.Code.open_fresh rt (.rmw .add true .w32 2 1 (-4))).mpr (by decide)
    exact ⟨s', rt', hrun, hruns, by rw [hregs]; decide, by rw [hmem]; decide, by rw [hmem]; decide⟩

/-- `lock *(u64 *)(r1 + 1) += r2` at address one is lifted, and the code has undefined behaviour. -/
theorem atomic_semantics_fails :
    let env : Env := { module := .bytes "f" ⟨.void, []⟩ }
    let s : LState := { globals := Globals.init env.module }
    let i : AtomicInsn := .rmw .add false .w64 2 1 1
    let rt := Rt.start World.zero (fun _ => 0) fun _ => 0
    (∃ r, (lift env i.mc).run s = .ok r) ∧
      ¬∃ s' rt', (lift env i.mc).run s = .ok ((), s') ∧ s'.code.Open ∧
        s'.code.Runs ir (s.code.endCfg rt) (s'.code.endCfg rt') := by
  intro env s i rt
  refine ⟨ok_of_isSome (by decide +kernel), ?_⟩
  rintro ⟨s', rt', hrun, ho, hruns⟩
  have htraps : Emit.traps ir LState.code .ub (lift env i.mc) s rt :=
    atomicInsn_traps env i Emit.Code.open_fresh rt (by decide)
  exact Emit.traps_not_runs htraps hrun (ho.step_end rt') hruns

end BpfTv
