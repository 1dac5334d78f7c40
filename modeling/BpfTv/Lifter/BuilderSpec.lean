import BpfTv.Lifter.Lift

/-!
# What the created instructions compute

One specification for each `create*` function. `Computes m s rt x t`: from builder state `s` and
machine state `rt`, `m` returns a value of type `t`, and the code it writes runs without trap, makes
that value `x`, and is otherwise invisible (`Quiet`: registers, memory, calls and every earlier
value stay what they were). `Computes.bind` chains them.
-/

namespace BpfTv

/-- The weakest precondition of an action of the lifter. -/
abbrev LiftM.wp {α : Type} (m : LiftM α) (s : LState) (rt : Rt) (Q : α → LState → Rt → Prop) : Prop :=
  Emit.wp ir LState.code m s rt Q

/-- `v` names no instruction that is yet to be written. -/
def Value.Below (n : Nat) : Value → Prop
  | .inst id _ => id < n
  | _ => True

/-- `v` is available in builder state `s` and has value `x`. -/
structure LState.Has (s : LState) (rt : Rt) (v : Value) (x : RVal) : Prop where
  eval : v.eval rt = .ok x
  below : v.Below s.next

/-- `s'`, `rt'` come later than `s`, `rt`: the current block is open and earlier values are kept. -/
structure Later (s : LState) (rt : Rt) (s' : LState) (rt' : Rt) : Prop where
  isOpen : s'.code.Open
  next_le : s.next ≤ s'.next
  env_eq : ∀ id < s.next, rt'.env id = rt.env id
  cells_eq : ∀ id < s.next, rt'.cells id = rt.cells id
  world_eq : rt'.world = rt.world

/-- Nothing but new values. -/
structure Quiet (s : LState) (rt : Rt) (s' : LState) (rt' : Rt) : Prop extends Later s rt s' rt' where
  regs_eq : rt'.regs = rt.regs
  mem_eq : rt'.mem = rt.mem
  calls_eq : rt'.calls = rt.calls

variable {α β : Type} {s s₁ s₂ : LState} {rt rt₁ rt₂ : Rt} {v p : Value} {x : RVal} {id : Nat}

theorem Later.trans (h : Later s rt s₁ rt₁) (h' : Later s₁ rt₁ s₂ rt₂) : Later s rt s₂ rt₂ where
  isOpen := h'.isOpen
  next_le := h.next_le.trans h'.next_le
  env_eq id hid := (h'.env_eq id (lt_of_lt_of_le hid h.next_le)).trans (h.env_eq id hid)
  cells_eq id hid := (h'.cells_eq id (lt_of_lt_of_le hid h.next_le)).trans (h.cells_eq id hid)
  world_eq := h'.world_eq.trans h.world_eq

theorem Quiet.trans (h : Quiet s rt s₁ rt₁) (h' : Quiet s₁ rt₁ s₂ rt₂) : Quiet s rt s₂ rt₂ where
  toLater := h.toLater.trans h'.toLater
  regs_eq := h'.regs_eq.trans h.regs_eq
  mem_eq := h'.mem_eq.trans h.mem_eq
  calls_eq := h'.calls_eq.trans h.calls_eq

theorem Quiet.refl (h : s.code.Open) : Quiet s rt s rt :=
  ⟨⟨h, le_rfl, fun _ _ => rfl, fun _ _ => rfl, rfl⟩, rfl, rfl, rfl⟩

/-- Values stay available while earlier results are kept. -/
theorem LState.Has.keep (h : s.Has rt v x) (hn : s.next ≤ s₁.next)
    (he : ∀ id < s.next, rt₁.env id = rt.env id) (hw : rt₁.world = rt.world) : s₁.Has rt₁ v x := by
  obtain ⟨heval, hbelow⟩ := h
  cases v with
  | inst id t =>
    refine ⟨?_, lt_of_lt_of_le hbelow hn⟩
    rw [← heval, Value.eval, Value.eval, he id hbelow]
  | arg i t => exact ⟨by rw [← heval, Value.eval, Value.eval, hw], trivial⟩
  | stack off => exact ⟨by rw [← heval, Value.eval, Value.eval, hw], trivial⟩
  | global name => exact ⟨by rw [← heval, Value.eval, Value.eval, hw], trivial⟩
  | const w c => exact ⟨heval, trivial⟩
  | regFile r => exact ⟨heval, trivial⟩
  | unspec off => exact ⟨heval, trivial⟩

theorem LState.Has.later (h : s.Has rt v x) (hl : Later s rt s₁ rt₁) : s₁.Has rt₁ v x :=
  h.keep hl.next_le hl.env_eq hl.world_eq

theorem has_const (s : LState) (rt : Rt) {w : Nat} (c : BitVec w) :
    s.Has rt (.const w c) (.int c) := ⟨rfl, trivial⟩

theorem LState.Has.evalInt {w : Nat} {y : BitVec w} (h : s.Has rt v (.int y)) :
    v.evalInt rt w = .ok y := by
  rw [Value.evalInt, h.eval]
  exact toInt_int y

theorem LState.Has.evalPtr {p : Ptr} (h : s.Has rt v (.ptr p)) : v.evalPtr rt = .ok p := by
  rw [Value.evalPtr, h.eval]
  rfl

/-! ## The rules -/

/-- `m` returns a value of type `t`; its code makes it `x` and does nothing else. -/
def Computes (m : LiftM Value) (s : LState) (rt : Rt) (x : RVal) (t : Ty) : Prop :=
  m.wp s rt fun v s' rt' => s'.Has rt' v x ∧ v.ty = t ∧ Quiet s rt s' rt'

theorem Computes.bind {m : LiftM Value} {f : Value → LiftM β} {t : Ty} {Q : β → LState → Rt → Prop}
    (h : Computes m s rt x t)
    (hf : ∀ v s₁ rt₁, s₁.Has rt₁ v x → v.ty = t → Quiet s rt s₁ rt₁ → (f v).wp s₁ rt₁ Q) :
    (m >>= f).wp s rt Q :=
  Emit.wp_bind (Emit.wp_mono h fun v s₁ rt₁ ⟨hv, ht, hq⟩ => hf v s₁ rt₁ hv ht hq)

theorem Computes.then {m : LiftM Value} {f : Value → LiftM Value} {t t' : Ty} {y : RVal}
    (h : Computes m s rt x t)
    (hf : ∀ v s₁ rt₁, s₁.Has rt₁ v x → v.ty = t → Quiet s rt s₁ rt₁ → Computes (f v) s₁ rt₁ y t') :
    Computes (m >>= f) s rt y t' :=
  h.bind fun v s₁ rt₁ hv ht hq =>
    Emit.wp_mono (hf v s₁ rt₁ hv ht hq) fun _ _ _ ⟨hv', ht', hq'⟩ => ⟨hv', ht', hq.trans hq'⟩

theorem Computes.pure {t : Ty} (hopen : s.code.Open) (hv : s.Has rt v x) (ht : v.ty = t) :
    Computes (pure v) s rt x t :=
  Emit.wp_pure ⟨hv, ht, Quiet.refl hopen⟩

theorem wp_liftOk {m : LiftM α} {a : α} {Q : α → LState → Rt → Prop} (hm : m.run s = .ok (a, s))
    (hq : Q a s rt) : m.wp s rt Q :=
  Emit.wp_same hm rfl hq

theorem assertThat_run {p : Prop} [Decidable p] (hp : p) (what : String) (s : LState) :
    (assertThat p what).run s = .ok ((), s) := by
  rw [assertThat, if_pos hp]
  rfl

theorem wp_assert {p : Prop} [Decidable p] {what : String} {f : Unit → LiftM α}
    {Q : α → LState → Rt → Prop} (hp : p) (h : (f ()).wp s rt Q) :
    (assertThat p what >>= f).wp s rt Q :=
  Emit.wp_bind (wp_liftOk (assertThat_run hp what s) h)

/-! ## Writing an instruction -/

/-- The builder state after `op` has been written. -/
def LState.push (s : LState) (op : Op) : LState :=
  { s with code := s.code.push ⟨s.next, op⟩, next := s.next + 1 }

theorem emit_run (h : s.code.Open) (op : Op) (ty : Ty) :
    (emit op ty).run s = .ok (.inst s.next ty, s.push op) := by
  simp only [StateT.run, emit, if_pos h, LState.push]

theorem emit_wp {op : Op} {ty : Ty} {Q : Value → LState → Rt → Prop} (h : s.code.Open)
    (hx : Instr.exec ⟨s.next, op⟩ rt = .ok rt₁) (hq : Q (.inst s.next ty) (s.push op) rt₁) :
    (emit op ty).wp s rt Q :=
  Emit.wp_write h (emit_run h op ty) rfl hx hq

theorem has_set (s : LState) (rt : Rt) (op : Op) (ty : Ty) (x : RVal) :
    (s.push op).Has (rt.set s.next x) (.inst s.next ty) x :=
  ⟨by rw [Value.eval, set_env_self], Nat.lt_succ_self _⟩

theorem quiet_set (h : s.code.Open) (op : Op) (x : RVal) :
    Quiet s rt (s.push op) (rt.set s.next x) where
  isOpen := h.push _
  next_le := Nat.le_succ _
  env_eq _ hid := set_env_of_ne rt x (Nat.ne_of_lt hid)
  cells_eq _ _ := rfl
  world_eq := rfl
  regs_eq := rfl
  mem_eq := rfl
  calls_eq := rfl

theorem emit_computes {op : Op} {ty : Ty} (h : s.code.Open)
    (hx : Instr.exec ⟨s.next, op⟩ rt = .ok (rt.set s.next x)) : Computes (emit op ty) s rt x ty :=
  emit_wp h hx ⟨has_set s rt op ty x, rfl, quiet_set h op x⟩

/-! ## Constants -/

theorem unsignedConst_run {val bits : Nat} (h : val < 2 ^ bits) (s : LState) :
    (getUnsignedIntConst val bits).run s = .ok (.const bits (BitVec.ofNat bits val), s) := by
  rw [getUnsignedIntConst, StateT.run_bind, assertThat_run h]
  rfl

theorem signedConst_run {val : Int} {bits : Nat}
    (h : -2 ^ (bits - 1) ≤ val ∧ val < 2 ^ (bits - 1)) (s : LState) :
    (getSignedIntConst val bits).run s = .ok (.const bits (BitVec.ofInt bits val), s) := by
  rw [getSignedIntConst, StateT.run_bind, assertThat_run h]
  rfl

theorem unsignedConst_computes {val bits : Nat} (hopen : s.code.Open) (h : val < 2 ^ bits) :
    Computes (getUnsignedIntConst val bits) s rt (.int (BitVec.ofNat bits val)) (.int bits) :=
  wp_liftOk (unsignedConst_run h s) ⟨has_const s rt _, rfl, Quiet.refl hopen⟩

theorem signedConst_computes {val : Int} {bits : Nat} (hopen : s.code.Open)
    (h : -2 ^ (bits - 1) ≤ val ∧ val < 2 ^ (bits - 1)) :
    Computes (getSignedIntConst val bits) s rt (.int (BitVec.ofInt bits val)) (.int bits) :=
  wp_liftOk (signedConst_run h s) ⟨has_const s rt _, rfl, Quiet.refl hopen⟩

/-! ## Arithmetic -/

section arith

variable {a b : Value} {w : Nat} {y z : BitVec w}

theorem bitWidth_int (h : a.ty = .int w) : a.bitWidth = w := by
  rw [Value.bitWidth, h]
  rfl

theorem bin_exec {o : BinOp} (hta : a.ty = .int w) (ha : s.Has rt a (.int y))
    (hb : s.Has rt b (.int z)) {r : BitVec w} (ho : o.eval y z = .ok r) (n : Nat) :
    Instr.exec ⟨n, .bin o a b⟩ rt = .ok (rt.set n (.int r)) := by
  have he : evalBin rt o w a b = .ok (.int r) := by
    simp only [evalBin, ha.evalInt, hb.evalInt, bind, Except.bind, ho]
    rfl
  simp only [Instr.exec, bitWidth_int hta, he]
  rfl

theorem binop_computes {o : BinOp} (hopen : s.code.Open) (hta : a.ty = .int w)
    (ha : s.Has rt a (.int y)) (hb : s.Has rt b (.int z)) {r : BitVec w} (ho : o.eval y z = .ok r) :
    Computes (createBinop a b o) s rt (.int r) (.int w) := by
  rw [createBinop, hta]
  exact emit_computes hopen (bin_exec hta ha hb ho _)

theorem icmp_exec {p : Pred} (hta : a.ty = .int w) (ha : s.Has rt a (.int y))
    (hb : s.Has rt b (.int z)) (n : Nat) :
    Instr.exec ⟨n, .icmp p a b⟩ rt = .ok (rt.set n (.int (BitVec.ofBool (p.eval y z)))) := by
  have he : evalICmp rt p w a b = .ok (.int (BitVec.ofBool (p.eval y z))) := by
    simp only [evalICmp, ha.evalInt, hb.evalInt]
    rfl
  simp only [Instr.exec, bitWidth_int hta, he]
  rfl

theorem icmp_computes {p : Pred} (hopen : s.code.Open) (hta : a.ty = .int w)
    (ha : s.Has rt a (.int y)) (hb : s.Has rt b (.int z)) :
    Computes (createICmp p a b) s rt (.int (BitVec.ofBool (p.eval y z))) (.int 1) :=
  emit_computes hopen (icmp_exec hta ha hb _)

theorem cast_computes {o : CastOp} {w' : Nat} {r : BitVec w'} (hopen : s.code.Open)
    (hta : a.ty = .int w) (ha : s.Has rt a (.int y)) (ho : o.eval y w' = .ok r) :
    Computes (emit (.cast o a w') (.int w')) s rt (.int r) (.int w') := by
  have he : evalCast rt o w a w' = .ok (.int r) := by
    simp only [evalCast, ha.evalInt, bind, Except.bind, ho]
    rfl
  refine emit_computes hopen ?_
  simp only [Instr.exec, bitWidth_int hta, he]
  rfl

theorem zext_computes {w' : Nat} (hopen : s.code.Open) (hta : a.ty = .int w)
    (ha : s.Has rt a (.int y)) (hw : w < w') :
    Computes (createZExt a w') s rt (.int (y.setWidth w')) (.int w') :=
  cast_computes hopen hta ha (by rw [CastOp.eval, if_pos hw])

theorem sext_computes {w' : Nat} (hopen : s.code.Open) (hta : a.ty = .int w)
    (ha : s.Has rt a (.int y)) (hw : w < w') :
    Computes (createSExt a w') s rt (.int (y.signExtend w')) (.int w') :=
  cast_computes hopen hta ha (by rw [CastOp.eval, if_pos hw])

theorem trunc_computes {w' : Nat} (hopen : s.code.Open) (hta : a.ty = .int w)
    (ha : s.Has rt a (.int y)) (hw : w' ≤ w) :
    Computes (createTrunc a w') s rt (.int (y.setWidth w')) (.int w') := by
  rw [createTrunc]
  rcases Nat.lt_or_ge w' w with hlt | hge
  · rw [if_neg (by rw [hta]; simp only [Ty.int.injEq]; omega)]
    exact cast_computes hopen hta ha (by rw [CastOp.eval, if_pos hlt])
  · obtain rfl : w' = w := Nat.le_antisymm hw hge
    rw [if_pos hta, BitVec.setWidth_eq]
    exact Computes.pure hopen ha hta

theorem bswap_computes (hopen : s.code.Open) (hta : a.ty = .int w) (ha : s.Has rt a (.int y)) :
    Computes (createBSwap a) s rt (.int (bswap y)) (.int w) := by
  rw [createBSwap, hta]
  have he : evalBSwap rt w a = .ok (.int (bswap y)) := by
    simp only [evalBSwap, ha.evalInt]
    rfl
  refine emit_computes hopen ?_
  simp only [Instr.exec, bitWidth_int hta, he]
  rfl

/-- The mask of a shift amount keeps it below the width. -/
theorem masked_computes {o : BinOp} (hopen : s.code.Open) (hta : a.ty = .int w) (htb : b.ty = .int w)
    (ha : s.Has rt a (.int y)) (hb : s.Has rt b (.int z)) {r : BitVec w}
    (ho : o.eval y (BitVec.ofNat w (w - 1) &&& z) = .ok r) :
    Computes (createMasked o a b) s rt (.int r) (.int w) := by
  rw [createMasked, bitWidth_int hta]
  refine wp_assert (hta.trans htb.symm) ?_
  have hlt : w - 1 < 2 ^ w := lt_of_le_of_lt (Nat.sub_le w 1) Nat.lt_two_pow_self
  refine (unsignedConst_computes hopen hlt).then fun m s₁ rt₁ hm htm q₁ => ?_
  refine (binop_computes q₁.isOpen htm hm (hb.later q₁.toLater) rfl).then fun c s₂ rt₂ hc _ q₂ => ?_
  exact binop_computes q₂.isOpen hta (ha.later (q₁.trans q₂).toLater) hc ho

end arith

/-! ## Registers and cells -/

theorem loadReg_computes (hopen : s.code.Open) (r : Fin 12) :
    Computes (createLoad (.int 64) (.regFile r)) s rt (.int (rt.regs r)) (.int 64) :=
  emit_computes hopen rfl

theorem loadPtrReg_computes (hopen : s.code.Open) (r : Fin 12) :
    Computes (createLoad .ptr (.regFile r)) s rt (.ptr (.flat (rt.regs r))) .ptr :=
  emit_computes hopen rfl

theorem storeReg_wp {r : Fin 12} {y : BitVec 64} {Q : Unit → LState → Rt → Prop}
    (hopen : s.code.Open) (hv : s.Has rt v (.int y))
    (hq : ∀ s', s'.next = s.next + 1 → s'.unspecifiedOff = s.unspecifiedOff →
      s'.globals = s.globals → Later s rt s' (rt.setReg r y) → Q () s' (rt.setReg r y)) :
    (createStore v (.regFile r)).wp s rt Q := by
  have hx : Instr.exec ⟨s.next, .store v (.regFile r)⟩ rt = .ok (rt.setReg r y) := by
    show (v.eval rt >>= fun u => (Value.regFile r).evalPtr rt >>= rt.store u) = _
    rw [hv.eval]
    show ((RVal.int y).toInt 64).map (rt.setReg r) = _
    rw [toInt_int]
    rfl
  rw [createStore]
  refine Emit.wp_bind (emit_wp hopen hx (Emit.wp_pure (hq _ rfl rfl rfl ?_)))
  exact ⟨hopen.push _, Nat.le_succ _, fun _ _ => rfl, fun _ _ => rfl, rfl⟩

/-! ## Checked division

The division sits in a block of its own, which the guard skips for the undefined cases; the result
travels through an alloca. -/

namespace LState

def close (s : LState) (t : Term) : LState := { s with code := s.code.close t }

def newBlock (s : LState) : LState := { s with code := s.code.newBlock }

def setBlock (s : LState) (k : Nat) : LState := { s with code := s.code.setBlock k }

@[simp] theorem push_code (s : LState) (op : Op) : (s.push op).code = s.code.push ⟨s.next, op⟩ := rfl
@[simp] theorem close_code (s : LState) (t : Term) : (s.close t).code = s.code.close t := rfl
@[simp] theorem newBlock_code (s : LState) : s.newBlock.code = s.code.newBlock := rfl
@[simp] theorem setBlock_code (s : LState) (k : Nat) : (s.setBlock k).code = s.code.setBlock k := rfl
@[simp] theorem push_next (s : LState) (op : Op) : (s.push op).next = s.next + 1 := rfl
@[simp] theorem close_next (s : LState) (t : Term) : (s.close t).next = s.next := rfl
@[simp] theorem newBlock_next (s : LState) : s.newBlock.next = s.next := rfl
@[simp] theorem setBlock_next (s : LState) (k : Nat) : (s.setBlock k).next = s.next := rfl

end LState

theorem terminate_run (h : s.code.Open) (t : Term) : (terminate t).run s = .ok ((), s.close t) := by
  simp only [StateT.run, terminate, if_pos h, LState.close]

theorem createBlock_run (s : LState) :
    createBlock.run s = .ok (s.code.blocks.length, s.newBlock) := rfl

theorem setLLVMBB_run (s : LState) (k : Nat) : (setLLVMBB k).run s = .ok ((), s.setBlock k) := rfl

theorem wp_emit {op : Op} {ty : Ty} {f : Value → LiftM β} {Q : β → LState → Rt → Prop}
    (h : s.code.Open) (hx : Instr.exec ⟨s.next, op⟩ rt = .ok rt₁)
    (hf : (f (.inst s.next ty)).wp (s.push op) rt₁ Q) : (emit op ty >>= f).wp s rt Q :=
  Emit.wp_bind (emit_wp h hx hf)

theorem Quiet.set (h : Quiet s rt s₁ rt₁) (op : Op) (x : RVal) :
    Quiet s rt (s₁.push op) (rt₁.set s₁.next x) :=
  h.trans (quiet_set h.isOpen op x)

theorem Quiet.setCell (h : Quiet s rt s₁ rt₁) (op : Op) (hid : s.next ≤ id) (x : RVal) :
    Quiet s rt (s₁.push op) (rt₁.setCell id x) where
  isOpen := h.isOpen.push _
  next_le := h.next_le.trans (Nat.le_succ _)
  env_eq := h.env_eq
  cells_eq k hk := by
    rw [← h.cells_eq k hk]
    exact Function.update_of_ne (by omega) _ _
  world_eq := h.world_eq
  regs_eq := h.regs_eq
  mem_eq := h.mem_eq
  calls_eq := h.calls_eq

theorem Quiet.move (h : Quiet s rt s₁ rt₁) (hopen : s₂.code.Open) (hn : s₁.next ≤ s₂.next) :
    Quiet s rt s₂ rt₁ :=
  ⟨⟨hopen, h.next_le.trans hn, h.env_eq, h.cells_eq, h.world_eq⟩, h.regs_eq, h.mem_eq, h.calls_eq⟩

theorem storeCell_exec (hv : v.eval rt = .ok x) (hp : p.eval rt = .ok (.ptr (.cell id))) :
    Instr.exec ⟨n, .store v p⟩ rt = .ok (rt.setCell id x) := by
  show (v.eval rt >>= fun u => p.evalPtr rt >>= rt.store u) = _
  rw [hv, Value.evalPtr, hp]
  rfl

theorem loadCell_exec {ty : Ty} (hp : p.eval rt = .ok (.ptr (.cell id)))
    (hx : rt.cells id = some x) : Instr.exec ⟨n, .load ty p⟩ rt = .ok (rt.set n x) := by
  have hl : rt.load ty (.cell id) = .ok x := by
    simp only [Rt.load, hx]
  show (p.evalPtr rt >>= fun q => rt.load ty q >>= fun v => pure (rt.set n v)) = _
  rw [Value.evalPtr, hp]
  show (rt.load ty (.cell id) >>= fun v => pure (rt.set n v)) = _
  rw [hl]
  rfl

theorem condBr_jump {c : Value} {q : Bool} {t f : Target}
    (hc : c.eval rt = .ok (.int (BitVec.ofBool q))) :
    Term.jump (.condBr c t f) rt = .ok (if q then t.local? else f.local?) := by
  show (c.evalInt rt 1 >>= fun x => pure (if x = 1 then t.local? else f.local?)) = _
  rw [Value.evalInt, hc]
  show ((RVal.int (BitVec.ofBool q)).toInt 1 >>= fun x =>
    pure (if x = 1 then t.local? else f.local?)) = _
  rw [toInt_int]
  cases q <;> rfl

section checked

variable {s₀ : LState} {rt₀ : Rt} {o : BinOp} {a b z : Value} {w : Nat} {x y d e r : BitVec w}
  {ks : List Nat} {k l : Nat} {Q : β → LState → Rt → Prop}

/-- `p` is the result cell, made after `s₀`, and holds `d`. -/
structure Cell (s₀ s : LState) (rt : Rt) (p : Value) (id : Nat) (d : BitVec w) : Prop where
  has : s.Has rt p (.ptr (.cell id))
  new : s₀.next ≤ id
  val : rt.cells id = some (.int d)

theorem Cell.move {p : Value} (h : Cell s₀ s rt p id d) (hn : s.next ≤ s₁.next) :
    Cell s₀ s₁ rt p id d :=
  ⟨h.has.keep hn (fun _ _ => rfl) rfl, h.new, h.val⟩

theorem Cell.later {p : Value} (h : Cell s₀ s rt p id d) (hc : rt₁.cells = rt.cells)
    (hl : Later s rt s₁ rt₁) : Cell s₀ s₁ rt₁ p id d :=
  ⟨h.has.later hl, h.new, hc ▸ h.val⟩

theorem wpAt_emit {op : Op} {ty : Ty} {f : Value → LiftM β} (h : s.code.Open)
    (hf : Emit.wpAt ir LState.code k (f (.inst s.next ty)) (s.push op) rt Q) :
    Emit.wpAt ir LState.code k (emit op ty >>= f) s rt Q :=
  Emit.wpAt_skip (emit_run h op ty) (Emit.Code.le_push h _) hf

/-- The result cell with the value for a zero divisor, and the test for it. -/
theorem guard_wp {f : Value → Value → LiftM β} (hw : s.code.Await ks) (hq : Quiet s₀ rt₀ s rt)
    (htb : b.ty = .int w) (hb : s.Has rt b (.int y)) (hz : s.Has rt z (.int d))
    (hf : ∀ s' rt' p c id, s'.code.Await ks → Quiet s₀ rt₀ s' rt' → Later s rt s' rt' →
      Cell s₀ s' rt' p id d → s'.Has rt' c (.int (BitVec.ofBool (y == 0))) → (f p c).wp s' rt' Q) :
    (do
      let p ← createAlloca
      createStore z p
      let c ← createICmp .eq b (.const w (BitVec.ofNat w 0))
      f p c).wp s rt Q := by
  rw [createAlloca]
  refine wp_emit hw.1 rfl ?_
  have q₁ : Quiet s rt _ _ := (Quiet.refl hw.1).set .alloca (.ptr (.cell s.next))
  have hp := has_set s rt .alloca .ptr (.ptr (.cell s.next))
  rw [createStore, bind_assoc]
  refine wp_emit q₁.isOpen (storeCell_exec (hz.later q₁.toLater).eval hp.eval) ?_
  have q₂ := q₁.setCell (.store z (.inst s.next .ptr)) le_rfl (.int d)
  rw [pure_bind, createICmp]
  refine wp_emit q₂.isOpen (icmp_exec htb (hb.later q₂.toLater) (has_const _ _ (BitVec.ofNat w 0)) _) ?_
  have q₃ := q₂.set (.icmp .eq b (.const w (BitVec.ofNat w 0))) (.int (BitVec.ofBool (y == 0)))
  have hkept : ((s.push .alloca).push (.store z (.inst s.next .ptr))).Has
      ((rt.set s.next (.ptr (.cell s.next))).setCell s.next (.int d)) (.inst s.next .ptr)
      (.ptr (.cell s.next)) := hp.keep (Nat.le_succ _) (fun _ _ => rfl) rfl
  have hcell := hkept.later (quiet_set q₂.isOpen (.icmp .eq b (.const w (BitVec.ofNat w 0)))
    (.int (BitVec.ofBool (y == 0)))).toLater
  exact hf _ _ _ _ s.next (((hw.push _).push _).push _) (hq.trans q₃) q₃.toLater
    ⟨hcell, hq.next_le, by simp [Rt.setCell]⟩ (has_set _ _ _ _ _)

theorem storeCell_wp {f : Unit → LiftM β} {p : Value} (hw : s.code.Await ks)
    (hq : Quiet s₀ rt₀ s rt) (hc : Cell s₀ s rt p id d) (hv : s.Has rt v (.int e))
    (hf : ∀ s' rt', s'.code.Await ks → Quiet s₀ rt₀ s' rt' → Cell s₀ s' rt' p id e →
      (f ()).wp s' rt' Q) :
    (createStore v p >>= f).wp s rt Q := by
  rw [createStore, bind_assoc]
  refine wp_emit hq.isOpen (storeCell_exec hv.eval hc.has.eval) ?_
  rw [pure_bind]
  have q := hq.setCell (.store v p) hc.new (.int e)
  exact hf _ _ (hw.push _) q
    ⟨hc.has.keep (Nat.le_succ _) (fun _ _ => rfl) rfl, hc.new, by simp [Rt.setCell]⟩

theorem loadCell_wp {p : Value} (hq : Quiet s₀ rt₀ s rt) (hc : Cell s₀ s rt p id r) :
    (createLoad (.int w) p).wp s rt fun v s' rt' =>
      s'.Has rt' v (.int r) ∧ v.ty = .int w ∧ Quiet s₀ rt₀ s' rt' :=
  emit_wp hq.isOpen (loadCell_exec hc.has.eval hc.val) ⟨has_set _ _ _ _ _, rfl, hq.set _ _⟩

theorem terminate_jump {t : Term} {f : Unit → LiftM β} (h : s.code.Open)
    (hx : t.jump rt = .ok (some k)) (hf : Emit.wpAt ir LState.code k (f ()) (s.close t) rt Q) :
    (terminate t >>= f).wp s rt Q :=
  Emit.wp_jump h (terminate_run h t) rfl hx hf

theorem wpAt_store {v p : Value} {f : Unit → LiftM β} (h : s.code.Open)
    (hf : Emit.wpAt ir LState.code k (f ()) (s.push (.store v p)) rt Q) :
    Emit.wpAt ir LState.code k (createStore v p >>= f) s rt Q := by
  rw [createStore, bind_assoc]
  exact wpAt_emit h hf

theorem wpAt_terminate {t : Term} {f : Unit → LiftM β} (h : s.code.Open)
    (hf : Emit.wpAt ir LState.code k (f ()) (s.close t) rt Q) :
    Emit.wpAt ir LState.code k (terminate t >>= f) s rt Q :=
  Emit.wpAt_skip (terminate_run h t) (Emit.Code.le_close h t) hf

theorem wpAt_setLLVMBB {f : Unit → LiftM β}
    (hf : Emit.wpAt ir LState.code k (f ()) (s.setBlock l) rt Q) :
    Emit.wpAt ir LState.code k (setLLVMBB l >>= f) s rt Q :=
  Emit.wpAt_skip (setLLVMBB_run s l) (Emit.Code.le_setBlock _ l) hf

theorem wpAt_arrive {f : Unit → LiftM β} (he : s.code.Empty k) (hf : (f ()).wp (s.setBlock k) rt Q) :
    Emit.wpAt ir LState.code k (setLLVMBB k >>= f) s rt Q :=
  Emit.wpAt_here (setLLVMBB_run s k) rfl he hf

/-- The block of the division, and the way back to the last block. -/
def divPart (op : Value → Value → LiftM Value) (a b p : Value) (divBB retBB : Nat)
    (rest : LiftM β) : LiftM β := do
  setLLVMBB divBB
  let divResult ← op a b
  createStore divResult p
  createBranch (.sub retBB)
  setLLVMBB retBB
  rest

variable {p : Value} {divBB retBB : Nat} {rest : LiftM β}

theorem divPart_skip (he : s.code.Empty divBB) (he' : s.code.Empty retBB) (hne : divBB ≠ retBB)
    (hr : ∀ s', s'.code.Open → s.next ≤ s'.next → rest.wp s' rt Q) :
    Emit.wpAt ir LState.code retBB (divPart (createBinop · · o) a b p divBB retBB rest) s rt Q := by
  have w₁ : (s.setBlock divBB).code.Await [retBB] := ⟨he.open, by simpa using ⟨he', hne⟩⟩
  refine wpAt_setLLVMBB (wpAt_emit w₁.1 ?_)
  refine wpAt_store (w₁.push _).1 (wpAt_terminate ((w₁.push _).push _).1 ?_)
  have he₂ := ((w₁.push ⟨s.next, .bin o a b⟩).push ⟨s.next + 1, .store (.inst s.next a.ty) p⟩).empty_close
    (.br (.sub retBB)) (List.mem_singleton.mpr rfl)
  exact wpAt_arrive he₂ (hr _ he₂.open (by simp only [LState.setBlock_next, LState.close_next, LState.push_next]; omega))

/-- The machine goes through the division. -/
theorem divPart_run (he : s.code.Empty divBB) (he' : s.code.Empty retBB) (hne : divBB ≠ retBB)
    (hq : Quiet s₀ rt₀ (s.setBlock divBB) rt) (hc : Cell s₀ s rt p id d) (hta : a.ty = .int w)
    (ha : s.Has rt a (.int x)) (hb : s.Has rt b (.int y)) (ho : o.eval x y = .ok r)
    (hr : ∀ s' rt', Quiet s₀ rt₀ s' rt' → Cell s₀ s' rt' p id r → rest.wp s' rt' Q) :
    Emit.wpAt ir LState.code divBB (divPart (createBinop · · o) a b p divBB retBB rest) s rt Q := by
  have w₁ : (s.setBlock divBB).code.Await [retBB] := ⟨he.open, by simpa using ⟨he', hne⟩⟩
  have q₂ : Quiet (s.setBlock divBB) rt _ _ := quiet_set he.open (.bin o a b) (.int r)
  refine wpAt_arrive he (wp_emit he.open (bin_exec hta ha hb ho s.next) ?_)
  have hc₁ : Cell s₀ (s.setBlock divBB) rt p id d := hc.move le_rfl
  refine storeCell_wp (w₁.push _) (hq.trans q₂) (hc₁.later rfl q₂.toLater) (has_set _ _ _ _ _) ?_
  intro s₃ rt₃ w₃ q₃ hc₃
  have he₃ : (s₃.close (.br (.sub retBB))).code.Empty retBB := w₃.empty_close _ (by simp)
  exact terminate_jump w₃.1 rfl (wpAt_arrive he₃ (hr _ _ (q₃.move he₃.open le_rfl) (hc₃.move le_rfl)))

theorem checkedUnsigned_computes (hopen : s.code.Open) (hta : a.ty = .int w) (htb : b.ty = .int w)
    (ha : s.Has rt a (.int x)) (hb : s.Has rt b (.int y)) (hz : s.Has rt z (.int d))
    (h0 : y = 0 → r = d) (h1 : y ≠ 0 → o.eval x y = .ok r) :
    Computes (createCheckedUnsigned (createBinop · · o) a b z) s rt (.int r) (.int w) := by
  rw [createCheckedUnsigned, bitWidth_int hta, bitWidth_int htb]
  refine wp_assert rfl ?_
  refine Emit.wp_bind (Emit.wp_of_seg (createBlock_run s) (Emit.Code.Seg.newBlock hopen) ?_)
  refine Emit.wp_bind (Emit.wp_of_seg (createBlock_run _) (Emit.Code.Seg.newBlock hopen.newBlock) ?_)
  generalize hdiv : s.code.blocks.length = divBB
  generalize hret : s.newBlock.code.blocks.length = retBB
  have hne : divBB ≠ retBB := by simp [← hret, ← hdiv]
  have w₀ : s.newBlock.newBlock.code.Await [retBB, divBB] := by
    rw [← hdiv, ← hret]
    exact (Emit.Code.Await.newBlock ⟨hopen, by simp⟩).newBlock
  have q₀ : Quiet s rt s.newBlock.newBlock rt := (Quiet.refl hopen).move w₀.1 le_rfl
  refine Emit.wp_bind (wp_liftOk (unsignedConst_run (Nat.two_pow_pos w) _) ?_)
  refine guard_wp w₀ q₀ htb (hb.later q₀.toLater) (hz.later q₀.toLater)
    fun s₁ rt₁ p c id w₁ q₁ _ hp hc => ?_
  have hjump := condBr_jump (t := .sub retBB) (f := .sub divBB) hc.eval
  have hed : ∀ t, (s₁.close t).code.Empty divBB := fun t => w₁.empty_close t (by simp)
  have her : ∀ t, (s₁.close t).code.Empty retBB := fun t => w₁.empty_close t (by simp)
  by_cases hy : y = 0
  · obtain rfl := h0 hy
    rw [if_pos (beq_iff_eq.mpr hy)] at hjump
    refine terminate_jump w₁.1 hjump (divPart_skip (hed _) (her _) hne fun s₂ o₂ hn => ?_)
    exact loadCell_wp (q₁.move o₂ hn) (hp.move hn)
  · rw [if_neg (by simpa using hy)] at hjump
    refine terminate_jump w₁.1 hjump (divPart_run (hed _) (her _) hne (q₁.move (hed _).open le_rfl)
      (hp.move le_rfl) hta ((ha.later q₁.toLater).keep le_rfl (fun _ _ => rfl) rfl)
      ((hb.later q₁.toLater).keep le_rfl (fun _ _ => rfl) rfl) (h1 hy) fun s₂ rt₂ q₂ hp₂ => ?_)
    exact loadCell_wp q₂ hp₂

theorem overflowTest_wp {f : Value → LiftM β} (hw : s.code.Await ks) (hta : a.ty = .int w)
    (htb : b.ty = .int w) (ha : s.Has rt a (.int x)) (hb : s.Has rt b (.int y))
    (hf : ∀ s' rt' c, s'.code.Await ks → Quiet s rt s' rt' → rt'.cells = rt.cells →
      s'.Has rt' c (.int (BitVec.ofBool (x == BitVec.intMin w && y == BitVec.allOnes w))) →
      (f c).wp s' rt' Q) :
    (do
      let l ← createICmp .eq a (getSignedMinConst w)
      let r ← createICmp .eq b (getAllOnesConst w)
      let c ← createAnd l r
      f c).wp s rt Q := by
  rw [createICmp, createICmp]
  refine wp_emit hw.1 (icmp_exec hta ha (has_const s rt (BitVec.intMin w)) _) ?_
  have q₁ : Quiet s rt _ _ := quiet_set hw.1 (.icmp .eq a (getSignedMinConst w))
    (.int (BitVec.ofBool (x == BitVec.intMin w)))
  have hl := has_set s rt (.icmp .eq a (getSignedMinConst w)) (.int 1)
    (.int (BitVec.ofBool (x == BitVec.intMin w)))
  refine wp_emit q₁.isOpen (icmp_exec htb (hb.later q₁.toLater) (has_const _ _ (BitVec.allOnes w)) _) ?_
  have q₂ : Quiet _ (rt.set s.next (.int (BitVec.ofBool (x == BitVec.intMin w)))) _ _ :=
    quiet_set q₁.isOpen (.icmp .eq b (getAllOnesConst w))
      (.int (BitVec.ofBool (y == BitVec.allOnes w)))
  rw [createAnd, createBinop]
  refine wp_emit q₂.isOpen (bin_exec rfl (hl.later q₂.toLater) (has_set _ _ _ _ _) rfl _) ?_
  refine hf _ _ _ (((hw.push _).push _).push _) ((q₁.trans q₂).set _ _) rfl ?_
  rw [← BitVec.ofBool_and_ofBool]
  exact has_set _ _ _ _ _

theorem checkedSigned_computes (hopen : s.code.Open) (hta : a.ty = .int w) (htb : b.ty = .int w)
    (ha : s.Has rt a (.int x)) (hb : s.Has rt b (.int y)) (hz : s.Has rt z (.int d))
    {z' : Value} (hz' : s.Has rt z' (.int e)) (h0 : y = 0 → r = d)
    (h1 : x = BitVec.intMin w → y = BitVec.allOnes w → r = e)
    (h2 : y ≠ 0 → ¬(x = BitVec.intMin w ∧ y = BitVec.allOnes w) → o.eval x y = .ok r) :
    Computes (createCheckedSigned (createBinop · · o) a b z z') s rt (.int r) (.int w) := by
  rw [createCheckedSigned, bitWidth_int hta, bitWidth_int htb]
  refine wp_assert rfl ?_
  have o₁ := hopen.newBlock
  have o₂ := o₁.newBlock
  refine Emit.wp_bind (Emit.wp_of_seg (createBlock_run s) (Emit.Code.Seg.newBlock hopen) ?_)
  refine Emit.wp_bind (Emit.wp_of_seg (createBlock_run _) (Emit.Code.Seg.newBlock o₁) ?_)
  refine Emit.wp_bind (Emit.wp_of_seg (createBlock_run _) (Emit.Code.Seg.newBlock o₂) ?_)
  refine Emit.wp_bind (Emit.wp_of_seg (createBlock_run _) (Emit.Code.Seg.newBlock o₂.newBlock) ?_)
  generalize hchk : s.code.blocks.length = checkBB
  generalize hovf : s.newBlock.code.blocks.length = overflowBB
  generalize hdiv : s.newBlock.newBlock.code.blocks.length = divBB
  generalize hret : s.newBlock.newBlock.newBlock.code.blocks.length = retBB
  have hne : checkBB + 1 = overflowBB ∧ checkBB + 2 = divBB ∧ checkBB + 3 = retBB := by
    simp [← hret, ← hdiv, ← hovf, ← hchk]
  generalize hs' : s.newBlock.newBlock.newBlock.newBlock = s'
  have w₀ : s'.code.Await [retBB, divBB, overflowBB, checkBB] := by
    rw [← hchk, ← hovf, ← hdiv, ← hret, ← hs']
    exact (Emit.Code.Await.newBlock ⟨hopen, by simp⟩).newBlock.newBlock.newBlock
  have q₀ : Quiet s rt s' rt := (Quiet.refl hopen).move w₀.1 (by rw [← hs']; rfl)
  refine Emit.wp_bind (wp_liftOk (unsignedConst_run (Nat.two_pow_pos w) _) ?_)
  refine guard_wp w₀ q₀ htb (hb.later q₀.toLater) (hz.later q₀.toLater)
    fun s₁ rt₁ p c id w₁ q₁ _ hp hc => ?_
  have w₂ : ∀ t : Term, ((s₁.close t).setBlock checkBB).code.Await [retBB, divBB, overflowBB] :=
    fun t => w₁.setBlock t (by simp) (by simp; omega)
  have hjump := condBr_jump (t := .sub retBB) (f := .sub checkBB) hc.eval
  by_cases hy : y = 0
  · obtain rfl := h0 hy
    rw [if_pos (beq_iff_eq.mpr hy)] at hjump
    refine terminate_jump w₁.1 hjump (wpAt_setLLVMBB (wpAt_emit (w₂ _).1 ?_))
    refine wpAt_emit ((w₂ _).push _).1 (wpAt_emit (((w₂ _).push _).push _).1 ?_)
    have w₃ := (((w₂ (.condBr c (.sub retBB) (.sub checkBB))).push ⟨s₁.next, .icmp .eq a (getSignedMinConst w)⟩).push
      ⟨s₁.next + 1, .icmp .eq b (getAllOnesConst w)⟩).push
      ⟨s₁.next + 2, .bin .and (.inst s₁.next (.int 1)) (.inst (s₁.next + 1) (.int 1))⟩
    refine wpAt_terminate w₃.1 (wpAt_setLLVMBB ?_)
    have w₄ : ∀ t : Term, ((_ : Region).close t |>.setBlock overflowBB).Await [retBB, divBB] :=
      fun t => w₃.setBlock t (by simp) (by simp; omega)
    refine wpAt_store (w₄ _).1 (wpAt_terminate ((w₄ _).push _).1 ?_)
    refine divPart_skip (((w₄ _).push _).empty_close _ (by simp)) (((w₄ _).push _).empty_close _ (by simp)) (by omega)
      fun s₂ o₂ hn => ?_
    have hn : s₁.next ≤ s₂.next := by
      refine le_trans ?_ hn
      simp
      omega
    exact loadCell_wp (q₁.move o₂ hn) (hp.move hn)
  · rw [if_neg (by simpa using hy)] at hjump
    refine terminate_jump w₁.1 hjump (wpAt_arrive (w₁.empty_close _ (by simp)) ?_)
    have q₂ : Quiet s₁ rt₁ ((s₁.close (.condBr c (.sub retBB) (.sub checkBB))).setBlock checkBB) rt₁ :=
      (Quiet.refl w₁.1).move (w₂ _).1 le_rfl
    refine overflowTest_wp (w₂ _) hta htb ((ha.later q₁.toLater).later q₂.toLater)
      ((hb.later q₁.toLater).later q₂.toLater) fun s₃ rt₃ c' w₃ q₃ hcells hc' => ?_
    have q₄ := q₁.trans (q₂.trans q₃)
    have hp₃ : Cell s s₃ rt₃ p id d := hp.later hcells (q₂.trans q₃).toLater
    have w₄ : ∀ t : Term, ((s₃.close t).setBlock overflowBB).code.Await [retBB, divBB] :=
      fun t => w₃.setBlock t (by simp) (by simp; omega)
    have hjump' := condBr_jump (t := .sub overflowBB) (f := .sub divBB) hc'.eval
    by_cases hov : x = BitVec.intMin w ∧ y = BitVec.allOnes w
    · obtain rfl := h1 hov.1 hov.2
      rw [if_pos (by simpa using hov)] at hjump'
      refine terminate_jump w₃.1 hjump' (wpAt_arrive (w₃.empty_close _ (by simp)) ?_)
      refine storeCell_wp (w₄ _) (q₄.move (w₄ _).1 le_rfl) (hp₃.move le_rfl)
        ((hz'.later q₄.toLater).keep le_rfl (fun _ _ => rfl) rfl) fun s₅ rt₅ w₅ q₅ hp₅ => ?_
      refine terminate_jump w₅.1 rfl (divPart_skip (w₅.empty_close _ (by simp))
        (w₅.empty_close _ (by simp)) (by omega) fun s₆ o₆ hn => ?_)
      exact loadCell_wp (q₅.move o₆ hn) (hp₅.move hn)
    · rw [if_neg (by simpa using hov)] at hjump'
      refine terminate_jump w₃.1 hjump' (wpAt_setLLVMBB (wpAt_store (w₄ _).1 ?_))
      have w₅ := (w₄ (.condBr c' (.sub overflowBB) (.sub divBB))).push ⟨s₃.next, .store z' p⟩
      have he : ∀ k ∈ [retBB, divBB], ((((s₃.close (.condBr c' (.sub overflowBB) (.sub divBB))).setBlock
          overflowBB).push (.store z' p)).close (.br (.sub retBB))).code.Empty k := fun k hk =>
        w₅.empty_close _ hk
      refine wpAt_terminate w₅.1 (divPart_run (he _ (by simp)) (he _ (by simp)) (by omega)
        (q₄.move (he _ (by simp)).open (Nat.le_succ _)) (hp₃.move (Nat.le_succ _)) hta
        ((ha.later q₄.toLater).keep (Nat.le_succ _) (fun _ _ => rfl) rfl)
        ((hb.later q₄.toLater).keep (Nat.le_succ _) (fun _ _ => rfl) rfl) (h2 hy hov)
        fun s₆ rt₆ q₆ hp₆ => ?_)
      exact loadCell_wp q₆ hp₆

end checked
end BpfTv
