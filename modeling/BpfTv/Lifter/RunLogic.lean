import BpfTv.Lifter.BuilderSpec

/-!
# Facts about lifting

`Sat R E m Q`: when the action `m` succeeds, its builder states are related by `R` and its result
satisfies `Q`; when it stops, its error is in `E`. A relation that is `Compat` with the few primitive actions
relates the states before and after `lift` of every instruction that is not a terminator (`lift_sat`),
whatever the instruction; a terminator is a computation of that kind followed by `terminate`. What only
`Emits` may not tolerate the lookup of every symbol, but that of the symbols of one module (`lift_sat_of`).
-/

namespace BpfTv

variable {α β : Type} {R : LState → LState → Prop} {E : Set LiftError} {Q Q' : α → Prop} {P : β → Prop}
  {s s' : LState}

/-! ## Errors of the operands -/

theorem except_bind_error {x : Except LiftError α} {f : α → Except LiftError β} {e : LiftError}
    (h : x >>= f = .error e) : x = .error e ∨ ∃ a, x = .ok a ∧ f a = .error e := by
  cases x with
  | error e' =>
    cases h
    exact Or.inl rfl
  | ok a => exact Or.inr ⟨a, rfl, h⟩

theorem getOperand_error {I : MCInst} {idx : Nat} {e : LiftError} (h : I.getOperand idx = .error e) :
    ∃ what, e = .assertion what := by
  unfold MCInst.getOperand at h
  split at h <;> cases h
  exact ⟨_, rfl⟩

theorem getBBByName_error {env : Env} {name : String} {e : LiftError} (h : getBBByName env name = .error e) :
    ∃ what, e = .assertion what := by
  unfold getBBByName at h
  split at h <;> cases h
  exact ⟨_, rfl⟩

theorem getTargetSym_error {I : MCInst} {idx : Nat} {e : LiftError} (h : getTargetSym I idx = .error e) :
    ∃ what, e = .assertion what := by
  rcases except_bind_error h with h | ⟨op, _, h⟩
  · exact getOperand_error h
  split at h <;> cases h <;> exact ⟨_, rfl⟩

theorem getBranchTargetsOperand_error {env : Env} {I : MCInst} {idx : Nat} {e : LiftError}
    (h : getBranchTargetsOperand env I idx = .error e) : ∃ what, e = .assertion what := by
  rcases except_bind_error h with h | ⟨sym, _, h⟩
  · exact getTargetSym_error h
  rcases except_bind_error h with h | ⟨t, _, h⟩
  · exact getBBByName_error h
  split at h
  · rcases except_bind_error h with h | ⟨f, _, h⟩
    · exact getBBByName_error h
    · cases h
  · cases h
    exact ⟨_, rfl⟩

theorem jumpTarget_error {env : Env} {I : MCInst} {e : LiftError} (h : jumpTarget env I = .error e) :
    ∃ what, e = .assertion what := by
  rcases except_bind_error h with h | ⟨op, _, h⟩
  · exact getOperand_error h
  split at h
  · rcases except_bind_error h with h | ⟨sym, _, h⟩
    · exact getTargetSym_error h
    split at h <;> cases h
    exact ⟨_, rfl⟩
  · split at h
    · exact getBBByName_error h
    · cases h
      exact ⟨_, rfl⟩

/-! ## The predicate -/

/-- When `m` succeeds, the states are related by `R` and the result satisfies `Q`; otherwise its error is
in `E`. -/
structure Sat (R : LState → LState → Prop) (E : Set LiftError) (m : LiftM α) (Q : α → Prop) : Prop where
  ok : ∀ s a s', m.run s = .ok (a, s') → R s s' ∧ Q a
  error : ∀ s e, m.run s = .error e → e ∈ E

instance {m : LiftM α} : CoeFun (Sat R E m Q) fun _ => ∀ s a s', m.run s = .ok (a, s') → R s s' ∧ Q a :=
  ⟨Sat.ok⟩

theorem Sat.of_ok {m : LiftM α} (h : ∀ s a s', m.run s = .ok (a, s') → R s s' ∧ Q a) : Sat R .univ m Q :=
  ⟨h, fun _ _ _ => trivial⟩

theorem run_bind_ok {m : LiftM α} {f : α → LiftM β} {b : β} {s'' : LState}
    (h : (m >>= f).run s = .ok (b, s'')) :
    ∃ a s', m.run s = .ok (a, s') ∧ (f a).run s' = .ok (b, s'') := by
  rw [StateT.run_bind] at h
  cases hm : m.run s with
  | error e =>
    rw [hm] at h
    cases h
  | ok r =>
    obtain ⟨a, s₁⟩ := r
    rw [hm] at h
    exact ⟨a, s₁, rfl, h⟩

theorem run_bind_error {m : LiftM α} {f : α → LiftM β} {e : LiftError} (h : (m >>= f).run s = .error e) :
    m.run s = .error e ∨ ∃ a s', m.run s = .ok (a, s') ∧ (f a).run s' = .error e := by
  rw [StateT.run_bind] at h
  cases hm : m.run s with
  | error e' =>
    rw [hm] at h
    cases h
    exact Or.inl rfl
  | ok r =>
    obtain ⟨a, s₁⟩ := r
    rw [hm] at h
    exact Or.inr ⟨a, s₁, rfl, h⟩

theorem Sat.mono {m : LiftM α} (h : Sat R E m Q) (hq : ∀ a, Q a → Q' a) : Sat R E m Q' :=
  ⟨fun s a s' hrun => ⟨(h s a s' hrun).1, hq a (h s a s' hrun).2⟩, h.error⟩

theorem Sat.ite {c : Prop} [Decidable c] {m m' : LiftM α} (h : Sat R E m Q) (h' : Sat R E m' Q) :
    Sat R E (if c then m else m') Q := by
  split
  · exact h
  · exact h'

theorem Sat.any {m : LiftM α} (h : Sat R E m Q) : Sat R E m fun _ => True := h.mono fun _ _ => trivial

theorem Sat.throw {e : LiftError} (he : e ∈ E) : Sat R E (throw e : LiftM α) Q where
  ok _ _ _ h := by cases h
  error s e' h := by
    cases h
    exact he

/-! ## The primitive actions -/

theorem run_bind_of_ok {m : LiftM α} {f : α → LiftM β} {a : α} (h : m.run s = .ok (a, s')) :
    (m >>= f).run s = (f a).run s' := by
  rw [StateT.run_bind, h]
  rfl

/-- The builder state after a load of `w` bits of unspecified state. -/
def LState.pushUnspec (s : LState) (w : Nat) : LState :=
  { s.push (.load (.int w) (.unspec s.unspecifiedOff)) with
    unspecifiedOff := s.unspecifiedOff + (w + 7) / 8 }

theorem unspecifiedValue_run {w : Nat} (hle : s.unspecifiedOff + (w + 7) / 8 ≤ unspecifiedMemBytes) :
    (unspecifiedValue w).run s =
      if s.code.Open then .ok (.inst s.next (.int w), s.pushUnspec w) else .error brokenModule := by
  have hoff : s.unspecifiedOff < 2 ^ 64 := by
    have : unspecifiedMemBytes < 2 ^ 64 := by decide
    omega
  have hptr : 0 + (BitVec.ofNat 64 s.unspecifiedOff).toNat = s.unspecifiedOff := by
    rw [Nat.zero_add, BitVec.toNat_ofNat, Nat.mod_eq_of_lt hoff]
  unfold unspecifiedValue
  rw [run_bind_of_ok (show (get : LiftM LState).run s = .ok (s, s) from rfl)]
  simp only
  rw [run_bind_of_ok (assertThat_run hle _ s), run_bind_of_ok (unsignedConst_run hoff s)]
  simp only [createGEP, hptr, pure_bind, createLoad]
  by_cases hopen : s.code.Open
  · rw [if_pos hopen, StateT.run_bind]
    exact emit_run (s := { s with unspecifiedOff := s.unspecifiedOff + (w + 7) / 8 }) hopen _ _
  · rw [if_neg hopen, StateT.run_bind]
    exact if_neg hopen

theorem unspecifiedValue_ok {w : Nat} {v : Value} (h : (unspecifiedValue w).run s = .ok (v, s')) :
    s.unspecifiedOff + (w + 7) / 8 ≤ unspecifiedMemBytes ∧ s.code.Open ∧
      v = .inst s.next (.int w) ∧ s' = s.pushUnspec w := by
  by_cases hle : s.unspecifiedOff + (w + 7) / 8 ≤ unspecifiedMemBytes
  · rw [unspecifiedValue_run hle] at h
    by_cases hopen : s.code.Open
    · rw [if_pos hopen] at h
      cases h
      exact ⟨hle, hopen, rfl, rfl⟩
    · rw [if_neg hopen] at h
      cases h
  · obtain ⟨t, s₁, h₁, h⟩ := run_bind_ok h
    cases h₁
    obtain ⟨_, s₂, h₂, _⟩ := run_bind_ok h
    unfold assertThat at h₂
    rw [if_neg hle] at h₂
    cases h₂

theorem Sat.emit {op : Op} {ty : Ty} (h : ∀ s : LState, s.code.Open → R s (s.push op))
    (hE : brokenModule ∈ E) : Sat R E (emit op ty) fun _ => True where
  ok s v s' hrun := by
    simp only [StateT.run, BpfTv.emit] at hrun
    split at hrun
    · rename_i hopen
      cases hrun
      exact ⟨h s hopen, trivial⟩
    · cases hrun
  error s e hrun := by
    simp only [StateT.run, BpfTv.emit] at hrun
    split at hrun <;> cases hrun
    exact hE

theorem Sat.terminate {t : Term} (h : ∀ s : LState, s.code.Open → R s (s.close t))
    (hE : brokenModule ∈ E) : Sat R E (terminate t) fun _ => True where
  ok s v s' hrun := by
    simp only [StateT.run, BpfTv.terminate] at hrun
    split at hrun
    · rename_i hopen
      cases hrun
      exact ⟨h s hopen, trivial⟩
    · cases hrun
  error s e hrun := by
    simp only [StateT.run, BpfTv.terminate] at hrun
    split at hrun <;> cases hrun
    exact hE

theorem Sat.unspecified {w : Nat}
    (h : ∀ s : LState, s.unspecifiedOff + (w + 7) / 8 ≤ unspecifiedMemBytes → s.code.Open → R s (s.pushUnspec w))
    (hE : brokenModule ∈ E) (hA : ∀ what, .assertion what ∈ E) : Sat R E (unspecifiedValue w) fun _ => True where
  ok s v s' hrun := by
    obtain ⟨hle, hopen, _, rfl⟩ := unspecifiedValue_ok hrun
    exact ⟨h s hle hopen, trivial⟩
  error s e hrun := by
    by_cases hle : s.unspecifiedOff + (w + 7) / 8 ≤ unspecifiedMemBytes
    · rw [unspecifiedValue_run hle] at hrun
      split at hrun <;> cases hrun
      exact hE
    · rcases run_bind_error hrun with hrun | ⟨t, s₁, h₁, hrun⟩
      · cases hrun
      cases h₁
      rcases run_bind_error hrun with hrun | ⟨_, s₂, h₂, _⟩
      · unfold assertThat at hrun
        rw [if_neg hle] at hrun
        cases hrun
        exact hA _
      · unfold assertThat at h₂
        rw [if_neg hle] at h₂
        cases h₂

theorem Sat.lookup {env : Env} {nm : String} (h : ∀ (s : LState) G, R s { s with globals := G }) :
    Sat R .univ (lookupGlobalM env nm) fun _ => True := by
  refine .of_ok fun s id s' hrun => ⟨?_, trivial⟩
  simp only [StateT.run, lookupGlobalM] at hrun
  cases hl : lookupGlobal env.module env.fuel nm s.globals with
  | error e => rw [hl] at hrun; cases hrun
  | ok r => rw [hl] at hrun; cases hrun; exact h s r.2

/-- The instructions that anyone may write: no call, and no load of unspecified state. -/
def Op.plain : Op → Bool
  | call .. => false
  | load _ (.unspec _) => false
  | _ => true

/-- The actions that write are steps of `R`: a plain instruction, an unspecified value and a checked
division. -/
structure Emits (R : LState → LState → Prop) (E : Set LiftError) : Prop where
  exit : ∀ msg, .exit msg ∈ E
  assertion : ∀ what, .assertion what ∈ E
  refl : ∀ s, R s s
  trans : ∀ s₁ s₂ s₃, R s₁ s₂ → R s₂ s₃ → R s₁ s₃
  emit : ∀ op ty, op.plain = true → Sat R E (emit op ty) fun _ => True
  unspecified : ∀ w, Sat R E (unspecifiedValue w) fun _ => True
  checkedUnsigned : ∀ o a b z,
    Sat R E (createCheckedUnsigned (createBinop · · o) a b z) fun _ => True
  checkedSigned : ∀ o a b z z',
    Sat R E (createCheckedSigned (createBinop · · o) a b z z') fun _ => True

/-- The primitive actions are steps of `R`: those that write, and the lookup of a symbol. -/
structure Compat (R : LState → LState → Prop) (E : Set LiftError) : Prop extends Emits R E where
  lookup : ∀ env nm, Sat R E (lookupGlobalM env nm) fun _ => True

instance : Coe (Compat R E) (Emits R E) := ⟨Compat.toEmits⟩

/-- Relations that also tolerate the control flow inside a region. They tolerate the checked divisions: the
division helpers write plain instructions only. -/
structure Blocks (R : LState → LState → Prop) (E : Set LiftError) : Prop where
  exit : ∀ msg, .exit msg ∈ E
  assertion : ∀ what, .assertion what ∈ E
  refl : ∀ s, R s s
  trans : ∀ s₁ s₂ s₃, R s₁ s₂ → R s₂ s₃ → R s₁ s₃
  emit : ∀ op ty, op.plain = true → Sat R E (emit op ty) fun _ => True
  unspecified : ∀ w, Sat R E (unspecifiedValue w) fun _ => True
  terminate : ∀ t, Sat R E (terminate t) fun _ => True
  createBlock : Sat R E createBlock fun _ => True
  setLLVMBB : ∀ k, Sat R E (setLLVMBB k) fun _ => True

structure Blockwise (R : LState → LState → Prop) (E : Set LiftError) : Prop extends Blocks R E where
  lookup : ∀ env nm, Sat R E (lookupGlobalM env nm) fun _ => True

/-- What the primitive actions do to the builder state. -/
structure Moves (R : LState → LState → Prop) : Prop where
  refl : ∀ s, R s s
  trans : ∀ s₁ s₂ s₃, R s₁ s₂ → R s₂ s₃ → R s₁ s₃
  push : ∀ (s : LState) (op : Op), op.plain = true → s.code.Open → R s (s.push op)
  pushUnspec : ∀ (s : LState) (w : Nat), s.unspecifiedOff + (w + 7) / 8 ≤ unspecifiedMemBytes →
    s.code.Open → R s (s.pushUnspec w)
  close : ∀ (s : LState) (t : Term), s.code.Open → R s (s.close t)
  newBlock : ∀ s : LState, R s s.newBlock
  setBlock : ∀ (s : LState) (k : Nat), R s (s.setBlock k)

theorem Moves.blocks (h : Moves R) (hexit : ∀ msg, .exit msg ∈ E) (hassert : ∀ what, .assertion what ∈ E) :
    Blocks R E where
  exit := hexit
  assertion := hassert
  refl := h.refl
  trans := h.trans
  emit op _ hop := Sat.emit (fun s => h.push s op hop) (hexit _)
  unspecified w := Sat.unspecified (fun s => h.pushUnspec s w) (hexit _) hassert
  terminate t := Sat.terminate (fun s => h.close s t) (hexit _)
  createBlock :=
    { ok := fun s k s' hrun => by
        cases hrun
        exact ⟨h.newBlock s, trivial⟩
      error := fun s e hrun => by cases hrun }
  setLLVMBB k :=
    { ok := fun s v s' hrun => by
        cases hrun
        exact ⟨h.setBlock s k, trivial⟩
      error := fun s e hrun => by cases hrun }

theorem Moves.blockwise (h : Moves R) (hglobals : ∀ (s : LState) G, R s { s with globals := G }) :
    Blockwise R .univ where
  toBlocks := h.blocks (fun _ => trivial) fun _ => trivial
  lookup _ _ := Sat.lookup hglobals

/-- The result of an instruction. -/
def Value.IsInst : Value → Prop
  | .inst .. => True
  | _ => False

section rules

variable (hR : Emits R E)
include hR

theorem Emits.pure {a : α} (hq : Q a) : Sat R E (pure a : LiftM α) Q where
  ok s b s' h := by
    cases h
    exact ⟨hR.refl s, hq⟩
  error s e h := by cases h

theorem Emits.fails {what : String} : Sat R E (throw (.assertion what) : LiftM α) Q :=
  Sat.throw (hR.assertion what)

theorem Emits.exits {msg : String} : Sat R E (exitWith msg : LiftM α) Q := Sat.throw (hR.exit msg)

theorem Emits.bind {m : LiftM α} {f : α → LiftM β} (hm : Sat R E m Q)
    (hf : ∀ a, Q a → Sat R E (f a) P) : Sat R E (m >>= f) P where
  ok s b s'' h := by
    obtain ⟨a, s', h₁, h₂⟩ := run_bind_ok h
    obtain ⟨hr₁, hq⟩ := hm s a s' h₁
    obtain ⟨hr₂, hp⟩ := hf a hq s' b s'' h₂
    exact ⟨hR.trans _ _ _ hr₁ hr₂, hp⟩
  error s e h := by
    rcases run_bind_error h with h | ⟨a, s', h₁, h₂⟩
    · exact hm.error s e h
    · exact (hf a (hm s a s' h₁).2).error s' e h₂

theorem Emits.liftExcept {x : Except LiftError α} (hq : ∀ a, x = .ok a → Q a)
    (he : ∀ e, x = .error e → e ∈ E) : Sat R E (liftExcept x) Q where
  ok s a s' h := by
    cases x with
    | error e => cases h
    | ok b =>
      cases h
      exact ⟨hR.refl s, hq a rfl⟩
  error s e h := by
    cases x with
    | error e' =>
      cases h
      exact he e rfl
    | ok b => cases h

theorem Emits.getOperand {I : MCInst} {idx : Nat} :
    Sat R E (BpfTv.liftExcept (I.getOperand idx)) fun op => I.getOperand idx = .ok op :=
  hR.liftExcept (fun _ h => h) fun e he => by
    obtain ⟨what, rfl⟩ := getOperand_error he
    exact hR.assertion what

theorem Emits.assertThat {p : Prop} [Decidable p] {what : String} :
    Sat R E (assertThat p what) fun _ => p := by
  unfold BpfTv.assertThat
  by_cases hp : p
  · rw [if_pos hp]
    exact hR.pure hp
  · rw [if_neg hp]
    exact hR.fails

theorem Emits.exitIf {p : Prop} [Decidable p] {msg : String} :
    Sat R E (exitIf p msg) fun _ => ¬p := by
  unfold BpfTv.exitIf
  by_cases hp : p
  · rw [if_pos hp]
    exact Sat.throw (hR.exit msg)
  · rw [if_neg hp]
    exact hR.pure hp

theorem Emits.get : Sat R E (get : LiftM LState) fun _ => True where
  ok s a s' h := by
    cases h
    exact ⟨hR.refl s, trivial⟩
  error s e h := by cases h

end rules

/-! ## Control flow inside a region -/

section blockwise

variable (hR : Blocks R E)
include hR

theorem Blocks.bind {m : LiftM α} {f : α → LiftM β} (hm : Sat R E m fun _ => True)
    (hf : ∀ a, Sat R E (f a) fun _ => True) : Sat R E (m >>= f) fun _ => True where
  ok s b s'' h := by
    obtain ⟨a, s', h₁, h₂⟩ := run_bind_ok h
    exact ⟨hR.trans _ _ _ (hm s a s' h₁).1 (hf a s' b s'' h₂).1, trivial⟩
  error s e h := by
    rcases run_bind_error h with h | ⟨a, s', _, h₂⟩
    · exact hm.error s e h
    · exact (hf a).error s' e h₂

theorem Blocks.plain {op : Op} {ty : Ty} (h : op.plain = true) :
    Sat R E (BpfTv.emit op ty) fun _ => True := hR.emit op ty h

theorem Blocks.pure (a : α) : Sat R E (pure a : LiftM α) fun _ => True where
  ok s b s' h := by
    cases h
    exact ⟨hR.refl s, trivial⟩
  error s e h := by cases h

theorem Blocks.assertThat {p : Prop} [Decidable p] {what : String} :
    Sat R E (assertThat p what) fun _ => True := by
  unfold BpfTv.assertThat
  split
  · exact hR.pure ()
  · exact Sat.throw (hR.assertion what)

theorem Blocks.const (val bits : Nat) : Sat R E (getUnsignedIntConst val bits) fun _ => True :=
  hR.bind hR.assertThat fun _ => hR.pure _

theorem Blocks.store (v p : Value) : Sat R E (createStore v p) fun _ => True :=
  hR.bind (hR.plain rfl) fun _ => hR.pure _

theorem Blocks.result (w id : Nat) (ty : Ty) :
    Sat R E (createLoad (.int w) (.inst id ty)) fun _ => True := hR.plain rfl

theorem Blocks.arm {m : LiftM Value} {p : Value} {t : Term} {k : Nat} {f : LiftM β}
    (hm : Sat R E m fun _ => True) (hf : Sat R E f fun _ => True) :
    Sat R E (do let v ← m; createStore v p; BpfTv.terminate t; BpfTv.setLLVMBB k; f) fun _ => True :=
  hR.bind hm fun _ => hR.bind (hR.store _ _) fun _ => hR.bind (hR.terminate _) fun _ =>
    hR.bind (hR.setLLVMBB _) fun _ => hf

theorem Blocks.alloca {f : Value → LiftM β} (hf : ∀ id, Sat R E (f (.inst id .ptr)) fun _ => True) :
    Sat R E (createAlloca >>= f) fun _ => True := by
  have hp : ∀ {s p s'}, createAlloca.run s = .ok (p, s') → p = .inst s.next .ptr := by
    intro s p s' h
    simp only [StateT.run, createAlloca, BpfTv.emit] at h
    split at h
    · cases h
      rfl
    · cases h
  refine ⟨fun s b s'' h => ?_, fun s e h => ?_⟩
  · obtain ⟨p, s', h₁, h₂⟩ := run_bind_ok h
    have hr := (hR.emit .alloca .ptr rfl s p s' h₁).1
    obtain rfl := hp h₁
    exact ⟨hR.trans _ _ _ hr (hf _ _ _ _ h₂).1, trivial⟩
  · rcases run_bind_error h with h | ⟨p, s', h₁, h₂⟩
    · exact (hR.emit .alloca .ptr rfl).error s e h
    · obtain rfl := hp h₁
      exact (hf _).error s' e h₂

theorem Blocks.checkedUnsigned (o : BinOp) (a b z : Value) :
    Sat R E (createCheckedUnsigned (createBinop · · o) a b z) fun _ => True := by
  unfold createCheckedUnsigned
  refine hR.bind hR.assertThat fun _ => hR.bind hR.createBlock fun divBB => ?_
  refine hR.bind hR.createBlock fun retBB => hR.bind (hR.const _ _) fun zero => ?_
  refine hR.alloca fun resPtr => hR.bind (hR.store _ _) fun _ => ?_
  refine hR.bind (hR.plain rfl) fun c => hR.bind (hR.terminate _) fun _ => ?_
  refine hR.bind (hR.setLLVMBB _) fun _ => ?_
  exact hR.arm (hR.plain rfl) (hR.result _ _ _)

theorem Blocks.checkedSigned (o : BinOp) (a b z z' : Value) :
    Sat R E (createCheckedSigned (createBinop · · o) a b z z') fun _ => True := by
  unfold createCheckedSigned
  refine hR.bind hR.assertThat fun _ => hR.bind hR.createBlock fun checkBB => ?_
  refine hR.bind hR.createBlock fun overflowBB => hR.bind hR.createBlock fun divBB => ?_
  refine hR.bind hR.createBlock fun retBB => hR.bind (hR.const _ _) fun zero => ?_
  refine hR.alloca fun resPtr => hR.bind (hR.store _ _) fun _ => ?_
  refine hR.bind (hR.plain rfl) fun c => hR.bind (hR.terminate _) fun _ => ?_
  refine hR.bind (hR.setLLVMBB _) fun _ => hR.bind (hR.plain rfl) fun l => ?_
  refine hR.bind (hR.plain rfl) fun r => hR.bind (hR.plain rfl) fun ov => ?_
  refine hR.bind (hR.terminate _) fun _ => hR.bind (hR.setLLVMBB _) fun _ => ?_
  refine hR.bind (hR.store _ _) fun _ => hR.bind (hR.terminate _) fun _ => ?_
  refine hR.bind (hR.setLLVMBB _) fun _ => ?_
  exact hR.arm (hR.plain rfl) (hR.result _ _ _)

theorem Blocks.emits : Emits R E where
  exit := hR.exit
  assertion := hR.assertion
  refl := hR.refl
  trans := hR.trans
  emit := hR.emit
  unspecified := hR.unspecified
  checkedUnsigned := hR.checkedUnsigned
  checkedSigned := hR.checkedSigned

end blockwise

theorem Blockwise.compat (hR : Blockwise R E) : Compat R E where
  toEmits := hR.emits
  lookup := hR.lookup

/-! ## The functions of the lifter -/

theorem emit_isInst {op : Op} {ty : Ty} {v : Value} (h : (emit op ty).run s = .ok (v, s')) :
    v.IsInst := by
  simp only [StateT.run, emit] at h
  split at h
  · cases h
    trivial
  · cases h

theorem sat_terminate {m : LiftM Term} {T : Term → Prop} (hm : Sat R E m T)
    (h : (m >>= terminate).run s = .ok ((), s')) :
    ∃ s₁ t, R s s₁ ∧ s₁.code.Open ∧ s' = s₁.close t ∧ T t := by
  obtain ⟨t, s₁, h₁, h₂⟩ := run_bind_ok h
  obtain ⟨hr, ht⟩ := hm s t s₁ h₁
  by_cases hopen : s₁.code.Open
  · rw [terminate_run hopen] at h₂
    cases h₂
    exact ⟨s₁, t, hr, hopen, rfl, ht⟩
  · simp only [StateT.run, terminate, if_neg hopen] at h₂
    cases h₂

theorem plain_load {p : Value} (hp : p.IsInst) (ty : Ty) : (Op.load ty p).plain = true := by
  cases p <;> first | rfl | exact hp.elim

/-- The value that `doReturn` returns. -/
def retValue (env : Env) : LiftM (Option Value) :=
  match env.srcRetTy with
  | .void => return none
  | .ptr => do
    let retVal ← readReg64 (.R 0)
    let retVal ← createIntToPtr retVal
    return some retVal
  | retTyp => do
    let retWidth := retTyp.bitWidth
    let retVal ← readReg64 (.R 0)
    let retVal ← (if retWidth < retVal.bitWidth then createTrunc retVal retWidth
      else pure retVal : LiftM Value)
    let retVal ← maskRet env retWidth retVal
    return some retVal

theorem doReturn_eq (env : Env) : doReturn env = (do return .ret (← retValue env)) >>= terminate := by
  unfold doReturn retValue
  cases env.srcRetTy <;> simp only [bind_assoc, pure_bind] <;> rfl

section functions

variable (hR : Emits R E)
include hR

theorem sat_emit {op : Op} {ty : Ty} (h : op.plain = true) : Sat R E (emit op ty) Value.IsInst :=
  ⟨fun s v s' hrun => ⟨(hR.emit op ty h s v s' hrun).1, emit_isInst hrun⟩, (hR.emit op ty h).error⟩

theorem sat_load {ty : Ty} {p : Value} (h : (Op.load ty p).plain = true) :
    Sat R E (createLoad ty p) Value.IsInst := sat_emit hR h

theorem sat_store {v p : Value} : Sat R E (createStore v p) fun _ => True :=
  hR.bind (sat_emit hR rfl) fun _ _ => hR.pure trivial

theorem sat_binop {a b : Value} {o : BinOp} : Sat R E (createBinop a b o) Value.IsInst :=
  sat_emit hR rfl

theorem sat_const {val bits : Nat} : Sat R E (getUnsignedIntConst val bits) fun _ => True :=
  hR.bind hR.assertThat fun _ _ => hR.pure trivial

theorem sat_signedConst {val : Int} {bits : Nat} :
    Sat R E (getSignedIntConst val bits) fun _ => True :=
  hR.bind hR.assertThat fun _ _ => hR.pure trivial

theorem sat_masked {o : BinOp} {a b : Value} : Sat R E (createMasked o a b) fun _ => True :=
  hR.bind hR.assertThat fun _ _ => hR.bind (sat_const hR) fun _ _ =>
    hR.bind (sat_binop hR) fun _ _ => (sat_binop hR).any

theorem sat_trunc {v : Value} {w : Nat} : Sat R E (createTrunc v w) fun _ => True := by
  unfold createTrunc
  split
  · exact hR.pure trivial
  · exact (sat_emit hR rfl).any

theorem sat_cast {o : CastOp} {v : Value} {w : Nat} {ty : Ty} :
    Sat R E (emit (.cast o v w) ty) fun _ => True :=
  (sat_emit hR rfl).any

theorem sat_readReg64 {r : Reg} : Sat R E (readReg64 r) Value.IsInst := sat_emit hR rfl

theorem sat_readReg32 {r : Reg} : Sat R E (readReg32 r) fun _ => True :=
  hR.bind (sat_readReg64 hR) fun _ _ => sat_trunc hR

theorem sat_updateReg64 {v : Value} {r : Reg} : Sat R E (updateReg64 v r) fun _ => True :=
  hR.bind hR.assertThat fun _ _ => sat_store hR

theorem sat_updateReg32 {v : Value} {r : Reg} : Sat R E (updateReg32 v r) fun _ => True :=
  hR.bind hR.assertThat fun _ _ => hR.bind (sat_cast hR) fun _ _ => sat_updateReg64 hR

theorem sat_getRegOperand {I : MCInst} {idx : Nat} :
    Sat R E (getRegOperand I idx) fun r => I.getOperand idx = .ok (.reg r) := by
  refine hR.bind hR.getOperand fun op hop => ?_
  cases op with
  | reg r => exact hR.pure hop
  | imm v => exact hR.fails
  | expr e => exact hR.fails

theorem sat_readRegOperand64 {I : MCInst} {idx : Nat} :
    Sat R E (readRegOperand64 I idx) fun _ => True :=
  hR.bind (sat_getRegOperand hR) fun _ _ => (sat_readReg64 hR).any

theorem sat_readRegOperand32 {I : MCInst} {idx : Nat} :
    Sat R E (readRegOperand32 I idx) fun _ => True :=
  hR.bind (sat_getRegOperand hR) fun _ _ => sat_readReg32 hR

theorem sat_readImmOperand {I : MCInst} {idx bits : Nat} :
    Sat R E (readImmOperand I idx bits) fun _ => True := by
  refine hR.bind hR.getOperand fun op _ => ?_
  cases op with
  | reg r => exact hR.fails
  | imm v => exact sat_signedConst hR
  | expr e => exact hR.fails

theorem sat_readALUSrcOperand {I : MCInst} {idx bits : Nat} :
    Sat R E (readALUSrcOperand I idx bits) fun _ =>
      ∃ op, I.getOperand idx = .ok op ∧ op.isExpr = false := by
  refine hR.bind hR.getOperand fun op hop => ?_
  cases op with
  | imm v => exact (sat_readImmOperand hR).mono fun _ _ => ⟨_, hop, rfl⟩
  | reg r =>
    show Sat R E (if bits = 64 then readReg64 r else readReg32 r) _
    split
    · exact (sat_readReg64 hR).mono fun _ _ => ⟨_, hop, rfl⟩
    · exact (sat_readReg32 hR).mono fun _ _ => ⟨_, hop, rfl⟩
  | expr e => exact hR.fails

theorem sat_getMemPointerOperand {I : MCInst} {idx : Nat} :
    Sat R E (getMemPointerOperand I idx) Value.IsInst := by
  refine hR.bind (hR.bind (sat_getRegOperand hR) fun r _ => sat_load hR rfl) fun base hb => ?_
  refine hR.bind (sat_readImmOperand hR) fun off _ => ?_
  cases base <;> first | exact hb.elim | exact sat_emit hR rfl

/-! ## The instruction shapes -/

variable {I : MCInst} {env : Env}

theorem sat_set64 {v : Value} :
    Sat R E (do updateReg64 v (← getRegOperand I 0)) fun _ => True :=
  hR.bind (sat_getRegOperand hR) fun _ _ => sat_updateReg64 hR

theorem sat_set32 {v : Value} :
    Sat R E (do updateReg32 v (← getRegOperand I 0)) fun _ => True :=
  hR.bind (sat_getRegOperand hR) fun _ _ => sat_updateReg32 hR

theorem sat_alu64 {o : BinOp} : Sat R E (alu64 I o) fun _ => True :=
  hR.bind (sat_readRegOperand64 hR) fun _ _ => hR.bind (sat_readALUSrcOperand hR) fun _ _ =>
    hR.bind (sat_binop hR) fun _ _ => sat_set64 hR

theorem sat_alu32 {o : BinOp} : Sat R E (alu32 I o) fun _ => True :=
  hR.bind (sat_readRegOperand32 hR) fun _ _ => hR.bind (sat_readALUSrcOperand hR) fun _ _ =>
    hR.bind (sat_binop hR) fun _ _ => sat_set32 hR

theorem sat_shift64 {o : BinOp} : Sat R E (shift64 I (createMasked o)) fun _ => True :=
  hR.bind (sat_readRegOperand64 hR) fun _ _ => hR.bind (sat_readALUSrcOperand hR) fun _ _ =>
    hR.bind (sat_masked hR) fun _ _ => sat_set64 hR

theorem sat_shift32 {o : BinOp} : Sat R E (shift32 I (createMasked o)) fun _ => True :=
  hR.bind (sat_readRegOperand32 hR) fun _ _ => hR.bind (sat_readALUSrcOperand hR) fun _ _ =>
    hR.bind (sat_masked hR) fun _ _ => sat_set32 hR

theorem sat_regOperand {bits idx : Nat} :
    Sat R E (if bits = 64 then readRegOperand64 I idx else readRegOperand32 I idx) fun _ =>
      ∃ op, I.getOperand idx = .ok op ∧ op.isExpr = false :=
  Sat.ite
    (hR.bind (sat_getRegOperand hR) fun _ h => (sat_readReg64 hR).mono fun _ _ => ⟨_, h, rfl⟩)
    (hR.bind (sat_getRegOperand hR) fun _ h => (sat_readReg32 hR).mono fun _ _ => ⟨_, h, rfl⟩)

theorem sat_setOperand {bits : Nat} {v : Value} :
    Sat R E (if bits = 64 then do updateReg64 v (← getRegOperand I 0)
      else do updateReg32 v (← getRegOperand I 0)) fun _ => True :=
  Sat.ite (sat_set64 hR) (sat_set32 hR)

theorem sat_checkedUnsigned {bits : Nat} {o : BinOp} {z : Value → LiftM Value}
    (hz : ∀ a, Sat R E (z a) fun _ => True) :
    Sat R E (checkedUnsigned I bits (createCheckedUnsigned (createBinop · · o)) z) fun _ => True :=
  hR.bind (sat_regOperand hR) fun a _ => hR.bind (sat_readALUSrcOperand hR) fun b _ =>
    hR.bind (hz a) fun zv _ => hR.bind (hR.checkedUnsigned o a b zv) fun _ _ => sat_setOperand hR

theorem sat_checkedSigned {bits : Nat} {o : BinOp} {z z' : Value → LiftM Value}
    (hz : ∀ a, Sat R E (z a) fun _ => True) (hz' : ∀ a, Sat R E (z' a) fun _ => True) :
    Sat R E (checkedSigned I bits (createCheckedSigned (createBinop · · o)) z z') fun _ => True :=
  hR.bind (sat_regOperand hR) fun a _ => hR.bind (sat_readALUSrcOperand hR) fun b _ =>
    hR.bind (hz a) fun zv _ => hR.bind (hz' a) fun zv' _ =>
      hR.bind (hR.checkedSigned o a b zv zv') fun _ _ => sat_setOperand hR

theorem sat_zeroConst {bits : Nat} (a : Value) : Sat R E (zeroConst bits a) fun _ => True :=
  sat_const hR

theorem sat_pure (a : Value) : Sat R E (pure a : LiftM Value) fun _ => True := hR.pure trivial

theorem sat_neg {bits : Nat} : Sat R E (neg I bits) fun _ => True :=
  Sat.ite
    (hR.bind (sat_readRegOperand64 hR) fun _ _ => hR.bind (sat_const hR) fun _ _ =>
      hR.bind (sat_binop hR) fun _ _ => sat_set64 hR)
    (hR.bind (sat_readRegOperand32 hR) fun _ _ => hR.bind (sat_const hR) fun _ _ =>
      hR.bind (sat_binop hR) fun _ _ => sat_set32 hR)

theorem sat_movsx64 {bits : Nat} : Sat R E (movsx64 I bits) fun _ => True :=
  hR.bind (sat_readRegOperand64 hR) fun _ _ => hR.bind (sat_trunc hR) fun _ _ =>
    hR.bind (sat_cast hR) fun _ _ => sat_set64 hR

theorem sat_movsx32 {bits : Nat} : Sat R E (movsx32 I bits) fun _ => True :=
  hR.bind (sat_readRegOperand32 hR) fun _ _ => hR.bind (sat_trunc hR) fun _ _ =>
    hR.bind (sat_cast hR) fun _ _ => sat_set32 hR

theorem sat_endian {bits : Nat} {swap : Bool} : Sat R E (endian I bits swap) fun _ => True :=
  hR.bind (sat_readRegOperand64 hR) fun _ _ =>
    hR.bind (Sat.ite (sat_trunc hR) (sat_pure hR _)) fun _ _ =>
      hR.bind (Sat.ite (sat_emit hR rfl).any (sat_pure hR _)) fun _ _ =>
        hR.bind (Sat.ite (sat_cast hR) (sat_pure hR _)) fun _ _ => sat_set64 hR

theorem sat_memLoad {bits : Nat} {sext wDest : Bool} : Sat R E (load I bits sext wDest) fun _ => True := by
  refine hR.bind (sat_getMemPointerOperand hR) fun p hp => ?_
  refine hR.bind (sat_load hR (plain_load hp _)) fun v _ => Sat.ite ?_ ?_
  · exact hR.bind (Sat.ite (sat_cast hR) (sat_pure hR _)) fun _ _ => sat_set32 hR
  · exact hR.bind (Sat.ite (Sat.ite (sat_cast hR) (sat_cast hR)) (sat_pure hR _)) fun _ _ =>
      sat_set64 hR

theorem sat_memStore {bits : Nat} {wSrc : Bool} : Sat R E (store I bits wSrc) fun _ => True :=
  hR.bind (sat_getMemPointerOperand hR) fun _ _ =>
    hR.bind (Sat.ite (sat_readRegOperand32 hR) (sat_readRegOperand64 hR)) fun _ _ =>
      hR.bind (Sat.ite (sat_trunc hR) (sat_pure hR _)) fun _ _ => sat_store hR

theorem sat_storeImm {bits : Nat} : Sat R E (storeImm I bits) fun _ => True := by
  refine hR.bind (sat_getMemPointerOperand hR) fun _ _ => ?_
  refine hR.bind hR.getOperand fun op _ => ?_
  cases op with
  | imm v => exact hR.bind (sat_const hR) fun _ _ => sat_store hR
  | reg r => exact hR.fails
  | expr e => exact hR.fails

theorem sat_atomicRmw : Sat R E (atomicRmw I) fun _ => True := by
  refine hR.bind (sat_getMemPointerOperand hR) fun _ _ => hR.bind (Q := fun _ => True) ?_ fun _ _ => ?_
  · exact Sat.ite (sat_readRegOperand64 hR) (Sat.ite
      (hR.bind (sat_readRegOperand64 hR) fun _ _ => sat_trunc hR) (sat_readRegOperand32 hR))
  · exact hR.bind (sat_emit hR rfl) fun _ _ =>
      Sat.ite (Sat.ite (sat_set64 hR) (sat_set32 hR)) (hR.pure trivial)

theorem sat_cmpxchg64 : Sat R E (cmpxchg64 I) fun _ => True :=
  hR.bind (sat_getMemPointerOperand hR) fun _ _ => hR.bind (sat_readReg64 hR) fun _ _ =>
    hR.bind (sat_readRegOperand64 hR) fun _ _ => hR.bind (sat_emit hR rfl) fun _ _ =>
      hR.bind (sat_emit hR rfl) fun _ _ => sat_updateReg64 hR

theorem sat_cmpxchg32 : Sat R E (cmpxchg32 I) fun _ => True :=
  hR.bind (sat_getMemPointerOperand hR) fun _ _ => hR.bind (sat_readReg32 hR) fun _ _ =>
    hR.bind (sat_readRegOperand32 hR) fun _ _ => hR.bind (sat_emit hR rfl) fun _ _ =>
      hR.bind (sat_emit hR rfl) fun _ _ => sat_updateReg32 hR

theorem sat_getExprVar (hl : ∀ nm, Sat R E (lookupGlobalM env nm) fun _ => True) {e : MCExpr} :
    Sat R E (getExprVar env e) fun _ => True := by
  refine hR.bind (Q := fun _ => True) ?_ fun nm _ => hl nm
  cases e with
  | symbolRef sym => exact hR.pure trivial
  | specifier k sym => exact hR.pure trivial
  | other => exact hR.fails

theorem sat_ldImm64
    (hl : ∀ e, I.getOperand 1 = .ok (.expr e) → ∀ nm, Sat R E (lookupGlobalM env nm) fun _ => True) :
    Sat R E (ldImm64 env I) fun _ => True := by
  refine hR.bind (Q := fun _ => True) ?_ fun _ _ => sat_set64 hR
  refine hR.bind hR.getOperand fun op hop => ?_
  cases op with
  | imm v => exact sat_const hR
  | expr e =>
    exact hR.bind (sat_getExprVar hR (hl e hop)) fun _ _ => (sat_emit hR rfl).any
  | reg r => exact hR.fails

theorem lift_sat_of (hl : I.opcode = .LD_imm64 → ∀ e, I.getOperand 1 = .ok (.expr e) →
      ∀ nm, Sat R E (lookupGlobalM env nm) fun _ => True)
    (hterm : I.opcode.isTerminator = false) (hcall : I.opcode.isCall = false) :
    Sat R E (lift env I) fun _ => True := by
  obtain ⟨op, operands, loc, place⟩ := I
  cases op with
  | NOP => exact hR.pure trivial
  | ADD_rr | ADD_ri | SUB_rr | SUB_ri | MUL_rr | MUL_ri | AND_rr | AND_ri | OR_rr | OR_ri
  | XOR_rr | XOR_ri => exact sat_alu64 hR
  | SLL_rr | SLL_ri | SRL_rr | SRL_ri | SRA_rr | SRA_ri => exact sat_shift64 hR
  | DIV_rr | DIV_ri | DIV_rr_32 | DIV_ri_32 => exact sat_checkedUnsigned hR (sat_zeroConst hR)
  | MOD_rr | MOD_ri | MOD_rr_32 | MOD_ri_32 => exact sat_checkedUnsigned hR (sat_pure hR)
  | SDIV_rr | SDIV_ri | SDIV_rr_32 | SDIV_ri_32 =>
    exact sat_checkedSigned hR (sat_zeroConst hR) (sat_pure hR)
  | SMOD_rr | SMOD_ri | SMOD_rr_32 | SMOD_ri_32 =>
    exact sat_checkedSigned hR (sat_pure hR) (sat_zeroConst hR)
  | NEG_64 | NEG_32 => exact sat_neg hR
  | ADD_rr_32 | ADD_ri_32 | SUB_rr_32 | SUB_ri_32 | MUL_rr_32 | MUL_ri_32 | AND_rr_32 | AND_ri_32
  | OR_rr_32 | OR_ri_32 | XOR_rr_32 | XOR_ri_32 => exact sat_alu32 hR
  | SLL_rr_32 | SLL_ri_32 | SRL_rr_32 | SRL_ri_32 | SRA_rr_32 | SRA_ri_32 => exact sat_shift32 hR
  | MOV_rr => exact hR.bind (sat_readRegOperand64 hR) fun _ _ => sat_set64 hR
  | MOV_ri => exact hR.bind (sat_readImmOperand hR) fun _ _ => sat_set64 hR
  | MOV_rr_32 | MOV_32_64 => exact hR.bind (sat_readRegOperand32 hR) fun _ _ => sat_set32 hR
  | MOV_ri_32 => exact hR.bind (sat_readImmOperand hR) fun _ _ => sat_set32 hR
  | MOVSX_rr_8 | MOVSX_rr_16 => exact sat_movsx64 hR
  | MOVSX_rr_32 =>
    exact hR.bind (sat_readRegOperand32 hR) fun _ _ => hR.bind (sat_cast hR) fun _ _ => sat_set64 hR
  | MOVSX_rr_32_8 | MOVSX_rr_32_16 => exact sat_movsx32 hR
  | LD_imm64 => exact sat_ldImm64 hR (hl rfl)
  | BE16 | BSWAP16 | BSWAP32 | BSWAP64 | BE32 | BE64 | LE16 | LE32 | LE64 => exact sat_endian hR
  | LDD | LDW | LDH | LDB | LDWSX | LDHSX | LDBSX | LDW32 | LDH32 | LDB32 => exact sat_memLoad hR
  | STD | STW | STH | STB | STW32 | STH32 | STB32 => exact sat_memStore hR
  | STD_imm | STW_imm | STH_imm | STB_imm => exact sat_storeImm hR
  | JMP | JMPL | JEQ_rr | JEQ_ri | JNE_rr | JNE_ri | JUGT_rr | JUGT_ri | JUGE_rr | JUGE_ri
  | JULT_rr | JULT_ri | JULE_rr | JULE_ri | JSGT_rr | JSGT_ri | JSGE_rr | JSGE_ri | JSLT_rr
  | JSLT_ri | JSLE_rr | JSLE_ri | JEQ_rr_32 | JEQ_ri_32 | JNE_rr_32 | JNE_ri_32 | JUGT_rr_32
  | JUGT_ri_32 | JUGE_rr_32 | JUGE_ri_32 | JULT_rr_32 | JULT_ri_32 | JULE_rr_32 | JULE_ri_32
  | JSGT_rr_32 | JSGT_ri_32 | JSGE_rr_32 | JSGE_ri_32 | JSLT_rr_32 | JSLT_ri_32 | JSLE_rr_32
  | JSLE_ri_32 | JSET_rr | JSET_ri | JSET_rr_32 | JSET_ri_32 | RET =>
    exact nomatch (show true = false from hterm)
  | XADDW | XADDW32 | XADDD | XANDW32 | XANDD | XORW32 | XORD | XXORW32 | XXORD | XFADDW32
  | XFADDD | XFANDW32 | XFANDD | XFORW32 | XFORD | XFXORW32 | XFXORD | XCHGW32 | XCHGD =>
    exact sat_atomicRmw hR
  | CMPXCHGD => exact sat_cmpxchg64 hR
  | CMPXCHGW32 => exact sat_cmpxchg32 hR
  | JAL => exact nomatch (show true = false from hcall)
  | OTHER => exact hR.exits

/-! ## Terminators -/

/-- The first two operands of a conditional branch. -/
def ComparesOperands (I : MCInst) : Prop :=
  ∃ a b, I.getOperand 0 = .ok a ∧ a.isExpr = false ∧ I.getOperand 1 = .ok b ∧ b.isExpr = false

theorem sat_branchTargets {idx : Nat} : Sat R E (liftExcept (getBranchTargetsOperand env I idx)) fun tf =>
    getBranchTargetsOperand env I idx = .ok tf :=
  hR.liftExcept (fun _ h => h) fun e he => by
    obtain ⟨what, rfl⟩ := getBranchTargetsOperand_error he
    exact hR.assertion what

theorem sat_jumpTarget : Sat R E (liftExcept (jumpTarget env I)) fun b => jumpTarget env I = .ok b :=
  hR.liftExcept (fun _ h => h) fun e he => by
    obtain ⟨what, rfl⟩ := jumpTarget_error he
    exact hR.assertion what

/-- What the terminator of a branch or return instruction is. -/
def ExitSpec (env : Env) (I : MCInst) (t : Term) : Prop :=
  (I.opcode.isCondJump = true ∧ ComparesOperands I ∧ ∃ c tf,
    getBranchTargetsOperand env I 2 = .ok tf ∧ t = .condBr c (.bb tf.1) (.bb tf.2)) ∨
  (I.opcode.isUnconditionalBranch = true ∧ ∃ b, jumpTarget env I = .ok b ∧ t = .br (.bb b)) ∨
  (I.opcode = .RET ∧ ∃ v, t = .ret v)

theorem condBr_sat {p : Pred} {bits : Nat} (hc : I.opcode.isCondJump = true) :
    ∃ m, condBr env I p bits = m >>= terminate ∧ Sat R E m (ExitSpec env I) := by
  refine ⟨do
      let a ← (if bits = 64 then readRegOperand64 I 0 else readRegOperand32 I 0 : LiftM Value)
      let b ← readALUSrcOperand I 1 bits
      let cond ← createICmp p a b
      let tf ← liftExcept (getBranchTargetsOperand env I 2)
      return .condBr cond (.bb tf.1) (.bb tf.2), ?_, ?_⟩
  · simp only [bind_assoc, pure_bind]
    rfl
  refine hR.bind (sat_regOperand hR) fun _ h₀ => hR.bind (sat_readALUSrcOperand hR) fun _ h₁ => ?_
  obtain ⟨⟨a, ha, hea⟩, b, hb, heb⟩ := And.intro h₀ h₁
  refine hR.bind (sat_emit hR rfl) fun cond _ => ?_
  refine hR.bind (sat_branchTargets hR) fun tf htf => ?_
  exact hR.pure (Or.inl ⟨hc, ⟨a, b, ha, hea, hb, heb⟩, cond, tf, htf, rfl⟩)

theorem condSet_sat {bits : Nat} (hc : I.opcode.isCondJump = true) :
    ∃ m, condSet env I bits = m >>= terminate ∧ Sat R E m (ExitSpec env I) := by
  refine ⟨do
      let a ← (if bits = 64 then readRegOperand64 I 0 else readRegOperand32 I 0 : LiftM Value)
      let b ← readALUSrcOperand I 1 bits
      let c ← createAnd a b
      let z ← getUnsignedIntConst 0 bits
      let cond ← createICmp .ne c z
      let tf ← liftExcept (getBranchTargetsOperand env I 2)
      return .condBr cond (.bb tf.1) (.bb tf.2), ?_, ?_⟩
  · simp only [bind_assoc, pure_bind]
    rfl
  refine hR.bind (sat_regOperand hR) fun _ h₀ => hR.bind (sat_readALUSrcOperand hR) fun _ h₁ => ?_
  obtain ⟨⟨a, ha, hea⟩, b, hb, heb⟩ := And.intro h₀ h₁
  refine hR.bind (sat_binop hR) fun _ _ => hR.bind (sat_const hR) fun _ _ => ?_
  refine hR.bind (sat_emit hR rfl) fun cond _ => ?_
  refine hR.bind (sat_branchTargets hR) fun tf htf => ?_
  exact hR.pure (Or.inl ⟨hc, ⟨a, b, ha, hea, hb, heb⟩, cond, tf, htf, rfl⟩)

theorem jump_sat (hc : I.opcode.isUnconditionalBranch = true) :
    ∃ m, jump env I = m >>= terminate ∧ Sat R E m (ExitSpec env I) := by
  refine ⟨do
      let bb ← liftExcept (jumpTarget env I)
      return .br (.bb bb), ?_, ?_⟩
  · simp only [bind_assoc, pure_bind]
    rfl
  exact hR.bind (sat_jumpTarget hR) fun b hb => hR.pure (Or.inr (Or.inl ⟨hc, b, hb, rfl⟩))

theorem sat_maskRet {w : Nat} {v : Value} : Sat R E (maskRet env w v) fun _ => True :=
  Sat.ite (hR.bind hR.assertThat fun _ _ => hR.bind hR.assertThat fun _ _ =>
    hR.bind (sat_trunc hR) fun _ _ => sat_cast hR) (sat_pure hR _)

variable (env) in
theorem doReturn_terminate :
    ∃ m, doReturn env = m >>= terminate ∧ Sat R E m fun t => ∃ v, t = .ret v := by
  refine ⟨_, doReturn_eq env, hR.bind (Q := fun _ => True) ?_ fun v _ => hR.pure ⟨v, rfl⟩⟩
  unfold retValue
  cases env.srcRetTy with
  | void => exact hR.pure trivial
  | ptr =>
    exact hR.bind (sat_readReg64 hR) fun _ _ => hR.bind (sat_emit hR rfl) fun _ _ => hR.pure trivial
  | int w =>
    exact hR.bind (sat_readReg64 hR) fun _ _ => hR.bind (Sat.ite (sat_trunc hR) (sat_pure hR _))
      fun _ _ => hR.bind (sat_maskRet hR) fun _ _ => hR.pure trivial
  | cmpxchg w =>
    exact hR.bind (sat_readReg64 hR) fun _ _ => hR.bind (Sat.ite (sat_trunc hR) (sat_pure hR _))
      fun _ _ => hR.bind (sat_maskRet hR) fun _ _ => hR.pure trivial
  | aggregate =>
    exact hR.bind (sat_readReg64 hR) fun _ _ => hR.bind (Sat.ite (sat_trunc hR) (sat_pure hR _))
      fun _ _ => hR.bind (sat_maskRet hR) fun _ _ => hR.pure trivial

theorem doReturn_sat (h : (doReturn env).run s = .ok ((), s')) :
    ∃ s₁ t, R s s₁ ∧ s₁.code.Open ∧ s' = s₁.close t ∧ ∃ v, t = .ret v := by
  obtain ⟨m, heq, hm⟩ := doReturn_terminate hR env
  rw [heq] at h
  exact sat_terminate hm h

variable (env) in
/-- A terminator is lifted by a computation that writes nothing but plain instructions, and `terminate`. -/
theorem lift_eq_terminate (hterm : I.opcode.isTerminator = true) :
    ∃ m, lift env I = m >>= terminate ∧ Sat R E m (ExitSpec env I) := by
  obtain ⟨op, operands, loc, place⟩ := I
  cases op with
  | JMP | JMPL => exact jump_sat hR rfl
  | JEQ_rr | JEQ_ri | JNE_rr | JNE_ri | JUGT_rr | JUGT_ri | JUGE_rr | JUGE_ri | JULT_rr | JULT_ri
  | JULE_rr | JULE_ri | JSGT_rr | JSGT_ri | JSGE_rr | JSGE_ri | JSLT_rr | JSLT_ri | JSLE_rr
  | JSLE_ri | JEQ_rr_32 | JEQ_ri_32 | JNE_rr_32 | JNE_ri_32 | JUGT_rr_32 | JUGT_ri_32
  | JUGE_rr_32 | JUGE_ri_32 | JULT_rr_32 | JULT_ri_32 | JULE_rr_32 | JULE_ri_32 | JSGT_rr_32
  | JSGT_ri_32 | JSGE_rr_32 | JSGE_ri_32 | JSLT_rr_32 | JSLT_ri_32 | JSLE_rr_32 | JSLE_ri_32 =>
    exact condBr_sat hR rfl
  | JSET_rr | JSET_ri | JSET_rr_32 | JSET_ri_32 => exact condSet_sat hR rfl
  | RET =>
    obtain ⟨m, heq, hm⟩ := doReturn_terminate hR env
    exact ⟨m, heq, hm.mono fun t ht => Or.inr (Or.inr ⟨rfl, ht⟩)⟩
  | _ => exact nomatch (show false = true from hterm)

theorem lift_terminator (hterm : I.opcode.isTerminator = true)
    (h : (lift env I).run s = .ok ((), s')) :
    ∃ s₁ t, R s s₁ ∧ s₁.code.Open ∧ s' = s₁.close t ∧ ExitSpec env I t := by
  obtain ⟨m, heq, hm⟩ := lift_eq_terminate hR env hterm
  rw [heq] at h
  exact sat_terminate hm h

/-! ## Calls -/

theorem sat_enforce {v : Value} {sext zext : Bool} :
    Sat R E (enforceSExtZExt v sext zext) fun _ => True := by
  unfold enforceSExtZExt
  cases v.ty with
  | ptr => exact hR.pure trivial
  | void => exact hR.pure trivial
  | cmpxchg w => exact hR.fails
  | aggregate => exact hR.fails
  | int w =>
    refine hR.bind (Sat.ite (sat_cast hR) (sat_pure hR _)) fun _ _ => ?_
    refine hR.bind (Sat.ite (sat_cast hR) (sat_pure hR _)) fun _ _ => ?_
    refine hR.bind hR.assertThat fun _ _ => Sat.ite ?_ (sat_pure hR _)
    exact hR.bind (hR.unspecified _) fun _ _ => hR.bind (sat_cast hR) fun _ _ =>
      hR.bind (sat_const hR) fun _ _ => hR.bind (sat_binop hR) fun _ _ =>
        hR.bind (sat_cast hR) fun _ _ => (sat_binop hR).any

theorem sat_invalidateReg {r : Reg} {w : Nat} : Sat R E (invalidateReg r w) fun _ => True :=
  hR.bind (hR.unspecified w) fun _ _ => sat_store hR

theorem sat_forM {γ : Type} {f : γ → LiftM Unit} (hf : ∀ x, Sat R E (f x) fun _ => True)
    (xs : List γ) : Sat R E (xs.forM f) fun _ => True := by
  induction xs with
  | nil => exact hR.pure trivial
  | cons x xs ih => exact hR.bind (hf x) fun _ _ => ih

theorem sat_marshallParams (n : Nat) (tys : List Ty) :
    Sat R E (marshallParams n tys) fun _ => True := by
  induction tys generalizing n with
  | nil => exact hR.pure trivial
  | cons ty tys ih =>
    have hrest : ∀ (h : n < 5), Sat R E (do
        let param ← readReg64 (.R ⟨1 + n, by omega⟩)
        let param ← marshallParam ty param
        let args ← marshallParams (n + 1) tys
        return param :: args) fun _ => True := by
      refine fun h => hR.bind (sat_readReg64 hR) fun _ _ => hR.bind (Q := fun _ => True) ?_ fun _ _ =>
        hR.bind (ih (n + 1)) fun _ _ => hR.pure trivial
      unfold marshallParam
      cases ty with
      | int w => exact hR.bind hR.assertThat fun _ _ => Sat.ite (sat_trunc hR) (sat_pure hR _)
      | _ => exact (sat_emit hR rfl).any
    unfold marshallParams
    cases ty with
    | int w =>
      by_cases h : n < 5
      · simp only [dif_pos h]
        exact hrest h
      · simp only [dif_neg h]
        exact hR.exits
    | ptr =>
      by_cases h : n < 5
      · simp only [dif_pos h]
        exact hrest h
      · simp only [dif_neg h]
        exact hR.exits
    | void => exact hR.exits
    | cmpxchg w => exact hR.exits
    | aggregate => exact hR.exits

theorem sat_marshallArgs {fTy : FunctionType} : Sat R E (marshallArgs fTy) fun _ => True :=
  Sat.ite hR.exits (sat_marshallParams hR 0 _)

theorem sat_initArgs (n : Nat) (args : List Argument) : Sat R E (initArgs n args) fun _ => True := by
  induction args generalizing n with
  | nil => exact hR.pure trivial
  | cons arg args ih =>
    have hstore : ∀ (h : n < 5), Sat R E (do
        let val ← enforceSExtZExt (.arg n arg.ty) arg.hasSExtAttr arg.hasZExtAttr
        createStore val (.regFile ⟨1 + n, by omega⟩)
        initArgs (n + 1) args) fun _ => True := fun h =>
      hR.bind (sat_enforce hR) fun _ _ => hR.bind (sat_store hR) fun _ _ => ih (n + 1)
    unfold initArgs
    cases hty : arg.ty with
    | int w =>
      by_cases h : n < 5
      · simp only [dif_pos h, ← hty]
        exact hstore h
      · simp only [dif_neg h]
        exact hR.exits
    | ptr =>
      by_cases h : n < 5
      · simp only [dif_pos h, ← hty]
        exact hstore h
      · simp only [dif_neg h]
        exact hR.exits
    | void => exact hR.exits
    | cmpxchg w => exact hR.exits
    | aggregate => exact hR.exits

theorem sat_platformInit : Sat R E (platformInit env) fun _ => True := by
  refine hR.bind (sat_forM hR (fun _ => sat_invalidateReg hR) _) fun _ _ => ?_
  refine hR.bind (Q := fun v => ∃ c, v = .const 64 c) ?_ fun v hv => ?_
  · exact hR.bind hR.assertThat fun _ _ => hR.pure ⟨_, rfl⟩
  obtain ⟨c, rfl⟩ := hv
  refine hR.bind (Q := fun _ => True) (hR.pure trivial) fun _ _ => ?_
  exact hR.bind (sat_store hR) fun _ _ => sat_initArgs hR 0 _

/-- A call is lifted by allowed steps when its `call` instruction may be written. -/
theorem sat_doCall {FC : Function} {llvmCI : CallInst} {name : String}
    (hcall : ∀ args, Sat R E (emit (.call FC.name FC.ty.ret args llvmCI.noReturn (some llvmCI))
      FC.ty.ret) fun _ => True) : Sat R E (doCall FC llvmCI name) fun _ => True := by
  refine hR.bind (sat_marshallArgs hR) fun args _ => hR.bind (Q := fun _ => True) ?_ fun args' _ => ?_
  · exact Sat.ite (hR.bind hR.assertThat fun _ _ => hR.pure trivial) (hR.pure trivial)
  refine hR.bind (hcall args') fun CI _ => hR.bind (sat_enforce hR) fun RV _ => ?_
  refine hR.bind (Sat.ite (hR.pure trivial) (sat_forM hR (fun _ => sat_invalidateReg hR) _))
    fun _ _ => ?_
  cases FC.ty.ret with
  | int w => exact sat_updateReg64 hR
  | ptr => exact hR.bind (sat_emit hR rfl) fun _ _ => sat_updateReg64 hR
  | void => exact sat_invalidateReg hR
  | cmpxchg w => exact hR.fails
  | aggregate => exact hR.fails

theorem sat_functionOf {id : Nat} : Sat R E (functionOf id) fun _ => True := by
  refine hR.bind hR.get fun s _ => ?_
  split <;> exact hR.pure trivial

theorem sat_callBytes {id : Int} (hb : env.bytesMode = true)
    (hcall : ∀ args, Sat R E (emit (.call (helperName id) (.int 64) args false none) (.int 64)) fun _ => True) :
    Sat R E (doHelperCall env I id) fun _ => True := by
  refine hR.bind hR.exitIf fun _ _ => ?_
  simp only [if_pos hb]
  refine hR.bind (sat_readReg64 hR) fun _ _ => hR.bind (sat_readReg64 hR) fun _ _ => ?_
  refine hR.bind (sat_readReg64 hR) fun _ _ => hR.bind (sat_readReg64 hR) fun _ _ => ?_
  refine hR.bind (sat_readReg64 hR) fun _ _ => hR.bind (hcall _) fun _ _ => ?_
  exact hR.bind (sat_forM hR (fun _ => sat_invalidateReg hR) _) fun _ _ => sat_updateReg64 hR

/-- A helper is called with the attributes of a source call of the helper. -/
theorem sat_helperCall {id : Int} (hb : ¬env.bytesMode = true)
    (hl : ∀ nm, Sat R E (lookupGlobalM env nm) fun _ => True)
    (hdo : ∀ FC ci, ci.calledFn.map (·.name) = some (helperName id) →
      Sat R E (doCall FC ci (helperName id)) fun _ => True) :
    Sat R E (doHelperCall env I id) fun _ => True := by
  refine hR.bind hR.exitIf fun _ _ => ?_
  simp only [if_neg hb]
  cases I.loc with
  | none => exact hR.exits
  | some src =>
    cases src with
    | other k => exact hR.exits
    | call ci =>
      refine hR.bind hR.exitIf fun _ hcallee => hR.bind (hl _) fun _ _ => ?_
      refine hR.bind (sat_functionOf hR) fun callee _ => ?_
      cases callee with
      | none => exact hR.fails
      | some FC => exact hdo FC ci (not_not.mp hcallee)

theorem sat_createTrap : Sat R E createTrap fun _ => True :=
  hR.bind (sat_emit hR rfl) fun _ _ => hR.pure trivial

theorem jal_sat (hl : ∀ nm, Sat R E (lookupGlobalM env nm) fun _ => True)
    (hcall : ∀ callee ret args nr src ty, Sat R E (emit (.call callee ret args nr src) ty) fun _ => True) :
    Sat R E (jal env I) fun _ => True := by
  have hdo : ∀ FC CI name, Sat R E (doCall FC CI name) fun _ => True := fun FC CI name =>
    sat_doCall hR fun args => hcall _ _ _ _ _ _
  refine hR.bind hR.getOperand fun op _ => ?_
  cases op with
  | reg r => exact hR.fails
  | imm id =>
    by_cases hb : env.bytesMode = true
    · exact sat_callBytes hR hb fun args => hcall _ _ _ _ _ _
    · exact sat_helperCall hR hb hl fun FC ci _ => hdo FC ci _
  | expr e =>
    refine hR.bind (sat_getExprVar hR hl) fun g _ => hR.bind hR.get fun G _ => Sat.ite (sat_createTrap hR) ?_
    refine hR.bind (sat_functionOf hR) fun callee _ => ?_
    cases callee with
    | none => exact hR.fails
    | some callee =>
      cases I.loc with
      | none => exact hR.exits
      | some src =>
        cases src with
        | other k => exact hR.exits
        | call CI => exact hdo _ _ _

/-- Lifting anything but a terminator, when every `call` instruction may be written. -/
theorem lift_sat_call_of (hl : ∀ nm, Sat R E (lookupGlobalM env nm) fun _ => True)
    (hcall : ∀ callee ret args nr src ty, Sat R E (emit (.call callee ret args nr src) ty) fun _ => True)
    (hterm : I.opcode.isTerminator = false) : Sat R E (lift env I) fun _ => True := by
  by_cases hc : I.opcode.isCall = true
  · have hop : I.opcode = .JAL := by simpa [Opcode.isCall] using hc
    have hlift : lift env I = jal env I := by
      unfold lift
      rw [hop]
    rw [hlift]
    exact jal_sat hR hl hcall
  · exact lift_sat_of hR (fun _ _ _ => hl) hterm (by simpa using hc)

end functions

/-! ## Whole actions that end in a terminator -/

theorem sat_doReturn (hB : Blocks R E) : Sat R E (doReturn env) fun _ => True := by
  obtain ⟨m, heq, hm⟩ := doReturn_terminate hB.emits env
  rw [heq]
  exact hB.emits.bind hm fun t _ => hB.terminate t

theorem lift_sat_terminator (hB : Blocks R E) (hterm : I.opcode.isTerminator = true) :
    Sat R E (lift env I) fun _ => True := by
  obtain ⟨m, heq, hm⟩ := lift_eq_terminate hB.emits env hterm
  rw [heq]
  exact hB.emits.bind hm fun t _ => hB.terminate t

theorem lift_sat (hR : Compat R E) (hterm : I.opcode.isTerminator = false) (hcall : I.opcode.isCall = false) :
    Sat R E (lift env I) fun _ => True :=
  lift_sat_of hR (fun _ _ _ => hR.lookup env) hterm hcall

theorem lift_sat_call (hR : Compat R E) (hcall : ∀ callee ret args nr src ty,
      Sat R E (emit (.call callee ret args nr src) ty) fun _ => True)
    (hterm : I.opcode.isTerminator = false) : Sat R E (lift env I) fun _ => True :=
  lift_sat_call_of hR (hR.lookup env) hcall hterm

end BpfTv
