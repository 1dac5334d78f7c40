import BpfTv.Lifter.RegisterSemantics
import BpfTv.Lifter.Regions

/-!
# The calling convention

What `enforceSExtZExt` computes (`enforced`): an integer extended as its attributes say, or padded
with unspecified bits. `Gives` is `Computes` for actions that may fail, and it counts the bytes of
unspecified state that they use.
-/

namespace BpfTv

variable {α β : Type} {s s₁ s₂ s' : LState} {rt rt₁ rt₂ rt' : Rt} {v V : Value} {x : RVal} {t : Ty}
  {m : LiftM α} {f : α → LiftM β} {Q : β → LState → Rt → Prop}

/-- The weakest liberal precondition of an action of the lifter. -/
abbrev LiftM.wlp {α : Type} (m : LiftM α) (s : LState) (rt : Rt) (Q : α → LState → Rt → Prop) : Prop :=
  Emit.wlp ir LState.code m s rt Q

theorem wlp_assert {p : Prop} [Decidable p] {what : String} {f : Unit → LiftM α}
    {Q : α → LState → Rt → Prop} (h : p → (f ()).wlp s rt Q) : (assertThat p what >>= f).wlp s rt Q := by
  by_cases hp : p
  · exact Emit.wlp_bind (Emit.wlp_of_wp (wp_liftOk (assertThat_run hp what s) (h hp)))
  · refine Emit.wlp_error fun a s' hrun => ?_
    obtain ⟨_, s₁, h₁, _⟩ := run_bind_ok hrun
    unfold assertThat at h₁
    rw [if_neg hp] at h₁
    cases h₁

/-! ## Counting unspecified state -/

/-- No unspecified state has been used. -/
def SameOff (s s' : LState) : Prop := s'.unspecifiedOff = s.unspecifiedOff

theorem sameOff_emit (op : Op) (ty : Ty) : Sat SameOff .univ (emit op ty) fun _ => True :=
  Sat.emit (fun _ _ => rfl) trivial

theorem sameOff_bind {P : α → Prop} {P' : β → Prop} (hm : Sat SameOff .univ m P)
    (hf : ∀ a, P a → Sat SameOff .univ (f a) P') : Sat SameOff .univ (m >>= f) P' := by
  refine .of_ok fun s b s'' h => ?_
  obtain ⟨a, s', h₁, h₂⟩ := run_bind_ok h
  obtain ⟨e₁, hp⟩ := hm s a s' h₁
  obtain ⟨e₂, hp'⟩ := hf a hp s' b s'' h₂
  exact ⟨e₂.trans e₁, hp'⟩

theorem sameOff_pure (a : α) : Sat SameOff .univ (pure a : LiftM α) fun _ => True := by
  refine .of_ok fun s b s' h => ?_
  cases h
  exact ⟨rfl, trivial⟩

theorem sameOff_trunc (V : Value) (w : Nat) : Sat SameOff .univ (createTrunc V w) fun _ => True := by
  unfold createTrunc
  split
  · exact sameOff_pure V
  · exact sameOff_emit _ _

/-- If `m` succeeds, it returns a value of type `t`; its code makes it `x`, uses `n` bytes of
unspecified state and does nothing else. -/
def Gives (m : LiftM Value) (s : LState) (rt : Rt) (x : RVal) (t : Ty) (n : Nat) : Prop :=
  m.wlp s rt fun v s' rt' =>
    (s'.Has rt' v x ∧ v.ty = t ∧ Quiet s rt s' rt') ∧ s'.unspecifiedOff = s.unspecifiedOff + n

theorem Computes.gives {m : LiftM Value} (h : Computes m s rt x t)
    (hoff : Sat SameOff .univ m fun _ => True) : Gives m s rt x t 0 :=
  Emit.wlp_and (Emit.wlp_of_wp h) fun v s' hrun => (hoff s v s' hrun).1

theorem Gives.bind {m : LiftM Value} {f : Value → LiftM β} {n : Nat} (h : Gives m s rt x t n)
    (hf : ∀ v s₁ rt₁, s₁.Has rt₁ v x → v.ty = t → Quiet s rt s₁ rt₁ →
      s₁.unspecifiedOff = s.unspecifiedOff + n → (f v).wlp s₁ rt₁ Q) :
    (m >>= f).wlp s rt Q :=
  Emit.wlp_bind (Emit.wlp_mono h fun v s₁ rt₁ ⟨⟨hv, ht, hq⟩, hn⟩ => hf v s₁ rt₁ hv ht hq hn)

theorem Gives.then {m : LiftM Value} {f : Value → LiftM Value} {t' : Ty} {y : RVal} {n n' : Nat}
    (h : Gives m s rt x t n)
    (hf : ∀ v s₁ rt₁, s₁.Has rt₁ v x → v.ty = t → Quiet s rt s₁ rt₁ →
      s₁.unspecifiedOff = s.unspecifiedOff + n → Gives (f v) s₁ rt₁ y t' n') :
    Gives (m >>= f) s rt y t' (n + n') :=
  h.bind fun v s₁ rt₁ hv ht hq hn =>
    Emit.wlp_mono (hf v s₁ rt₁ hv ht hq hn) fun _ s₂ _ ⟨⟨hv', ht', hq'⟩, hn'⟩ =>
      ⟨⟨hv', ht', hq.trans hq'⟩, by omega⟩

theorem Gives.pure (hopen : s.code.Open) (hv : s.Has rt v x) (ht : v.ty = t) :
    Gives (pure v) s rt x t 0 :=
  (Computes.pure hopen hv ht).gives (sameOff_pure v)

/-- The `w` unspecified bits at offset `off`. -/
def World.junk (W : World) (off w : Nat) : BitVec w :=
  BitVec.ofNat w (Bytes.read W.unspec (off, (w + 7) / 8))

theorem exists_junk (W : World) (off : Nat) {w : Nat} (j : BitVec w) :
    ∃ u, ({ W with unspec := u } : World).junk off w = j := by
  refine ⟨fun b => Bytes.byteAt j.toNat (b - off), BitVec.eq_of_toNat_eq ?_⟩
  have hread : Bytes.read (fun b => Bytes.byteAt j.toNat (b - off)) (off, (w + 7) / 8) = j.toNat := by
    have hlt : j.toNat < 256 ^ ((w + 7) / 8) := by
      calc j.toNat < 2 ^ w := j.isLt
        _ ≤ 2 ^ (8 * ((w + 7) / 8)) := Nat.pow_le_pow_right (by omega) (by omega)
        _ = 256 ^ ((w + 7) / 8) := by rw [Nat.pow_mul]
    simp only [Bytes.read, Nat.add_sub_cancel_left]
    rw [Bytes.leNat_byteAt, Nat.mod_eq_of_lt hlt]
  rw [World.junk, hread, BitVec.ofNat_toNat, BitVec.setWidth_eq]

theorem unspecifiedValue_gives (w : Nat) :
    Gives (unspecifiedValue w) s rt (.int (rt.world.junk s.unspecifiedOff w)) (.int w)
      ((w + 7) / 8) := by
  intro v s' hrun
  obtain ⟨_, hopen, rfl, rfl⟩ := unspecifiedValue_ok hrun
  have hexec : Instr.exec ⟨s.next, .load (.int w) (.unspec s.unspecifiedOff)⟩ rt =
      .ok (rt.set s.next (.int (rt.world.junk s.unspecifiedOff w))) := rfl
  have q : Quiet s rt _ _ := quiet_set hopen (.load (.int w) (.unspec s.unspecifiedOff))
    (.int (rt.world.junk s.unspecifiedOff w))
  refine ⟨_, Emit.Code.Seg.push hopen hexec, ⟨⟨?_, Nat.lt_succ_self _⟩, rfl, ?_⟩, rfl⟩
  · rw [Value.eval, set_env_self]
  · exact ⟨⟨q.isOpen, q.next_le, q.env_eq, q.cells_eq, rfl⟩, rfl, rfl, rfl⟩

/-! ## Extension and padding -/

/-- The low bits are `x`, the others `junk`. -/
def padded {w : Nat} (x : BitVec w) (junk : BitVec (64 - w)) : BitVec 64 :=
  junk.setWidth 64 <<< w ||| x.setWidth 64

/-- The register for an integer `x` with the given attributes. -/
def enforced (isSExt isZExt : Bool) {w : Nat} (x : BitVec w) (junk : BitVec (64 - w)) : BitVec 64 :=
  if isZExt then x.setWidth 64 else if isSExt then x.signExtend 64 else padded x junk

/-- The bytes of unspecified state in that register. -/
def junkBytes (isSExt isZExt : Bool) (w : Nat) : Nat :=
  if isSExt || isZExt then 0 else (64 - w + 7) / 8

theorem exists_padded {w : Nat} (hw : w ≤ 64) (x : BitVec w) (y : BitVec 64) :
    (∃ junk, y = padded x junk) ↔ y.setWidth w = x := by
  constructor
  · rintro ⟨junk, rfl⟩
    apply BitVec.eq_of_getLsbD_eq
    intro i hi
    simp only [padded, BitVec.getLsbD_setWidth, BitVec.getLsbD_or, BitVec.getLsbD_shiftLeft]
    have : i < 64 := by omega
    simp [hi, this]
  · rintro rfl
    refine ⟨(y >>> w).setWidth (64 - w), ?_⟩
    apply BitVec.eq_of_getLsbD_eq
    intro i hi
    simp only [padded, BitVec.getLsbD_setWidth, BitVec.getLsbD_or, BitVec.getLsbD_shiftLeft,
      BitVec.getLsbD_ushiftRight]
    rcases Nat.lt_or_ge i w with h | h
    · simp [h, hi]
    · have hsub : w + (i - w) = i := by omega
      have hlt : i - w < 64 - w := by omega
      have hlt' : i - w < 64 := by omega
      simp [hi, hsub, hlt, hlt', Nat.not_lt.mpr h]

/-- Two registers that differ in their highest bit only. -/
theorem flip_high {n : Nat} (hn : n < 64) (z : BitVec 64) :
    (z ^^^ BitVec.intMin 64).setWidth n = z.setWidth n ∧ z ^^^ BitVec.intMin 64 ≠ z := by
  constructor
  · have h0 : (BitVec.intMin 64).setWidth n = 0#n := by
      apply BitVec.eq_of_getLsbD_eq
      intro i hi
      rw [BitVec.getLsbD_setWidth, BitVec.getLsbD_intMin, BitVec.getLsbD_zero]
      simp
      omega
    rw [BitVec.setWidth_xor, h0, BitVec.xor_zero]
  · intro h
    have h' := congrArg (z ^^^ ·) h
    simp only [← BitVec.xor_assoc, BitVec.xor_self, BitVec.zero_xor] at h'
    exact absurd h' (by decide)

theorem padded_full (x : BitVec 64) (junk : BitVec (64 - 64)) : padded x junk = x := by
  have hj : junk = 0 := BitVec.eq_of_toNat_eq (Nat.lt_one_iff.mp junk.isLt)
  rw [padded, hj, BitVec.setWidth_eq]
  simp

/-- The last part of `enforceSExtZExt`: pad what is left with junk. -/
def padJunk (V : Value) : LiftM Value := do
  assertThat (V.bitWidth ≤ 64) "out of unspecified-value scratch space"
  let junkBits := 64 - V.bitWidth
  if junkBits > 0 then
    let junk ← unspecifiedValue junkBits
    let ext1 ← createZExt junk 64
    let shifted ← createRawShl ext1 (← getUnsignedIntConst V.bitWidth 64)
    let ext2 ← createZExt V 64
    createOr shifted ext2
  else
    return V

theorem enforceSExtZExt_int {w : Nat} (ht : V.ty = .int w) (isSExt isZExt : Bool) :
    enforceSExtZExt V isSExt isZExt = (do
      let V ← (if isZExt && V.bitWidth < 64 then createZExt V 64 else pure V : LiftM Value)
      let V ← (if isSExt && V.bitWidth < 64 then createSExt V 64 else pure V : LiftM Value)
      padJunk V) := by
  unfold enforceSExtZExt
  rw [ht]
  rfl

section enforce

variable {w : Nat} {y : BitVec w}

theorem padJunk_gives (hw : 0 < w) (hopen : s.code.Open) (ht : V.ty = .int w)
    (hv : s.Has rt V (.int y)) :
    Gives (padJunk V) s rt (.int (padded y (rt.world.junk s.unspecifiedOff (64 - w)))) (.int 64)
      ((64 - w + 7) / 8) := by
  unfold padJunk
  rw [bitWidth_int ht]
  refine wlp_assert fun hle => ?_
  rcases Nat.lt_or_eq_of_le hle with hlt | rfl
  · rw [if_pos (Nat.sub_pos_of_lt hlt)]
    show Gives _ s rt _ _ ((64 - w + 7) / 8 + 0)
    refine (unspecifiedValue_gives (64 - w)).then fun j s₁ rt₁ hj htj q₁ _ => ?_
    refine Computes.gives ?_ ?_
    · refine (zext_computes q₁.isOpen htj hj (by omega)).then fun e s₂ rt₂ he hte q₂ => ?_
      refine bind_run_computes (unsignedConst_run (by omega) s₂) ?_
      have hshift : BinOp.shl.eval ((rt.world.junk s.unspecifiedOff (64 - w)).setWidth 64)
          (BitVec.ofNat 64 w) =
          .ok ((rt.world.junk s.unspecifiedOff (64 - w)).setWidth 64 <<< w) := by
        have hmod : (BitVec.ofNat 64 w).toNat = w := by
          rw [BitVec.toNat_ofNat, Nat.mod_eq_of_lt (by omega)]
        rw [BinOp.eval, hmod, if_pos hlt]
      refine (binop_computes q₂.isOpen hte he (has_const s₂ rt₂ _) hshift).then fun u s₃ rt₃ hu htu q₃ => ?_
      have hv₃ := hv.later ((q₁.trans q₂).trans q₃).toLater
      refine (zext_computes q₃.isOpen ht hv₃ hlt).then fun z s₄ rt₄ hz htz q₄ => ?_
      exact binop_computes q₄.isOpen htu (hu.later q₄.toLater) hz rfl
    · refine sameOff_bind (sameOff_emit _ _) fun _ _ => sameOff_bind (P := fun _ => True) ?_ fun _ _ => ?_
      · refine .of_ok fun s c s' h => ?_
        rw [unsignedConst_run (by omega)] at h
        cases h
        exact ⟨rfl, trivial⟩
      · exact sameOff_bind (sameOff_emit _ _) fun _ _ => sameOff_bind (sameOff_emit _ _) fun _ _ =>
          sameOff_emit _ _
  · rw [if_neg (Nat.lt_irrefl 0), padded_full]
    exact Gives.pure hopen hv ht

theorem padJunk_full {y : BitVec 64} (hopen : s.code.Open) (ht : V.ty = .int 64)
    (hv : s.Has rt V (.int y)) : Gives (padJunk V) s rt (.int y) (.int 64) 0 := by
  have h := padJunk_gives (by decide) hopen ht hv
  rwa [padded_full] at h

theorem enforced_full (isSExt isZExt : Bool) (y : BitVec 64) (junk : BitVec (64 - 64)) :
    enforced isSExt isZExt y junk = y := by
  rw [enforced, BitVec.setWidth_eq, BitVec.signExtend_eq, padded_full, ite_self, ite_self]

theorem exists_enforced {isSExt isZExt : Bool} (h : (isSExt || isZExt) = true) (x : BitVec w)
    (z : BitVec 64) : (∃ junk, z = enforced isSExt isZExt x junk) ↔
      z = if isZExt then x.setWidth 64 else x.signExtend 64 := by
  have hall : ∀ junk, enforced isSExt isZExt x junk = if isZExt then x.setWidth 64 else x.signExtend 64 := by
    intro junk
    unfold enforced
    cases isZExt with
    | true => rfl
    | false =>
      rw [Bool.or_false] at h
      rw [h]
      rfl
  simp only [hall, exists_const]

theorem low_extended {k : Nat} (hk : k ≤ 64) (zext : Bool) (x : BitVec w) :
    (if zext then x.setWidth 64 else x.signExtend 64).setWidth k =
      if zext then x.setWidth k else x.signExtend k := by
  cases zext with
  | true => exact BitVec.setWidth_setWidth (by omega)
  | false =>
    apply BitVec.eq_of_getLsbD_eq
    intro i hi
    have : i < 64 := by omega
    simp only [Bool.false_eq_true, if_false, BitVec.getLsbD_setWidth, BitVec.getLsbD_signExtend, hi,
      this, decide_true, Bool.true_and]

theorem if_wide {b : Bool} {m m' : LiftM Value} (ht : V.ty = .int w) (hw : 64 ≤ w) :
    (if b && V.bitWidth < 64 then m else m' : LiftM Value) = m' := by
  rw [bitWidth_int ht, decide_eq_false (Nat.not_lt.mpr hw), Bool.and_false, if_neg Bool.false_ne_true]

/-- `enforceSExtZExt` computes `enforced`. -/
theorem enforce_gives (hw : 0 < w) (hopen : s.code.Open) (ht : V.ty = .int w)
    (hv : s.Has rt V (.int y)) (isSExt isZExt : Bool) :
    Gives (enforceSExtZExt V isSExt isZExt) s rt
      (.int (enforced isSExt isZExt y (rt.world.junk s.unspecifiedOff (64 - w)))) (.int 64)
      (junkBytes isSExt isZExt w) := by
  rw [enforceSExtZExt_int ht]
  rcases Nat.lt_or_ge w 64 with hlt | hge
  · have hbw : V.bitWidth < 64 := by rw [bitWidth_int ht]; exact hlt
    cases isZExt with
    | true =>
      rw [if_pos (by simpa using hbw)]
      have hj : junkBytes isSExt true w = 0 + 0 := by simp [junkBytes]
      rw [hj]
      refine ((zext_computes hopen ht hv hlt).gives (sameOff_emit _ _)).then fun z s₁ rt₁ hz htz q _ => ?_
      rw [if_wide htz (Nat.le_refl 64), pure_bind]
      exact padJunk_full q.isOpen htz hz
    | false =>
      rw [Bool.false_and, if_neg Bool.false_ne_true, pure_bind]
      cases isSExt with
      | true =>
        rw [if_pos (by simpa using hbw)]
        show Gives _ s rt _ _ (0 + 0)
        refine ((sext_computes hopen ht hv hlt).gives (sameOff_emit _ _)).then fun z s₁ rt₁ hz htz q _ => ?_
        exact padJunk_full q.isOpen htz hz
      | false =>
        rw [Bool.false_and, if_neg Bool.false_ne_true, pure_bind]
        exact padJunk_gives hw hopen ht hv
  · rw [if_wide ht hge, pure_bind, if_wide ht hge, pure_bind]
    rcases Nat.lt_or_eq_of_le hge with hgt | rfl
    · unfold padJunk
      exact wlp_assert fun hle => absurd (bitWidth_int ht ▸ hle) (Nat.not_le.mpr hgt)
    · rw [enforced_full]
      have hj : junkBytes isSExt isZExt 64 = 0 := by simp [junkBytes]
      rw [hj]
      exact padJunk_full hopen ht hv

end enforce

end BpfTv
