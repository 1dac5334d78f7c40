import BpfTv.Lifter.Function
import BpfTv.Lifter.RunLogic

/-!
# The shape of regions

An instruction that is not a terminator is lifted to a region that nothing leaves except by falling
off its end: the blocks it makes for itself all lead to its last block, which is open. A branch or a
return is lifted to a region with one terminator that leaves it (`region_term`). The invariant is
`Straight`; the division helpers are followed block by block, with the blocks still to be filled
(`Ready`).
-/

namespace BpfTv

open Emit.Code

variable {α β : Type} {s s' : LState} {env : Env} {I : MCInst} {r : Region}

/-! ## Terminators that leave a region -/

/-- The part of a terminator that `exits` keeps. -/
def leaving (t : Option Term) : Option Term := t.filter fun t => !t.isLocal

theorem exits_eq (r : Region) : exits r = (r.blocks.map (·.term)).filterMap leaving := by
  rw [List.filterMap_map]
  rfl

theorem exits_congr {r' : Region} (h : r'.blocks.map (·.term) = r.blocks.map (·.term)) :
    exits r' = exits r := by
  rw [exits_eq, exits_eq, h]

theorem exits_push (r : Region) (i : Instr) : exits (r.push i) = exits r := by
  refine exits_congr (List.ext_getElem? fun k => ?_)
  simp only [push, List.getElem?_map, modify_cur_eq]
  split
  · cases r.blocks[k]? <;> rfl
  · rfl

theorem exits_newBlock (r : Region) : exits r.newBlock = exits r := by
  simp [exits, newBlock]

theorem filterMap_set_of_nil {γ δ : Type} (f : γ → Option δ) (l : List γ) (k : Nat) (x : γ)
    (hk : k < l.length) (h : l.filterMap f = []) : (l.set k x).filterMap f = (f x).toList := by
  induction l generalizing k with
  | nil => exact absurd hk (Nat.not_lt_zero k)
  | cons y l ih =>
    have hy : f y = none ∧ l.filterMap f = [] := by
      cases hf : f y with
      | none => exact ⟨rfl, by rwa [List.filterMap_cons_none hf] at h⟩
      | some z => simp [List.filterMap_cons_some hf] at h
    cases k with
    | zero =>
      rw [List.set_cons_zero]
      cases hf : f x with
      | none => rw [List.filterMap_cons_none hf, hy.2]; rfl
      | some z => rw [List.filterMap_cons_some hf, hy.2]; rfl
    | succ k =>
      rw [List.set_cons_succ, List.filterMap_cons_none hy.1]
      exact ih k (Nat.lt_of_succ_lt_succ hk) hy.2

theorem exits_close (hopen : r.Open) (h : exits r = []) (t : Term) :
    exits (r.close t) = if t.isLocal then [] else [t] := by
  have hterms : (r.close t).blocks.map (·.term) = (r.blocks.map (·.term)).set r.cur (some t) := by
    refine List.ext_getElem? fun k => ?_
    simp only [close, List.getElem?_map, modify_cur_eq, List.getElem?_set, List.length_map]
    by_cases hk : r.cur = k
    · subst hk
      simp only [if_true, hopen.cur_lt]
      rw [List.getElem?_eq_getElem hopen.cur_lt]
      rfl
    · simp only [if_neg hk]
  rw [exits_eq] at h ⊢
  rw [hterms, filterMap_set_of_nil leaving _ _ _ (by simpa using hopen.cur_lt) h]
  by_cases ht : t.isLocal = true <;> simp [leaving, ht]

/-! ## Straight code -/

/-- Code that can be written to and that nothing leaves. -/
def Clean (r : Region) : Prop := r.Open ∧ exits r = []

/-- Clean code stays clean. -/
def Straight (s s' : LState) : Prop := Clean s.code → Clean s'.code

theorem clean_fresh : Clean (fresh : Region) := ⟨open_fresh, rfl⟩

theorem straight_emit (op : Op) (ty : Ty) : Sat Straight .univ (emit op ty) fun _ => True :=
  Sat.emit (fun _ _ hs => ⟨hs.1.push _, (exits_push _ _).trans hs.2⟩) trivial

/-! ## The division helpers -/

/-- The blocks `ks` wait to be filled, and nothing leaves the code. -/
def Ready (ks : List Nat) (s : LState) : Prop :=
  s.code.Await ks ∧ ks.Nodup ∧ exits s.code = []

/-- From a state with `P` the action, if it succeeds, comes to a state with `Q`. -/
def Keeps (P : LState → Prop) (m : LiftM α) (Q : α → LState → Prop) : Prop :=
  ∀ s a s', P s → m.run s = .ok (a, s') → Q a s'

variable {P : LState → Prop} {ks ks' : List Nat}

theorem Keeps.bind {m : LiftM α} {f : α → LiftM β} {T : α → LState → Prop} {Q : β → LState → Prop}
    (hm : Keeps P m T) (hf : ∀ a, Keeps (T a) (f a) Q) : Keeps P (m >>= f) Q := by
  intro s b s'' hs h
  obtain ⟨a, s', h₁, h₂⟩ := run_bind_ok h
  exact hf a s' b s'' (hm s a s' hs h₁) h₂

theorem keeps_emit {op : Op} {ty : Ty} : Keeps (Ready ks) (emit op ty) fun _ => Ready ks := by
  intro s v s' hs h
  rw [emit_run hs.1.1] at h
  cases h
  exact ⟨hs.1.push _, hs.2.1, (exits_push _ _).trans hs.2.2⟩

theorem keeps_store {v p : Value} : Keeps (Ready ks) (createStore v p) fun _ => Ready ks := by
  refine keeps_emit.bind fun _ => ?_
  rintro s v s' hs ⟨⟩
  exact hs

theorem keeps_assert {p : Prop} [Decidable p] {what : String} :
    Keeps P (assertThat p what) fun _ => P := by
  intro s a s' hs h
  unfold assertThat at h
  split at h
  · cases h
    exact hs
  · cases h

theorem keeps_const {val bits : Nat} : Keeps P (getUnsignedIntConst val bits) fun _ => P := by
  refine keeps_assert.bind fun _ => ?_
  rintro s v s' hs ⟨⟩
  exact hs

theorem keeps_createBlock : Keeps (Ready ks) createBlock fun k => Ready (k :: ks) := by
  rintro s k s' hs ⟨⟩
  refine ⟨hs.1.newBlock, List.nodup_cons.mpr ⟨fun hmem => ?_, hs.2.1⟩, (exits_newBlock _).trans hs.2.2⟩
  have hlt := (List.getElem?_eq_some_iff.mp (hs.1.2 _ hmem).1).1
  exact absurd hlt (Nat.lt_irrefl _)

/-- Jump away and go on in one of the waiting blocks. -/
theorem keeps_goto (ks' : List Nat) {t : Term} {k : Nat} {m : LiftM β} {Q : β → LState → Prop}
    (ht : t.isLocal = true) (hk : k ∈ ks) (hsub : ks'.Nodup → ∀ l ∈ ks', l ∈ ks)
    (hne : ks.Nodup → ks'.Nodup ∧ k ∉ ks')
    (hm : Keeps (Ready ks') m Q) :
    Keeps (Ready ks) (do terminate t; setLLVMBB k; m) Q := by
  intro s b s' hs h
  obtain ⟨_, s₁, h₁, h₂⟩ := run_bind_ok h
  rw [terminate_run hs.1.1] at h₁
  cases h₁
  obtain ⟨_, s₂, h₃, h₄⟩ := run_bind_ok h₂
  rw [setLLVMBB_run] at h₃
  cases h₃
  obtain ⟨hnd, hnk⟩ := hne hs.2.1
  refine hm _ b s' ⟨hs.1.setBlock t hk fun l hl => ⟨hsub hnd l hl, ?_⟩, hnd, ?_⟩ h₄
  · rintro rfl
    exact hnk hl
  · show exits (s.code.close t) = []
    rw [exits_close hs.1.1 hs.2.2, if_pos ht]

theorem Keeps.straight {m : LiftM α} (h : Keeps (Ready []) m fun _ => Ready []) :
    Sat Straight .univ m fun _ => True := by
  refine .of_ok fun s a s' hrun => ⟨fun hs => ?_, trivial⟩
  have hr := h s a s' ⟨⟨hs.1, fun _ hk => nomatch hk⟩, List.nodup_nil, hs.2⟩ hrun
  exact ⟨hr.1.1, hr.2.2⟩

theorem straight_checkedUnsigned (o : BinOp) (a b z : Value) :
    Sat Straight .univ (createCheckedUnsigned (createBinop · · o) a b z) fun _ => True := by
  refine Keeps.straight ?_
  unfold createCheckedUnsigned
  refine keeps_assert.bind fun _ => keeps_createBlock.bind fun divBB => ?_
  refine keeps_createBlock.bind fun retBB => keeps_const.bind fun zero => ?_
  refine keeps_emit.bind fun resPtr => keeps_store.bind fun _ => keeps_emit.bind fun c => ?_
  refine keeps_goto [retBB] rfl (by simp) (by simp) (by simp; tauto) ?_
  refine keeps_emit.bind fun d => keeps_store.bind fun _ => ?_
  refine keeps_goto [] rfl (by simp) (by simp) (by simp) ?_
  exact keeps_emit

theorem straight_checkedSigned (o : BinOp) (a b z z' : Value) :
    Sat Straight .univ (createCheckedSigned (createBinop · · o) a b z z') fun _ => True := by
  refine Keeps.straight ?_
  unfold createCheckedSigned
  refine keeps_assert.bind fun _ => keeps_createBlock.bind fun checkBB => ?_
  refine keeps_createBlock.bind fun overflowBB => keeps_createBlock.bind fun divBB => ?_
  refine keeps_createBlock.bind fun retBB => keeps_const.bind fun zero => ?_
  refine keeps_emit.bind fun resPtr => keeps_store.bind fun _ => keeps_emit.bind fun c => ?_
  refine keeps_goto [retBB, divBB, overflowBB] rfl (by simp) (by simp) (by simp; tauto) ?_
  refine keeps_emit.bind fun l => keeps_emit.bind fun r => keeps_emit.bind fun c => ?_
  refine keeps_goto [retBB, divBB] rfl (by simp) (by simp) (by simp; tauto) ?_
  refine keeps_store.bind fun _ => ?_
  refine keeps_goto [retBB] rfl (by simp) (by simp) (by simp; tauto) ?_
  refine keeps_emit.bind fun d => keeps_store.bind fun _ => ?_
  refine keeps_goto [] rfl (by simp) (by simp) (by simp) ?_
  exact keeps_emit

theorem straight_compat : Compat Straight .univ where
  exit _ := trivial
  assertion _ := trivial
  refl _ := id
  trans _ _ _ h h' := h' ∘ h
  emit op ty _ := straight_emit op ty
  unspecified _ := Sat.unspecified (fun _ _ _ hs => ⟨hs.1.push _, (exits_push _ _).trans hs.2⟩) trivial
    fun _ => trivial
  checkedUnsigned := straight_checkedUnsigned
  checkedSigned := straight_checkedSigned
  lookup _ _ := Sat.lookup fun _ _ => id

/-! ## The regions of the lifted function -/

theorem region_run {prev : Option Term} {m : LiftM Unit} (h : (region prev m).run s = .ok (r, s')) :
    m.run { s with code := ⟨[{ term := prev }], 0⟩ } = .ok ((), s') ∧ r = s'.code := by
  obtain ⟨_, s₁, h₁, h⟩ := run_bind_ok h
  cases h₁
  obtain ⟨_, s₂, h₂, h⟩ := run_bind_ok h
  obtain ⟨_, s₃, h₃, h⟩ := run_bind_ok h
  cases h₃
  cases h
  exact ⟨h₂, rfl⟩

theorem region_straight (hterm : I.opcode.isTerminator = false)
    (h : (region none (lift env I)).run s = .ok (r, s')) : exits r = [] ∧ r.term = none := by
  obtain ⟨h₁, rfl⟩ := region_run h
  have hs := (lift_sat_call straight_compat (fun _ _ _ _ _ _ => straight_emit _ _) hterm _ _ _ h₁).1
  obtain ⟨hopen, hexits⟩ := hs clean_fresh
  exact ⟨hexits, hopen.term⟩

theorem exits_of_close {t : Term} {s₁ : LState} (hs : Straight s s₁) (h : Clean s.code)
    (ht : t.isLocal = false) (heq : s' = s₁.close t) :
    exits s'.code = [t] ∧ s'.code.term = some t := by
  subst heq
  obtain ⟨hopen, hexits⟩ := hs h
  refine ⟨?_, hopen.term_close t⟩
  show exits (s₁.code.close t) = [t]
  rw [exits_close hopen hexits, ht]
  rfl

theorem ExitSpec.not_local {t : Term} (h : ExitSpec env I t) : t.isLocal = false := by
  rcases h with ⟨_, _, c, tf, _, rfl⟩ | ⟨_, b, _, rfl⟩ | ⟨_, v, rfl⟩ <;> rfl

theorem region_term (hterm : I.opcode.isTerminator = true)
    (h : (region none (lift env I)).run s = .ok (r, s')) :
    ∃ t, exits r = [t] ∧ r.term = some t ∧ ExitSpec env I t := by
  obtain ⟨h₁, rfl⟩ := region_run h
  obtain ⟨s₁, t, hs, _, heq, hspec⟩ := lift_terminator straight_compat.toEmits hterm h₁
  obtain ⟨hexits, ht⟩ := exits_of_close hs clean_fresh hspec.not_local heq
  exact ⟨t, hexits, ht, hspec⟩

theorem sat_fallThrough {R : LState → LState → Prop} {E : Set LiftError} (hB : Blocks R E) :
    Sat R E (fallThrough env) fun _ => True := by
  unfold fallThrough
  split
  · exact sat_doReturn hB
  split
  · refine hB.bind (hB.emits.liftExcept (fun _ _ => trivial) fun e he => ?_) fun _ => hB.terminate _
    obtain ⟨what, rfl⟩ := getBBByName_error he
    exact hB.assertion what
  · exact hB.pure ()

theorem region_platformInit (h : (region none (platformInit env)).run s = .ok (r, s')) :
    exits r = [] ∧ r.term = none := by
  obtain ⟨h₁, rfl⟩ := region_run h
  obtain ⟨hopen, hexits⟩ := (sat_platformInit straight_compat.toEmits _ _ _ h₁).1 clean_fresh
  exact ⟨hexits, hopen.term⟩

end BpfTv
