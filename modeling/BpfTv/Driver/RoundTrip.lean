import BpfTv.Llvm.Edit
import BpfTv.Llvm.Exec

/-!
# Round trips between pointers and integers

`tryReplacePtrtoInt` turns `inttoptr (add (ptrtoint p), x)` into a `gep` where nothing else uses the
integers. The `gep` has the address of the `inttoptr` when the integers have at least the width of a
pointer; for narrower ones it has not, and nothing looks at the width (`round_trip_collapse`).
-/

namespace BpfTv.Ssa

open Control

/-! ## The rewrite -/

/-- What is found at an `inttoptr`. -/
structure RoundTrip where
  intToPtr : Instr
  op_inst : Instr
  ptrToInt : Instr
  /-- (ptr + int) or (int + ptr) -/
  ptrOnLeft : Bool
  ptr : Val
  int : Val

/-- `dyn_cast<PtrToIntInst>` -/
def Fn.ptrToInt? (F : Fn) : Val → Option Instr
  | .inst id => (F.inst? id).filter (·.op = .ptrtoint)
  | _ => none

/-- The operand of an add that is a `ptrtoint`; the left one is tried first. -/
def Fn.ptrOperand? (F : Fn) (l r : Val) : Option (Bool × Instr) :=
  match F.ptrToInt? l with
  | some i => some (true, i)
  | none => (F.ptrToInt? r).map fun i => (false, i)

def Fn.roundTrip? (F : Fn) (id : Nat) : Option RoundTrip := do
  let intToPtr ← F.inst? id
  guard (intToPtr.op = .inttoptr)
  let [.inst a] := intToPtr.ops | none
  -- we only understand add instructions in this context
  let op_inst ← F.inst? a
  guard (op_inst.op = .binop .add ∧ (F.users (.inst a)).length ≤ 1)
  let [l, r] := op_inst.ops | none
  let (ptrOnLeft, ptrToInt) ← F.ptrOperand? l r
  guard ((F.users (.inst ptrToInt.id)).length ≤ 1)
  let [ptr] := ptrToInt.ops | none
  return { intToPtr, op_inst, ptrToInt, ptrOnLeft, ptr, int := if ptrOnLeft then r else l }

namespace RoundTrip

/-- The `gep`. The builder folds it into a constant when its operands are constants. -/
def gep (T : RoundTrip) (next : Nat) : Instr :=
  { id := next, ty := .ptr, op := .gep true [.scale 1], ops := [T.ptr, T.int] }

/-- The function with the `gep` in place, before anything is erased. -/
def replaced (T : RoundTrip) (F : Fn) (next : Nat) : Fn :=
  (F.insertBefore T.intToPtr.id [T.gep next]).replaceAllUsesWith T.intToPtr.id (.inst next)

def collapse (T : RoundTrip) (F : Fn) (next : Nat) : Fn :=
  (((T.replaced F next).eraseFromParent T.intToPtr.id).eraseFromParent T.op_inst.id).eraseFromParent
    T.ptrToInt.id

/-- Nothing uses an instruction when it is erased. -/
structure Unused (T : RoundTrip) (F : Fn) (next : Nat) : Prop where
  intToPtr : (T.replaced F next).users (.inst T.intToPtr.id) = []
  op_inst : ((T.replaced F next).eraseFromParent T.intToPtr.id).users (.inst T.op_inst.id) = []
  ptrToInt : (((T.replaced F next).eraseFromParent T.intToPtr.id).eraseFromParent T.op_inst.id).users
    (.inst T.ptrToInt.id) = []

end RoundTrip

/-- A round trip in the function that it has been found in, with the id of its `gep`. -/
structure Collapse where
  fn : Fn
  trip : RoundTrip
  next : Nat

/-- The round trips that the sweep over instructions `ids` replaces. -/
def Fn.collapses (F : Fn) (next : Nat) : List Nat → List Collapse
  | [] => []
  | id :: ids =>
    match F.roundTrip? id with
    | some T => ⟨F, T, next⟩ :: (T.collapse F next).collapses (next + 1) ids
    | none => F.collapses next ids

def Fn.sweep (F : Fn) (next : Nat) : List Nat → Fn
  | [] => F
  | id :: ids =>
    match F.roundTrip? id with
    | some T => (T.collapse F next).sweep (next + 1) ids
    | none => F.sweep next ids

def Fn.tryReplacePtrtoInt (F : Fn) : Fn := F.sweep F.fresh (F.instrs.map (·.id))

variable {F : Fn} {T : RoundTrip} {i j : Instr} {v : Val} {id next : Nat}

/-! ## The address -/

section address

variable {V : Type} {w : Nat}

/-- What the three instructions compute from `p` and `x`. -/
def RoundTrip.address (T : RoundTrip) (p : BitVec 64) (x : BitVec w) : Option (Datum V) := do
  let n ← evalAddress T.ptrToInt.op T.ptrToInt.ty [.ptr p]
  let s ← evalAddress T.op_inst.op T.op_inst.ty (if T.ptrOnLeft then [n, .int w x] else [.int w x, n])
  evalAddress T.intToPtr.op T.intToPtr.ty [s]

/-- What the `gep` computes. -/
def RoundTrip.gepAddress (T : RoundTrip) (p : BitVec 64) (x : BitVec w) : Option (Datum V) :=
  evalAddress (T.gep 0).op (T.gep 0).ty [.ptr p, .int w x]

/-- An addition of at least 64 bits does not lose anything of the address. -/
theorem setWidth_add (h : 64 ≤ w) (p : BitVec 64) (x : BitVec w) :
    (p.setWidth w + x).setWidth 64 = p + x.signExtend 64 := by
  rw [BitVec.setWidth_add _ _ h, BitVec.setWidth_setWidth_of_le _ h, BitVec.setWidth_eq,
    BitVec.signExtend_eq_setWidth_of_le _ h]

/-- A narrower one loses bit `w` of the pointer. -/
theorem setWidth_add_ne (h : w < 64) :
    ((BitVec.twoPow 64 w).setWidth w + 0#w).setWidth 64 ≠ BitVec.twoPow 64 w + (0#w).signExtend 64 := by
  have hzero : (BitVec.twoPow 64 w).setWidth w = 0#w := by
    refine BitVec.eq_of_toNat_eq ?_
    rw [BitVec.toNat_setWidth, BitVec.toNat_twoPow_of_lt h, Nat.mod_self]
    rfl
  have hsign : (0#w).signExtend 64 = 0#64 := by
    rw [BitVec.signExtend_eq_setWidth_of_msb_false BitVec.msb_zero]
    exact BitVec.setWidth_zero ..
  rw [hzero, hsign, BitVec.add_zero, BitVec.add_zero, BitVec.setWidth_zero]
  intro heq
  have hnat := congrArg BitVec.toNat heq
  rw [BitVec.toNat_twoPow_of_lt h] at hnat
  exact absurd hnat.symm (Nat.two_pow_pos w).ne'

/-- The three instructions are scalar, with integers of one width. -/
structure RoundTrip.Shares (T : RoundTrip) (w : Nat) : Prop where
  intToPtr : T.intToPtr.ty = .ptr
  op_inst : T.op_inst.ty = .int w
  ptrToInt : T.ptrToInt.ty = .int w

/-- What a round trip consists of. -/
structure RoundTrip.Found (T : RoundTrip) (F : Fn) : Prop where
  intToPtr_mem : T.intToPtr ∈ F.instrs
  intToPtr_op : T.intToPtr.op = .inttoptr
  intToPtr_ops : T.intToPtr.ops = [.inst T.op_inst.id]
  op_inst_mem : T.op_inst ∈ F.instrs
  op_inst_op : T.op_inst.op = .binop .add
  op_inst_ops : T.op_inst.ops =
    if T.ptrOnLeft then [.inst T.ptrToInt.id, T.int] else [T.int, .inst T.ptrToInt.id]
  op_inst_users : (F.users (.inst T.op_inst.id)).length ≤ 1
  ptrToInt_mem : T.ptrToInt ∈ F.instrs
  ptrToInt_op : T.ptrToInt.op = .ptrtoint
  ptrToInt_ops : T.ptrToInt.ops = [T.ptr]
  ptrToInt_users : (F.users (.inst T.ptrToInt.id)).length ≤ 1

theorem inst?_some (h : F.inst? id = some i) : i ∈ F.instrs ∧ i.id = id :=
  ⟨List.mem_of_find?_eq_some h, by simpa using List.find?_some h⟩

theorem ptrToInt?_some (h : F.ptrToInt? v = some i) : i ∈ F.instrs ∧ i.op = .ptrtoint ∧ v = .inst i.id := by
  unfold Fn.ptrToInt? at h
  split at h
  · rw [Option.filter_eq_some_iff] at h
    obtain ⟨hmem, hid⟩ := inst?_some h.1
    exact ⟨hmem, by simpa using h.2, by rw [hid]⟩
  · cases h

theorem ptrOperand?_some {l r : Val} {left : Bool} (h : F.ptrOperand? l r = some (left, i)) :
    i ∈ F.instrs ∧ i.op = .ptrtoint ∧ (if left then l else r) = .inst i.id := by
  unfold Fn.ptrOperand? at h
  split at h
  · rename_i j hj
    cases h
    exact ptrToInt?_some hj
  · rw [Option.map_eq_some_iff] at h
    obtain ⟨j, hj, h⟩ := h
    cases h
    exact ptrToInt?_some hj

theorem roundTrip?_iff : F.roundTrip? id = some T ↔
    F.inst? id = some T.intToPtr ∧ T.intToPtr.op = .inttoptr ∧ ∃ a, T.intToPtr.ops = [.inst a] ∧
      F.inst? a = some T.op_inst ∧ T.op_inst.op = .binop .add ∧ (F.users (.inst a)).length ≤ 1 ∧
      ∃ l r, T.op_inst.ops = [l, r] ∧ F.ptrOperand? l r = some (T.ptrOnLeft, T.ptrToInt) ∧
        (F.users (.inst T.ptrToInt.id)).length ≤ 1 ∧ T.ptrToInt.ops = [T.ptr] ∧
        T.int = if T.ptrOnLeft then r else l := by
  constructor
  · intro h
    unfold Fn.roundTrip? at h
    simp only [Option.bind_eq_bind, Option.bind_eq_some_iff, Option.guard_eq_some'] at h
    obtain ⟨intToPtr, hitp, _, hop, h⟩ := h
    split at h
    · rename_i a hops
      simp only [Option.bind_eq_some_iff, Option.guard_eq_some'] at h
      obtain ⟨op_inst, hadd, _, ⟨haddop, hadduse⟩, h⟩ := h
      split at h
      · rename_i l r haddops
        simp only [Option.bind_eq_some_iff, Option.guard_eq_some'] at h
        obtain ⟨⟨left, ptrToInt⟩, hptr, _, huse, h⟩ := h
        split at h
        · rename_i p hpops
          simp only [Option.pure_def, Option.some.injEq] at h
          subst h
          exact ⟨hitp, hop, a, hops, hadd, haddop, hadduse, l, r, haddops, hptr, huse, hpops, rfl⟩
        · cases h
      · cases h
    · cases h
  · rintro ⟨hitp, hop, a, hops, hadd, haddop, hadduse, l, r, haddops, hptr, huse, hpops, hint⟩
    simp [Fn.roundTrip?, hitp, hop, hops, hadd, haddop, hadduse, haddops, hptr, huse, hpops, ← hint]

theorem roundTrip?_some (h : F.roundTrip? id = some T) : T.Found F ∧ T.intToPtr.id = id := by
  obtain ⟨hitp, hop, a, hops, hadd, haddop, hadduse, l, r, haddops, hptr, huse, hpops, hint⟩ :=
    roundTrip?_iff.mp h
  obtain ⟨hmem, hid⟩ := inst?_some hitp
  obtain ⟨haddmem, rfl⟩ := inst?_some hadd
  obtain ⟨hpmem, hpop, hval⟩ := ptrOperand?_some hptr
  refine ⟨⟨hmem, hop, hops, haddmem, haddop, ?_, hadduse, hpmem, hpop, hpops, huse⟩, hid⟩
  rw [haddops, hint]
  by_cases hleft : T.ptrOnLeft = true
  · rw [if_pos hleft] at hval
    rw [if_pos hleft, if_pos hleft, hval]
  · rw [if_neg hleft] at hval
    rw [if_neg hleft, if_neg hleft, hval]

theorem RoundTrip.Found.address_eq (h : T.Found F) (hw : T.Shares w) (p : BitVec 64) (x : BitVec w) :
    (T.address p x : Option (Datum V)) = some (.ptr ((p.setWidth w + x).setWidth 64)) := by
  have hsum : ∀ n : BitVec w, evalAddress (.binop .add) (.int w)
      (if T.ptrOnLeft then [.int w n, .int w x] else [.int w x, .int w n] : List (Datum V)) =
      some (.int w (n + x)) := by
    intro n
    by_cases hl : T.ptrOnLeft = true
    · rw [if_pos hl]
      simp [evalAddress]
    · rw [if_neg hl]
      simp [evalAddress, BitVec.add_comm]
  have hint : evalAddress .ptrtoint (.int w) [.ptr p] = some (Datum.int w (p.setWidth w) : Datum V) := rfl
  rw [RoundTrip.address, h.ptrToInt_op, hw.ptrToInt, h.op_inst_op, hw.op_inst, h.intToPtr_op, hw.intToPtr]
  simp only [hint, Option.bind_eq_bind, Option.bind_some, hsum]
  rfl

theorem gepAddress_eq (T : RoundTrip) (p : BitVec 64) (x : BitVec w) :
    (T.gepAddress p x : Option (Datum V)) = some (.ptr (p + x.signExtend 64)) := by
  have hone : BitVec.ofNat 64 1 * x.signExtend 64 = x.signExtend 64 := BitVec.one_mul _
  show (BpfTv.Ssa.gepAddress p [.scale 1] [(.int w x : Datum V)]).map Datum.ptr = _
  rw [BpfTv.Ssa.gepAddress, hone]
  rfl

/-- The two addresses agree for all pointers and integers exactly when the integers are wide enough. -/
theorem RoundTrip.Found.address_iff (h : T.Found F) (hw : T.Shares w) :
    (∀ (p : BitVec 64) (x : BitVec w), (T.address p x : Option (Datum V)) = T.gepAddress p x) ↔ 64 ≤ w := by
  constructor
  · intro heq
    by_contra hlt
    have h' := heq (BitVec.twoPow 64 w) 0#w
    rw [h.address_eq hw, gepAddress_eq] at h'
    exact setWidth_add_ne (by omega) (Datum.ptr.inj (Option.some.inj h'))
  · intro hle p x
    rw [h.address_eq hw, gepAddress_eq, setWidth_add hle]

end address

/-! ## Users -/

namespace RoundTrip

/-- The edits of a round trip, with the instructions `gone` erased. -/
def edits (T : RoundTrip) (next : Nat) (gone : List Nat) : Edits where
  new i := (if i.id = T.intToPtr.id then [T.gep next] else []) ++ if i.id ∈ gone then [] else [i]
  subst := Val.subst T.intToPtr.id (.inst next)

theorem replaced_edits (T : RoundTrip) (F : Fn) (next : Nat) :
    T.replaced F next = F.edit (T.edits next []) := by
  have hinsert : F.insertBefore T.intToPtr.id [T.gep next] = F.edit
      { new := fun i => [i].flatMap fun j => if j.id = T.intToPtr.id then [T.gep next] ++ [j] else [j] } := by
    have hnone := insertBefore_edit (F := F) (E := {}) (g := T.intToPtr.id) (by simp)
      fun x (_ : x ∈ [T.gep next]) => x.map_self
    rwa [edit_none] at hnone
  rw [replaced, hinsert, replaceAllUsesWith_edit (by simp)]
  have hnew : (fun i : Instr => [i].flatMap fun j => if j.id = T.intToPtr.id then [T.gep next] ++ [j] else [j]) =
      (T.edits next []).new := by
    funext i
    by_cases hid : i.id = T.intToPtr.id
    · simp [edits, hid]
    · simp [edits, hid]
  rw [hnew]
  rfl

theorem erase_edits (T : RoundTrip) (F : Fn) {gone : List Nat} (hne : id ≠ next) :
    (F.edit (T.edits next gone)).eraseFromParent id = F.edit (T.edits next (gone ++ [id])) := by
  rw [eraseFromParent_edit (by simp [edits])]
  have hnew : (fun i => ((T.edits next gone).new i).filter (·.id ≠ id)) = (T.edits next (gone ++ [id])).new := by
    funext i
    have hgep : [T.gep next].filter (·.id ≠ id) = [T.gep next] := by
      simp [gep, hne.symm]
    simp only [edits, List.filter_append]
    congr 1
    · split
      · exact hgep
      · rfl
    · by_cases hgone : i.id ∈ gone
      · simp [hgone]
      · by_cases hid : i.id = id
        · simp [hid]
        · simp [hgone, hid]
  rw [hnew]
  rfl

theorem mem_edits_new {gone : List Nat} {x : Instr} (h : x ∈ (T.edits next gone).new i) :
    x = T.gep next ∧ i.id = T.intToPtr.id ∨ x = i ∧ i.id ∉ gone := by
  simp only [edits, List.mem_append] at h
  rcases h with h | h
  · split at h
    · exact Or.inl ⟨List.mem_singleton.mp h, by assumption⟩
    · cases h
  · split at h
    · cases h
    · exact Or.inr ⟨List.mem_singleton.mp h, by assumption⟩

theorem subst_inst {old g : Nat} {v₀ : Val} (h : Val.subst old (.inst next) v₀ = .inst g) (hne : g ≠ next) :
    v₀ = .inst g ∧ g ≠ old := by
  unfold Val.subst at h
  split at h
  · exact absurd (Val.inst.inj h).symm hne
  · rename_i hold
    exact ⟨h, fun heq => hold (heq ▸ h)⟩

theorem no_use_edits {gone : List Nat} {g : Nat} (hg : g ≠ next)
    (hgep : ∀ v ∈ (T.gep next).ops, v ≠ .inst g)
    (hold : ∀ u, F.UsedBy (.inst g) u → g ≠ T.intToPtr.id → ∃ i, u = .instr i ∧ i.id ∈ gone) :
    (F.edit (T.edits next gone)).users (.inst g) = [] := by
  refine users_eq_nil fun u hu => ?_
  obtain ⟨v₀, hsubst, hcase⟩ := usedBy_edit (List.forall_mem_nil _) hu
  obtain ⟨rfl, hne⟩ := subst_inst hsubst hg
  rcases hcase with ⟨i, hi, x, hx, hv⟩ | ⟨u₀, hu₀, hnot⟩
  · rcases mem_edits_new hx with ⟨rfl, _⟩ | ⟨rfl, hgone⟩
    · exact hgep _ hv rfl
    · obtain ⟨j, hj, hin⟩ := hold _ (.instr hi hv) hne
      exact hgone (User.instr.inj hj ▸ hin)
  · obtain ⟨j, hj, _⟩ := hold u₀ hu₀ hne
    exact hnot j hj

section found

variable (h : T.Found F)
include h

theorem Found.op_inst_use : .inst T.op_inst.id ∈ T.intToPtr.ops := by
  rw [h.intToPtr_ops]
  exact List.mem_singleton_self _

theorem Found.ptrToInt_use : .inst T.ptrToInt.id ∈ T.op_inst.ops := by
  rw [h.op_inst_ops]
  split <;> simp

theorem Found.int_use : T.int ∈ T.op_inst.ops := by
  rw [h.op_inst_ops]
  split <;> simp

theorem Found.ptr_use : T.ptr ∈ T.ptrToInt.ops := by
  rw [h.ptrToInt_ops]
  exact List.mem_singleton_self _

/-- Only the `inttoptr` uses the sum. -/
theorem Found.op_inst_sole {u : User} (hu : F.UsedBy (.inst T.op_inst.id) u) : u = .instr T.intToPtr :=
  sole_user h.op_inst_users h.intToPtr_mem h.op_inst_use hu

theorem Found.ptrToInt_sole {u : User} (hu : F.UsedBy (.inst T.ptrToInt.id) u) : u = .instr T.op_inst :=
  sole_user h.ptrToInt_users h.op_inst_mem h.ptrToInt_use hu

theorem Found.instr_ne : T.op_inst ≠ T.intToPtr ∧ T.ptrToInt ≠ T.intToPtr ∧ T.ptrToInt ≠ T.op_inst := by
  have hitp := h.intToPtr_op
  have hadd := h.op_inst_op
  have hptr := h.ptrToInt_op
  refine ⟨fun heq => ?_, fun heq => ?_, fun heq => ?_⟩
  · rw [heq, hitp] at hadd
    cases hadd
  · rw [heq, hitp] at hptr
    cases hptr
  · rw [heq, hadd] at hptr
    cases hptr

theorem Found.gep_ops : ∀ v ∈ (T.gep next).ops, v ≠ .inst T.op_inst.id ∧ v ≠ .inst T.ptrToInt.id := by
  obtain ⟨hne₁, hne₂, hne₃⟩ := h.instr_ne
  have hptr : T.ptr ≠ .inst T.op_inst.id ∧ T.ptr ≠ .inst T.ptrToInt.id := by
    have huse := h.ptr_use
    refine ⟨fun heq => ?_, fun heq => ?_⟩
    · rw [heq] at huse
      exact hne₂ (User.instr.inj (h.op_inst_sole (.instr h.ptrToInt_mem huse)))
    · rw [heq] at huse
      exact hne₃ (User.instr.inj (h.ptrToInt_sole (.instr h.ptrToInt_mem huse)))
  have hint : T.int ≠ .inst T.op_inst.id ∧ T.int ≠ .inst T.ptrToInt.id := by
    refine ⟨fun heq => ?_, fun heq => ?_⟩
    · have huse := h.int_use
      rw [heq] at huse
      exact hne₁ (User.instr.inj (h.op_inst_sole (.instr h.op_inst_mem huse)))
    · -- the sum would use it twice
      have htwo : T.op_inst.ops.count (.inst T.ptrToInt.id) = 2 := by
        rw [h.op_inst_ops, heq]
        split <;> simp
      have hle := count_le_users (v := .inst T.ptrToInt.id) h.op_inst_mem
      have hone := h.ptrToInt_users
      omega
  intro v hv
  rcases List.mem_cons.mp hv with rfl | hv
  · exact hptr
  · rw [List.mem_singleton.mp hv]
    exact hint

theorem Found.unused (hnext : T.intToPtr.id ≠ next ∧ T.op_inst.id ≠ next ∧ T.ptrToInt.id ≠ next) :
    T.Unused F next where
  intToPtr := by
    rw [replaced_edits]
    refine users_eq_nil fun u hu => ?_
    obtain ⟨v₀, hsubst, _⟩ := usedBy_edit (List.forall_mem_nil _) hu
    exact (subst_inst hsubst hnext.1).2 rfl
  op_inst := by
    rw [replaced_edits, erase_edits T F hnext.1]
    refine no_use_edits hnext.2.1 (fun v hv => (h.gep_ops v hv).1) fun u hu _ => ?_
    exact ⟨_, h.op_inst_sole hu, List.mem_singleton_self _⟩
  ptrToInt := by
    rw [replaced_edits, erase_edits T F hnext.1, erase_edits T F hnext.2.1]
    refine no_use_edits hnext.2.2 (fun v hv => (h.gep_ops v hv).2) fun u hu _ => ?_
    exact ⟨_, h.ptrToInt_sole hu, by simp⟩

end found

/-- The instructions that are erased. -/
def erased (T : RoundTrip) : List Nat := [T.intToPtr.id, T.op_inst.id, T.ptrToInt.id]

theorem collapse_edits (T : RoundTrip) (F : Fn)
    (hnext : T.intToPtr.id ≠ next ∧ T.op_inst.id ≠ next ∧ T.ptrToInt.id ≠ next) :
    T.collapse F next = F.edit (T.edits next T.erased) := by
  rw [collapse, replaced_edits, erase_edits T F hnext.1, erase_edits T F hnext.2.1,
    erase_edits T F hnext.2.2]
  rfl

end RoundTrip

end BpfTv.Ssa
