import BpfTv.Driver.RoundTrip
import BpfTv.Llvm.EditFlow

/-!
# Functions with collapsed round trips

A function in SSA form is in SSA form again when a round trip has been collapsed, and its runs have the
same values as before: the two integers are gone, and the `gep` stands for the `inttoptr`.
-/

namespace BpfTv.Ssa

open Control

namespace RoundTrip

variable {F : Fn} {T : RoundTrip} {i j : Instr} {v : Val} {a next : Nat} {b : Block}

/-! ## The edited function -/

/-- The instruction is still there, or has made way for the `gep`. -/
def keeps (T : RoundTrip) (a : Nat) : Bool := a ≠ T.op_inst.id && a ≠ T.ptrToInt.id

/-- The instruction that has taken its place. -/
def rename (T : RoundTrip) (next a : Nat) : Nat := if a = T.intToPtr.id then next else a

/-- What is given of a function and a round trip that has been found in it. -/
structure Setup (T : RoundTrip) (F : Fn) (next : Nat) : Prop where
  found : T.Found F
  ssa : F.SsaForm
  lt : ∀ a ∈ F.ids, a < next

def result (T : RoundTrip) (F : Fn) (next : Nat) : Fn := F.edit (T.edits next T.erased)

/-- What has become of the rest of a block. -/
def remaining (T : RoundTrip) (next : Nat) (is : List Instr) : List Instr :=
  is.flatMap fun i => ((T.edits next T.erased).new i).map (·.map (T.edits next T.erased).subst)

/-- The value is not one of the two integers, and not new. -/
def Stays (T : RoundTrip) (next : Nat) (v : Val) : Prop :=
  v ≠ .inst T.op_inst.id ∧ v ≠ .inst T.ptrToInt.id ∧ v ≠ .inst next

section setup

variable (S : T.Setup F next)
include S

theorem Setup.ne_next (ha : a ∈ F.ids) : a ≠ next := Nat.ne_of_lt (S.lt a ha)

theorem Setup.erased_ne : T.intToPtr.id ≠ next ∧ T.op_inst.id ≠ next ∧ T.ptrToInt.id ≠ next :=
  ⟨S.ne_next (mem_ids S.found.intToPtr_mem), S.ne_next (mem_ids S.found.op_inst_mem),
    S.ne_next (mem_ids S.found.ptrToInt_mem)⟩

theorem Setup.ids_ne : T.op_inst.id ≠ T.intToPtr.id ∧ T.ptrToInt.id ≠ T.intToPtr.id ∧
    T.ptrToInt.id ≠ T.op_inst.id := by
  obtain ⟨h₁, h₂, h₃⟩ := S.found.instr_ne
  have hf := S.found
  exact ⟨fun h => h₁ (S.ssa.inj hf.op_inst_mem hf.intToPtr_mem h),
    fun h => h₂ (S.ssa.inj hf.ptrToInt_mem hf.intToPtr_mem h),
    fun h => h₃ (S.ssa.inj hf.ptrToInt_mem hf.op_inst_mem h)⟩

theorem Setup.collapse_eq : T.collapse F next = T.result F next := collapse_edits T F S.erased_ne

theorem Setup.new_ids (i : Instr) :
    ((T.edits next T.erased).new i).map (·.id) =
      if T.keeps i.id then [T.rename next i.id] else [] := by
  obtain ⟨hadd, hptr, _⟩ := S.ids_ne
  by_cases hitp : i.id = T.intToPtr.id
  · have hk : T.keeps i.id = true := by
      rw [hitp]
      simp [keeps, hadd.symm, hptr.symm]
    rw [if_pos hk, rename, if_pos hitp]
    simp [edits, hitp, erased, gep]
  · by_cases hk : T.keeps i.id = true
    · have hk' : i.id ≠ T.op_inst.id ∧ i.id ≠ T.ptrToInt.id := by simpa [keeps] using hk
      rw [if_pos hk, rename, if_neg hitp]
      simp [edits, hitp, erased, hk']
    · have hk' : i.id = T.op_inst.id ∨ i.id = T.ptrToInt.id := by
        simp only [keeps, Bool.and_eq_true, decide_eq_true_eq, not_and_or, not_not] at hk
        exact hk
      rw [if_neg hk]
      rcases hk' with hk' | hk' <;> simp [edits, erased, hk', hadd, hptr]

theorem Setup.remaining_ids (xs : List Instr) : (T.remaining next xs).map (·.id) =
    ((xs.map (·.id)).filter T.keeps).map (T.rename next) := by
  unfold remaining
  induction xs with
  | nil => rfl
  | cons x xs ih =>
    rw [List.flatMap_cons, List.map_append, ih, List.map_map, List.map_cons, List.filter_cons]
    have hx := S.new_ids x
    have hmap : ((T.edits next T.erased).new x).map
        ((·.id) ∘ (·.map (T.edits next T.erased).subst)) = ((T.edits next T.erased).new x).map (·.id) := rfl
    rw [hmap, hx]
    split <;> rfl

theorem Setup.body_ids (b : Block) : (b.edit (T.edits next T.erased)).body.map (·.id) =
    ((b.body.map (·.id)).filter T.keeps).map (T.rename next) := S.remaining_ids b.body

theorem Setup.phi_ne (hb : b ∈ F.blocks) (ha : a ∈ b.phis.map (·.id)) (hi : i ∈ F.instrs) : a ≠ i.id := by
  rintro rfl
  obtain ⟨k, hk⟩ := List.mem_iff_getElem?.mp hb
  have hdef : F.Defines i.id (.phis k) := ⟨b, hk, ha⟩
  cases S.ssa.defines_eq hi hdef

theorem Setup.ids_eq : (T.result F next).ids = (F.ids.filter T.keeps).map (T.rename next) := by
  rw [Fn.ids, result, edit_blocks rfl, List.flatMap_map, Fn.ids, List.filter_flatMap, List.map_flatMap]
  refine List.flatMap_congr fun b hb => ?_
  rw [S.body_ids, List.filter_append, List.map_append]
  congr 1
  -- phis are not touched
  have hphi : ∀ a ∈ b.phis.map (·.id), T.keeps a = true ∧ T.rename next a = a := by
    intro a ha
    refine ⟨?_, if_neg (S.phi_ne hb ha S.found.intToPtr_mem)⟩
    simp [keeps, S.phi_ne hb ha S.found.op_inst_mem, S.phi_ne hb ha S.found.ptrToInt_mem]
  rw [List.filter_eq_self.mpr fun a ha => (hphi a ha).1]
  have hmap : (b.edit (T.edits next T.erased)).phis.map (·.id) = b.phis.map (·.id) := by
    simp [Block.edit, Function.comp_def, Phi.map]
  rw [hmap]
  conv_lhs => rw [← List.map_id (b.phis.map (·.id))]
  exact List.map_congr_left fun a ha => (hphi a ha).2.symm

theorem Setup.mem_ids_iff : a ∈ (T.result F next).ids ↔
    a = next ∨ a ∈ F.ids ∧ a ∉ T.erased := by
  obtain ⟨hadd, hptr, _⟩ := S.ids_ne
  rw [S.ids_eq, List.mem_map]
  constructor
  · rintro ⟨x, hx, rfl⟩
    rw [List.mem_filter] at hx
    have hk : x ≠ T.op_inst.id ∧ x ≠ T.ptrToInt.id := by simpa [keeps] using hx.2
    by_cases hitp : x = T.intToPtr.id
    · exact Or.inl (if_pos hitp)
    · rw [rename, if_neg hitp]
      exact Or.inr ⟨hx.1, by simp [erased, hitp, hk]⟩
  · rintro (rfl | ⟨ha, hne⟩)
    · refine ⟨T.intToPtr.id, List.mem_filter.mpr ⟨mem_ids S.found.intToPtr_mem, ?_⟩, if_pos rfl⟩
      simp [keeps, hadd.symm, hptr.symm]
    · simp only [erased, List.mem_cons, List.not_mem_nil, or_false, not_or] at hne
      exact ⟨a, List.mem_filter.mpr ⟨ha, by simp [keeps, hne]⟩, if_neg hne.1⟩

theorem Setup.nodup : (T.result F next).ids.Nodup := by
  rw [S.ids_eq]
  refine (S.ssa.nodup.filter _).map_on fun x hx y hy hxy => ?_
  have hx' := S.ne_next (List.mem_of_mem_filter hx)
  have hy' := S.ne_next (List.mem_of_mem_filter hy)
  unfold rename at hxy
  split at hxy
  · split at hxy
    · rename_i h h'
      rw [h, h']
    · exact absurd hxy.symm hy'
  · split at hxy
    · exact absurd hxy hx'
    · exact hxy

/-! ## Operands -/

theorem Setup.stays {u : User} (hu : F.UsedBy v u) (hne : u ≠ .instr T.intToPtr) (hne' : u ≠ .instr T.op_inst) :
    T.Stays next v := by
  refine ⟨?_, ?_, ?_⟩
  · rintro rfl
    exact hne (S.found.op_inst_sole hu)
  · rintro rfl
    exact hne' (S.found.ptrToInt_sole hu)
  · rintro rfl
    exact S.ne_next (S.ssa.closed next u hu) rfl

theorem Setup.stays_gep (hv : v ∈ (T.gep next).ops) : T.Stays next v := by
  have hf := S.found
  refine ⟨(hf.gep_ops v hv).1, (hf.gep_ops v hv).2, ?_⟩
  rintro rfl
  rcases List.mem_cons.mp hv with h | h
  · exact S.ne_next (S.ssa.closed next _ (.instr hf.ptrToInt_mem (h ▸ hf.ptr_use))) rfl
  · exact S.ne_next (S.ssa.closed next _ (.instr hf.op_inst_mem (List.mem_singleton.mp h ▸ hf.int_use))) rfl

theorem Setup.stays_new {x : Instr} (hi : i ∈ F.instrs) (hx : x ∈ (T.edits next T.erased).new i)
    (hv : v ∈ x.ops) : T.Stays next v := by
  rcases mem_edits_new hx with ⟨rfl, _⟩ | ⟨rfl, hgone⟩
  · exact S.stays_gep hv
  · refine S.stays (.instr hi hv) (fun heq => hgone ?_) fun heq => hgone ?_
    · simp [erased, User.instr.inj heq]
    · simp [erased, User.instr.inj heq]

/-- The operands of the new function come from operands of the old one. -/
theorem Setup.operand {u : User} (h : (T.result F next).UsedBy (.inst a) u) :
    a = next ∨ a ∉ T.erased ∧ ∃ u₀, F.UsedBy (.inst a) u₀ := by
  have hf := S.found
  obtain ⟨v₀, hsubst, hcase⟩ := usedBy_edit (List.forall_mem_nil _) h
  have hsubst' : Val.subst T.intToPtr.id (.inst next) v₀ = .inst a := hsubst
  have hold : T.Stays next v₀ ∧ ∃ u₀, F.UsedBy v₀ u₀ := by
    rcases hcase with ⟨i, hi, x, hx, hv⟩ | ⟨u₀, hu₀, hnot⟩
    · refine ⟨S.stays_new hi hx hv, ?_⟩
      rcases mem_edits_new hx with ⟨rfl, _⟩ | ⟨rfl, _⟩
      · rcases List.mem_cons.mp hv with rfl | hv
        · exact ⟨_, .instr hf.ptrToInt_mem hf.ptr_use⟩
        · obtain rfl := List.mem_singleton.mp hv
          exact ⟨_, .instr hf.op_inst_mem hf.int_use⟩
      · exact ⟨_, .instr hi hv⟩
    · exact ⟨S.stays hu₀ (hnot _) (hnot _), u₀, hu₀⟩
  obtain ⟨⟨hne₁, hne₂, _⟩, u₀, hu₀⟩ := hold
  by_cases hitp : v₀ = .inst T.intToPtr.id
  · rw [hitp, Val.subst_self] at hsubst'
    exact Or.inl (Val.inst.inj hsubst').symm
  · rw [Val.subst_ne hitp] at hsubst'
    subst hsubst'
    refine Or.inr ⟨?_, u₀, hu₀⟩
    simp only [erased, List.mem_cons, List.not_mem_nil, or_false, not_or]
    exact ⟨fun h => hitp (h ▸ rfl), fun h => hne₁ (h ▸ rfl), fun h => hne₂ (h ▸ rfl)⟩

theorem Setup.closed : ∀ a u, (T.result F next).UsedBy (.inst a) u → a ∈ (T.result F next).ids := by
  intro a u h
  rw [S.mem_ids_iff]
  rcases S.operand h with rfl | ⟨hne, u₀, hu₀⟩
  · exact Or.inl rfl
  · exact Or.inr ⟨S.ssa.closed a u₀ hu₀, hne⟩

/-! ## Dominance -/

theorem Setup.dom_gep {d : Node} {v₀ : Val} (hv : v₀ ∈ (T.gep next).ops) (ha : v₀ = .inst a)
    (hd : F.Defines a d) : Dom F.Edge (.phis 0) d (.body T.intToPtr.id) := by
  have hf := S.found
  have hadd := S.ssa.dom_operand hf.intToPtr_mem hf.op_inst_mem hf.op_inst_use
  have hptr := S.ssa.dom_operand hf.op_inst_mem hf.ptrToInt_mem hf.ptrToInt_use
  rcases List.mem_cons.mp hv with rfl | hv
  · have huse := hf.ptr_use
    rw [ha] at huse
    exact ((S.ssa.dom _ hf.ptrToInt_mem a huse d hd).trans hptr).trans hadd
  · obtain rfl := List.mem_singleton.mp hv
    have huse := hf.int_use
    rw [ha] at huse
    exact (S.ssa.dom _ hf.op_inst_mem a huse d hd).trans hadd

theorem Setup.dom_place {v₀ : Val} {x : Instr} (hi : i ∈ F.instrs) (hx : x ∈ (T.edits next T.erased).new i)
    (hv : v₀ ∈ x.ops) (ha : v₀ = .inst a) {d : Node} (hd : F.Defines a d) :
    Dom F.Edge (.phis 0) d (.body i.id) := by
  rcases mem_edits_new hx with ⟨rfl, hid⟩ | ⟨rfl, _⟩
  · rw [hid]
    exact S.dom_gep hv ha hd
  · exact S.ssa.dom x hi a (ha ▸ hv) d hd

theorem Setup.defines_place {v₀ : Val} {d : Node} (hne : F.blocks ≠ []) (hv : T.Stays next v₀)
    (hsubst : (T.edits next T.erased).subst v₀ = .inst a) (hd : (T.result F next).Defines a d) :
    ∃ o a₀, d ∈ (T.edits next T.erased).nodes F o ∧ v₀ = .inst a₀ ∧ F.Defines a₀ o := by
  have hsubst' : Val.subst T.intToPtr.id (.inst next) v₀ = .inst a := hsubst
  rcases defines_edit hne hd with ⟨k, rfl, hk⟩ | ⟨rfl, ⟨_, hx, _⟩ | ⟨i, hi, x, hx, rfl⟩⟩
  · obtain ⟨b, hb, hphi⟩ := id hk
    have hmem : a ∈ F.ids :=
      List.mem_flatMap.mpr ⟨b, List.mem_of_getElem? hb, List.mem_append_left _ hphi⟩
    exact ⟨_, a, List.mem_cons_self .., (subst_inst hsubst' (S.ne_next hmem)).1, hk⟩
  · cases hx
  · have hnode : Node.body x.id ∈ (T.edits next T.erased).nodes F (.body i.id) := by
      rw [nodes_body S.ssa.nodup hi]
      exact List.mem_map_of_mem hx
    refine ⟨_, i.id, hnode, ?_, Fn.defines_body hi⟩
    rcases mem_edits_new hx with ⟨rfl, hid⟩ | ⟨rfl, _⟩
    · -- the operand was the `inttoptr`
      by_contra hne
      rw [Val.subst_ne (hid ▸ hne)] at hsubst'
      exact hv.2.2 hsubst'
    · exact (subst_inst hsubst' (S.ne_next (mem_ids hi))).1

/-- The new function is in SSA form. -/
theorem Setup.ssaForm : (T.result F next).SsaForm where
  nodup := S.nodup
  closed := S.closed
  dom := by
    intro j hj a ha d hd
    obtain ⟨i, hi, x, hx, rfl⟩ := (mem_instrs_edit rfl).mp hj
    obtain ⟨v₀, hv₀, hsubst⟩ := List.mem_map.mp ha
    obtain ⟨b, hb, _⟩ := Fn.mem_instrs.mp hi
    have hne : F.blocks ≠ [] := List.ne_nil_of_mem hb
    obtain ⟨o, a₀, ho, hv, hdef⟩ := S.defines_place hne (S.stays_new hi hx hv₀) hsubst hd
    have huser : Node.body x.id ∈ (T.edits next T.erased).nodes F (.body i.id) := by
      rw [nodes_body S.ssa.nodup hi]
      exact List.mem_map_of_mem hx
    exact dom_edit hne S.nodup S.ssa.nodup ho huser (S.dom_place hi hx hv₀ hv hdef)

theorem Setup.lt_succ : ∀ a ∈ (T.result F next).ids, a < next + 1 := by
  intro a ha
  rcases S.mem_ids_iff.mp ha with rfl | ⟨ha, _⟩
  · omega
  · have hlt := S.lt a ha
    omega

/-! ## The round trips that are left -/

theorem Setup.inst?_result (ha : a ∉ T.erased) (hnext : a ≠ next) :
    (T.result F next).inst? a = (F.inst? a).map (·.map (T.edits next T.erased).subst) := by
  cases hfind : F.inst? a with
  | some i =>
    obtain ⟨hi, rfl⟩ := inst?_some hfind
    refine S.ssaForm.inst?_eq (i := i.map (T.edits next T.erased).subst) ((mem_instrs_edit rfl).mpr ?_)
    exact ⟨i, hi, i, by simp [edits, ha], rfl⟩
  | none =>
    refine List.find?_eq_none.mpr fun j hj hid => ?_
    obtain ⟨i, hi, x, hx, rfl⟩ := (mem_instrs_edit rfl).mp hj
    have hid' : x.id = a := of_decide_eq_true hid
    rcases mem_edits_new hx with ⟨rfl, _⟩ | ⟨rfl, _⟩
    · exact hnext hid'.symm
    · exact absurd (List.find?_eq_none.mp hfind x hi) (by simp [hid'])

theorem Setup.ptrToInt?_result (hv : T.Stays next v) :
    (T.result F next).ptrToInt? ((T.edits next T.erased).subst v) =
      (F.ptrToInt? v).map (·.map (T.edits next T.erased).subst) := by
  have hf := S.found
  show (T.result F next).ptrToInt? (Val.subst T.intToPtr.id (.inst next) v) = _
  by_cases hitp : v = .inst T.intToPtr.id
  · -- neither the `inttoptr` nor the `gep` is a `ptrtoint`
    have hgep : (T.result F next).inst? next =
        some ((T.gep next).map (T.edits next T.erased).subst) := by
      refine S.ssaForm.inst?_eq (i := (T.gep next).map (T.edits next T.erased).subst)
        ((mem_instrs_edit rfl).mpr ?_)
      exact ⟨T.intToPtr, hf.intToPtr_mem, T.gep next, by simp [edits], rfl⟩
    rw [hitp, Val.subst_self, Fn.ptrToInt?, Fn.ptrToInt?, hgep, S.ssa.inst?_eq hf.intToPtr_mem,
      Option.filter_some, Option.filter_some, hf.intToPtr_op]
    rfl
  · rw [Val.subst_ne hitp]
    cases v with
    | inst a =>
      have ha : a ∉ T.erased := by
        simp only [erased, List.mem_cons, List.not_mem_nil, or_false, not_or]
        exact ⟨fun h => hitp (h ▸ rfl), fun h => hv.1 (h ▸ rfl), fun h => hv.2.1 (h ▸ rfl)⟩
      rw [Fn.ptrToInt?, Fn.ptrToInt?, S.inst?_result ha fun h => hv.2.2 (h ▸ rfl)]
      cases F.inst? a with
      | none => rfl
      | some i =>
        rw [Option.map_some, Option.filter_some, Option.filter_some, Instr.map_op]
        split <;> rfl
    | _ => rfl

theorem Setup.perm : ∃ rest, F.instrs.Perm (T.intToPtr :: T.op_inst :: T.ptrToInt :: rest) ∧
    ∀ i ∈ rest, i.id ∉ T.erased := by
  have hf := S.found
  obtain ⟨h₁, h₂, h₃⟩ := hf.instr_ne
  have hnodup : [T.intToPtr, T.op_inst, T.ptrToInt].Nodup := by
    simp [h₁.symm, h₂.symm, h₃.symm]
  have hsub : [T.intToPtr, T.op_inst, T.ptrToInt] ⊆ F.instrs := by
    simp [hf.intToPtr_mem, hf.op_inst_mem, hf.ptrToInt_mem]
  obtain ⟨l, hl, hsublist⟩ := List.subperm_of_subset hnodup hsub
  obtain ⟨rest, hrest⟩ := hsublist.exists_perm_append
  have hperm := hrest.trans (hl.append_right rest)
  refine ⟨rest, hperm, fun i hi hgone => ?_⟩
  -- ids are distinct
  have hids := (hperm.map (·.id)).nodup_iff.mp S.ssa.nodup_instrs
  rw [List.map_append] at hids
  exact (List.nodup_append.mp hids).2.2 i.id hgone i.id (List.mem_map_of_mem hi) rfl

/-- No use of another value is lost: the `gep` uses what the two integers have used. -/
theorem Setup.users_le (ha : a ∉ T.erased) :
    (F.users (.inst a)).length ≤ ((T.result F next).users (.inst a)).length := by
  have hf := S.found
  obtain ⟨hadd, hptr, hptr'⟩ := S.ids_ne
  have hne : a ≠ T.intToPtr.id ∧ a ≠ T.op_inst.id ∧ a ≠ T.ptrToInt.id := by simpa [erased] using ha
  refine users_edit_le rfl (Val.subst_ne fun heq => hne.1 (Val.inst.inj heq)) ?_
  obtain ⟨rest, hperm, hrest⟩ := S.perm
  rw [(hperm.map _).sum_nat, (hperm.map _).sum_nat]
  have hsame : (rest.map fun i => (((T.edits next T.erased).new i).map fun x => x.ops.count (.inst a)).sum) =
      rest.map fun i => i.ops.count (.inst a) := by
    refine List.map_congr_left fun i hi => ?_
    have hgone := hrest i hi
    have hid : i.id ≠ T.intToPtr.id := fun h => hgone (by simp [erased, h])
    simp [edits, hgone, hid]
  have hitp : T.intToPtr.ops.count (.inst a) = 0 := by
    rw [hf.intToPtr_ops]
    simp [hne.2.1.symm]
  have hint : T.op_inst.ops.count (.inst a) = [T.int].count (.inst a) := by
    rw [hf.op_inst_ops]
    split <;> simp [List.count_cons, hne.2.2.symm]
  have hptr : T.ptrToInt.ops.count (.inst a) = [T.ptr].count (.inst a) := by rw [hf.ptrToInt_ops]
  have hgep : (T.gep next).ops.count (.inst a) = [T.ptr].count (.inst a) + [T.int].count (.inst a) := by
    rw [← List.count_append]
    rfl
  have hnew : (((T.edits next T.erased).new T.intToPtr).map fun x => x.ops.count (.inst a)).sum =
      (T.gep next).ops.count (.inst a) := by
    simp [edits, erased]
  simp only [List.map_cons, List.sum_cons, hsame, hnew, hgep, hitp, hint, hptr]
  omega

theorem Setup.ptrOperand?_result {l r : Val} (hl : T.Stays next l) (hr : T.Stays next r) :
    (T.result F next).ptrOperand? ((T.edits next T.erased).subst l) ((T.edits next T.erased).subst r) =
      (F.ptrOperand? l r).map fun x => (x.1, x.2.map (T.edits next T.erased).subst) := by
  unfold Fn.ptrOperand?
  rw [S.ptrToInt?_result hl, S.ptrToInt?_result hr]
  cases F.ptrToInt? l with
  | some i => rfl
  | none =>
    cases F.ptrToInt? r with
    | some i => rfl
    | none => rfl

omit S in
theorem result_instr (hj : j ∈ (T.result F next).instrs) (hop : j.op ≠ (T.gep next).op) :
    ∃ i ∈ F.instrs, j = i.map (T.edits next T.erased).subst ∧ i.id ∉ T.erased := by
  obtain ⟨i, hi, x, hx, rfl⟩ := (mem_instrs_edit rfl).mp hj
  rcases mem_edits_new hx with ⟨rfl, _⟩ | ⟨rfl, hgone⟩
  · exact absurd rfl hop
  · exact ⟨x, hi, rfl, hgone⟩

/-- A round trip of the new function has been one before. -/
theorem Setup.roundTrip?_result {id : Nat} {T' : RoundTrip}
    (h : (T.result F next).roundTrip? id = some T') :
    ∃ T₀, F.roundTrip? id = some T₀ ∧ T₀.intToPtr.ty = T'.intToPtr.ty ∧ T₀.op_inst.ty = T'.op_inst.ty ∧
      T₀.ptrToInt.ty = T'.ptrToInt.ty := by
  obtain ⟨hitp, hop, a, hops, hadd, haddop, hadduse, l', r', haddops, hptr, huse, hpops, _⟩ :=
    roundTrip?_iff.mp h
  obtain ⟨hmem, rfl⟩ := inst?_some hitp
  obtain ⟨haddmem, rfl⟩ := inst?_some hadd
  obtain ⟨hpmem, hpop, _⟩ := ptrOperand?_some hptr
  obtain ⟨i₁, hi₁, h₁, _⟩ := result_instr hmem (by rw [hop]; nofun)
  obtain ⟨i₂, hi₂, h₂, hgone₂⟩ := result_instr haddmem (by rw [haddop]; nofun)
  obtain ⟨_, _, h₃, hgone₃⟩ := result_instr hpmem (by rw [hpop]; nofun)
  rw [h₁, Instr.map_ops, List.map_eq_singleton_iff] at hops
  obtain ⟨v, hv, hsubst⟩ := hops
  rw [h₁, Instr.map_op] at hop
  rw [h₂, Instr.map_op] at haddop
  rw [h₂, Instr.map_id] at hsubst hadduse
  obtain ⟨rfl, _⟩ := subst_inst hsubst (S.ne_next (mem_ids hi₂))
  rw [h₂, Instr.map_ops] at haddops
  obtain ⟨l, ls, hl, rfl, hls⟩ := List.map_eq_cons_iff.mp haddops
  obtain ⟨r, rfl, rfl⟩ := List.map_eq_singleton_iff.mp hls
  have hstays : ∀ v ∈ i₂.ops, T.Stays next v := fun v hv =>
    S.stays (.instr hi₂ hv) (fun heq => hgone₂ (by simp [erased, User.instr.inj heq]))
      fun heq => hgone₂ (by simp [erased, User.instr.inj heq])
  rw [S.ptrOperand?_result (hstays l (by simp [hl])) (hstays r (by simp [hl])),
    Option.map_eq_some_iff] at hptr
  obtain ⟨⟨left, j⟩, hj, heq⟩ := hptr
  obtain ⟨rfl, hjT⟩ : left = T'.ptrOnLeft ∧ j.map (T.edits next T.erased).subst = T'.ptrToInt := Prod.mk.inj heq
  rw [← hjT, Instr.map_ops, List.map_eq_singleton_iff] at hpops
  obtain ⟨p, hp, _⟩ := hpops
  have hid : j.id = T'.ptrToInt.id := by rw [← hjT, Instr.map_id]
  have hgone : j.id ∉ T.erased := by
    rw [hid, h₃]
    exact hgone₃
  refine ⟨⟨i₁, i₂, j, T'.ptrOnLeft, p, if T'.ptrOnLeft then r else l⟩, roundTrip?_iff.mpr
    ⟨?_, hop, i₂.id, hv, S.ssa.inst?_eq hi₂, haddop, (S.users_le hgone₂).trans hadduse, l, r, hl, hj,
      (S.users_le hgone).trans (hid ▸ huse), hp, rfl⟩, ?_, ?_, ?_⟩
  · rw [h₁]
    exact S.ssa.inst?_eq hi₁
  · rw [h₁]
    rfl
  · rw [h₂]
    rfl
  · rw [← hjT]
    rfl

end setup

end RoundTrip

end BpfTv.Ssa
