import BpfTv.Driver.Attribution
import BpfTv.Llvm.EditFlow

/-!
# The split function in SSA form

A function in SSA form is in SSA form again when the slots have been taken out of its block
(`Applied.ssaForm`): an object is allocated at the head of the entry block, what a plan puts in the place
of an instruction comes in the order of its uses, and a new value is defined where the old one was, or
where the operand of the old one was.
-/

namespace BpfTv.Ssa

open Control

variable {F : Fn} {slots : List StackSlot} {stack i x : Instr} {Q : Plans} {R : Rewrite} {E : Edits} {v : Val}
  {s : StackSlot} {a d obj : Nat} {m n o o' : Node}

/-- The operand of `x` is new, and there before `x`. -/
def NewOperand (F : Fn) (R : Rewrite) (v : Val) (x : Instr) : Prop :=
  ∃ a ∈ R.F.ids, v = .inst a ∧ F.fresh ≤ a ∧ R.F.Available v (.body x.id)

/-- The value that is used in the place of `d` is defined in the place of `d`, or of what dominates `d`. -/
def HasPlace (F : Fn) (E : Edits) (R : Rewrite) (d : Nat) : Prop :=
  ∃ a ∈ R.F.ids, E.subst (.inst d) = .inst a ∧ ∀ n, R.F.Defines a n →
    ∃ o d', n ∈ E.nodes F o ∧ F.Defines d d' ∧ (o = d' ∨ Dom F.Edge (.phis 0) o d')

namespace Applied

/-! ## Places -/

section places

variable (h : Applied F slots stack Q R E)
include h

theorem blocks_ne : F.blocks ≠ [] := by
  obtain ⟨b, hb, _⟩ := Fn.mem_instrs.mp (stackMem_spec h.typed h.block).1
  exact List.ne_nil_of_mem hb

theorem at_place (hi : i ∈ F.instrs) (hx : x ∈ E.new i) : Node.body x.id ∈ E.nodes F (.body i.id) := by
  rw [nodes_body h.typed.nodup hi]
  exact List.mem_map_of_mem hx

theorem id_mem (hi : i ∈ F.instrs) (hx : x ∈ E.new i) : x.id ∈ R.F.ids := mem_ids (i := x.map E.subst) (h.new hi hx)

theorem subst_inst (hv : E.subst v = .inst a) : ∃ d, v = .inst d := by
  by_cases hT : ∃ d, Q.Touches F d ∧ v = .inst d
  · exact hT.imp fun _ hd => hd.2
  · rw [h.frame.subst v fun d hd heq => hT ⟨d, hd, heq⟩] at hv
    exact ⟨a, hv⟩

theorem defines_old (hd : R.F.Defines a n) (ha : a < F.fresh) : n ∈ E.nodes F n ∧ F.Defines a n := by
  rw [h.frame.eq] at hd
  rcases defines_edit h.blocks_ne hd with ⟨k, rfl, hk⟩ | ⟨rfl, ⟨x, hx, rfl⟩ | ⟨i, hi, x, hx, rfl⟩⟩
  · exact ⟨List.mem_cons_self .., hk⟩
  · exact absurd ha (Nat.not_lt.mpr (h.frame.entry x hx).2)
  · rcases h.frame.new i hi x hx with rfl | ⟨hfresh, _⟩
    · exact ⟨h.at_place hi hx, Fn.defines_body hi⟩
    · exact absurd ha (Nat.not_lt.mpr hfresh)

variable (hR : R.F.ids.Nodup)
include hR

theorem dom_place (hm : m ∈ E.nodes F o) (hn : n ∈ E.nodes F o') (hdom : Dom F.Edge (.phis 0) o o') :
    Dom R.F.Edge (.phis 0) m n := by
  rw [h.frame.eq] at hR ⊢
  exact dom_edit h.blocks_ne hR h.typed.nodup hm hn hdom

theorem dom_behind {p q : List Instr} {y : Instr} (hi : i ∈ F.instrs) (hnew : E.new i = p ++ x :: q) (hy : y ∈ q) :
    Dom R.F.Edge (.phis 0) (.body x.id) (.body y.id) := by
  rw [h.frame.eq] at hR ⊢
  exact dom_edit_behind h.blocks_ne hR h.typed.nodup hi hnew hy

theorem defines_new (hi : i ∈ F.instrs) (hx : x ∈ E.new i) (hd : R.F.Defines x.id n) : n = .body x.id :=
  Fn.defines_eq (i := x.map E.subst) hR (h.new hi hx) hd

theorem dom_obj (hs : R.objs.lookup s = some obj) (hi : i ∈ F.instrs) (hx : x ∈ E.new i) :
    Dom R.F.Edge (.phis 0) (.body obj) (.body x.id) := by
  refine h.dom_place hR (o := .phis 0) ?_ (h.at_place hi hx) (dom_entry Node.noConfusion)
  exact List.mem_cons_of_mem _ (List.mem_map_of_mem (h.frame.objs s obj hs))

end places

/-! ## Values -/

section values

variable (h : Applied F slots stack Q R E) (hssa : F.SsaForm) (hR : R.F.ids.Nodup)
include h hR

theorem obj_operand (hs : R.objs.lookup s = some obj) (hi : i ∈ F.instrs) (hx : x ∈ E.new i) :
    NewOperand F R (.inst obj) x := by
  obtain ⟨hmem, hfresh⟩ := h.obj_mem hi hs
  refine ⟨obj, mem_ids hmem, rfl, hfresh, fun a ha d hd => ?_⟩
  obtain rfl := Val.inst.inj ha
  rw [Fn.defines_eq hR hmem hd]
  exact h.dom_obj hR hs hi hx

theorem behind_operand {p q : List Instr} {y : Instr} (hi : i ∈ F.instrs) (hnew : E.new i = p ++ y :: q) (hx : x ∈ q)
    (hfresh : F.fresh ≤ y.id) : NewOperand F R (.inst y.id) x := by
  have hy : y ∈ E.new i := hnew ▸ List.mem_append_right _ (List.mem_cons_self ..)
  refine ⟨y.id, h.id_mem hi hy, rfl, hfresh, fun a ha d hd => ?_⟩
  obtain rfl := Val.inst.inj ha
  rw [h.defines_new hR hi hy hd]
  exact h.dom_behind hR hi hnew hx

theorem new_place (hi : i ∈ F.instrs) (hx : x ∈ E.new i) (hd : F.Defines d o)
    (hdom : .body i.id = o ∨ Dom F.Edge (.phis 0) (.body i.id) o) (hsubst : E.subst (.inst d) = .inst x.id) :
    HasPlace F E R d := by
  refine ⟨x.id, h.id_mem hi hx, hsubst, fun n hn => ⟨.body i.id, o, ?_, hd, hdom⟩⟩
  rw [h.defines_new hR hi hx hn]
  exact h.at_place hi hx

include hssa

theorem value_place (hd : d ∈ F.ids) : HasPlace F E R d := by
  by_cases hT : Q.Touches F d
  · rcases hT with hgep | ⟨p, hp, rfl | ⟨j, hj, rfl⟩⟩
    · obtain ⟨p, hp, rfl⟩ := List.mem_map.mp hgep
      have hi := (h.valid.gep p hp).mem.1
      obtain ⟨np, obj, _, _, hgroup, hsubst⟩ := h.geps p hp
      have hlast : ∃ v, gepI8 np obj v ∈ E.new p.gep := by
        rw [hgroup]
        cases p.varIdx with
        | none => exact ⟨_, List.mem_singleton_self _⟩
        | some var => exact ⟨_, List.mem_cons_of_mem _ (List.mem_singleton_self _)⟩
      obtain ⟨v, hx⟩ := hlast
      exact h.new_place hR hi hx (Fn.defines_body hi) (Or.inl rfl) hsubst
    · have hi := (h.valid.int p hp).mem
      obtain ⟨np, obj, hdone⟩ := h.ints p hp
      by_cases hop : p.inst.op = .inttoptr
      · obtain ⟨hgroup, hsubst⟩ := hdone.cast hop
        exact h.new_place hR (x := gepI8 np obj (.int 64 p.rel)) hi (hgroup ▸ List.mem_singleton_self _)
          (Fn.defines_body hi) (Or.inl rfl) hsubst
      · obtain ⟨hgroup, hsubst⟩ := hdone.sum hop
        exact h.new_place hR (x := ptrToInt np) hi (hgroup ▸ List.mem_cons_of_mem _ (List.mem_singleton_self _))
          (Fn.defines_body hi) (Or.inl rfl) hsubst
    · -- a cast of a planned sum is defined behind the sum
      have hi := (h.valid.int p hp).mem
      obtain ⟨np, obj, hdone⟩ := h.ints p hp
      have hdom := hssa.dom_operand hj.2.1 hi (hj.2.2.2 ▸ List.mem_singleton_self _)
      exact h.new_place hR (x := gepI8 np obj (.int 64 p.rel)) hi ((hdone.sum hj.1).1 ▸ List.mem_cons_self ..)
        (Fn.defines_body hj.2.1) (Or.inr hdom) (hdone.casts j hj).subst
  · refine ⟨d, ?_, h.subst_untouched hT, fun n hn => ?_⟩
    · obtain ⟨b, hb, hmem⟩ := List.mem_flatMap.mp hd
      rcases List.mem_append.mp hmem with hphi | hbody
      · rw [h.frame.eq]
        exact phi_mem_edit hb hphi
      · obtain ⟨i, hi, rfl⟩ := List.mem_map.mp hbody
        have hmem := Fn.mem_instrs.mpr ⟨b, hb, hi⟩
        exact h.id_mem hmem (h.frame.keep i hmem hT ▸ List.mem_singleton_self _)
    · obtain ⟨hplace, hdef⟩ := h.defines_old hn (lt_fresh hd)
      exact ⟨n, n, hplace, hdef, Or.inl rfl⟩

theorem available (hv : ∀ d, v = .inst d → d ∈ F.ids) (hav : F.Available v o) (hn : n ∈ E.nodes F o) :
    R.F.Available (E.subst v) n := by
  intro a ha m hm
  obtain ⟨d, rfl⟩ := h.subst_inst ha
  obtain ⟨a', _, hsubst, hplace⟩ := h.value_place hssa hR (hv d rfl)
  obtain rfl : a = a' := Val.inst.inj (ha.symm.trans hsubst)
  obtain ⟨o', d', ho', hd', rfl | hdom⟩ := hplace m hm
  · exact h.dom_place hR ho' hn (hav d rfl _ hd')
  · exact h.dom_place hR ho' hn (hdom.trans (hav d rfl _ hd'))

/-- An operand of what stands in the place of `i` was available at `i`, or is new. -/
theorem operand (hi : i ∈ F.instrs) (hx : x ∈ E.new i) (hv : v ∈ x.ops) :
    ((∀ d, v = .inst d → d ∈ F.ids) ∧ F.Available v (.body i.id)) ∨ NewOperand F R v x := by
  have hint : ∀ {w} {c : BitVec w}, (∀ d, (.int w c : Val) = .inst d → d ∈ F.ids) ∧
      F.Available (.int w c) (.body i.id) := ⟨fun _ => Val.noConfusion, fun _ => Val.noConfusion⟩
  have hold : ∀ {j}, j ∈ F.instrs → v ∈ j.ops → ∀ d, v = .inst d → d ∈ F.ids := fun hj hv d hd =>
    hssa.closed d _ (.instr hj (hd ▸ hv))
  cases h.replaced hi with
  | kept new =>
    rw [new] at hx
    obtain rfl := List.mem_singleton.mp hx
    exact Or.inl ⟨hold hi hv, fun a ha d hd => hssa.dom _ hi a (ha ▸ hv) d hd⟩
  | gone new =>
    rw [new] at hx
    cases hx
  | gep _ hs new =>
    have hx' := hx
    rw [new] at hx'
    obtain rfl := List.mem_singleton.mp hx'
    rcases List.mem_pair.mp hv with rfl | rfl
    · exact Or.inr (h.obj_operand hR hs hi hx)
    · exact Or.inl hint
  | varGep hfresh hs new ha idx var =>
    have hx' := hx
    rw [new] at hx'
    rcases List.mem_pair.mp hx' with rfl | rfl
    · rcases List.mem_pair.mp hv with rfl | rfl
      · -- the variable part comes before the index
        exact Or.inl ⟨hold ha var, fun b hb d hd =>
          (hssa.dom _ ha b (hb ▸ var) d hd).trans (hssa.dom_operand hi ha idx)⟩
      · exact Or.inl hint
    · rcases List.mem_pair.mp hv with rfl | rfl
      · exact Or.inr (h.obj_operand hR hs hi hx)
      · exact Or.inr (h.behind_operand hR (p := []) hi new (List.mem_singleton_self _) (Nat.le_succ_of_le hfresh))
  | sum hfresh hs new =>
    have hx' := hx
    rw [new] at hx'
    rcases List.mem_pair.mp hx' with rfl | rfl
    · rcases List.mem_pair.mp hv with rfl | rfl
      · exact Or.inr (h.obj_operand hR hs hi hx)
      · exact Or.inl hint
    · obtain rfl := List.mem_singleton.mp hv
      exact Or.inr (h.behind_operand hR (p := []) hi new (List.mem_singleton_self _) hfresh)

theorem ssaForm : R.F.SsaForm where
  nodup := hR
  closed := by
    intro a u hu
    have hvalue : ∀ {v}, (∀ d, v = .inst d → d ∈ F.ids) → E.subst v = .inst a → a ∈ R.F.ids := by
      intro v hv hsubst
      obtain ⟨d, rfl⟩ := h.subst_inst hsubst
      obtain ⟨a', ha', hsubst', _⟩ := h.value_place hssa hR (hv d rfl)
      rwa [Val.inst.inj (hsubst.symm.trans hsubst')]
    rw [h.frame.eq] at hu
    obtain ⟨v, hsubst, ⟨i, hi, x, hx, hv⟩ | ⟨u, hu, _⟩⟩ := usedBy_edit (fun a ha => (h.frame.entry a ha).1) hu
    · rcases h.operand hssa hR hi hx hv with ⟨hold, _⟩ | ⟨a', ha', rfl, hfresh, _⟩
      · exact hvalue hold hsubst
      · rw [h.frame.subst_fresh hfresh] at hsubst
        exact Val.inst.inj hsubst ▸ ha'
    · exact hvalue (fun d hd => hssa.closed d u (hd ▸ hu)) hsubst
  dom := by
    intro j hj a ha d hd
    have hj' := hj
    rw [h.frame.eq] at hj'
    rcases (mem_edit_instrs h.blocks_ne).mp hj' with hentry | ⟨i, hi, x, hx, rfl⟩
    · rw [(h.frame.entry j hentry).1] at ha
      cases ha
    · obtain ⟨v, hv, hsubst⟩ := List.mem_map.mp ha
      rcases h.operand hssa hR hi hx hv with ⟨hold, hav⟩ | ⟨a', _, rfl, hfresh, hav⟩
      · exact h.available hssa hR hold hav (h.at_place hi hx) a hsubst d hd
      · rw [h.frame.subst_fresh hfresh] at hsubst
        exact hav a hsubst d hd

end values

end Applied

end BpfTv.Ssa
