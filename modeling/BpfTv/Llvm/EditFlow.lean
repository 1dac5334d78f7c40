import BpfTv.Llvm.Edit
import BpfTv.Llvm.Exec

/-!
# The flow graph of an edited function

Each node of an edited function stands in the place of a node of the function at the start, and its edges
go along these places. So what dominates a place dominates it still (`dom_edit`), and an instruction
dominates what an edit has put behind it in the same place (`dom_edit_behind`).
-/

namespace BpfTv.Ssa

open Control

variable {F : Fn} {E : Edits} {i x : Instr} {b b' : Block} {k : Nat} {m n o o' : Node}

/-- The nodes that have taken the place of one. -/
def Edits.nodes (E : Edits) (F : Fn) : Node → List Node
  | .phis k => .phis k :: if k = 0 then E.entry.map fun a => .body a.id else []
  | .body id => ((F.inst? id).map fun i => (E.new i).map fun x => .body x.id).getD []
  | .term k => [.term k]

theorem nodes_body (hF : F.ids.Nodup) (hi : i ∈ F.instrs) :
    E.nodes F (.body i.id) = (E.new i).map fun x => .body x.id := by
  rw [Edits.nodes, Fn.inst?_eq hF hi]
  rfl

theorem nodes_edit (hF : F.ids.Nodup) (hb : F.blocks[k]? = some b) :
    ({ b.edit E with body := (if k = 0 then E.entry else []) ++ (b.edit E).body } : Block).nodes k =
      (b.nodes k).flatMap (E.nodes F) := by
  have hbody : (b.edit E).body.map (fun x => Node.body x.id) =
      (b.body.map fun i => Node.body i.id).flatMap (E.nodes F) := by
    rw [Block.edit, List.map_flatMap, List.flatMap_map]
    refine List.flatMap_congr fun i hi => ?_
    rw [nodes_body hF (Fn.mem_instrs.mpr ⟨b, List.mem_of_getElem? hb, hi⟩), List.map_map]
    rfl
  have hentry : (if k = 0 then E.entry else []).map (fun a => Node.body a.id) =
      if k = 0 then E.entry.map fun a => Node.body a.id else [] := by
    split <;> rfl
  rw [Block.nodes, List.map_append, hbody, hentry, Block.nodes, List.flatMap_append, List.flatMap_cons,
    List.flatMap_singleton, Edits.nodes, Edits.nodes]
  simp only [List.cons_append, List.append_assoc]

/-- An edge goes along the places of an edge or a way. -/
theorem edge_edit (hF : F.ids.Nodup) (h : (F.edit E).Edge m n) : Expands F.Edge (E.nodes F) m n := by
  cases h with
  | @next k b' xs ys _ _ hb hnodes =>
    rw [getElem?_edit, Option.map_eq_some_iff] at hb
    obtain ⟨b, hb, rfl⟩ := hb
    rw [nodes_edit hF hb] at hnodes
    rcases flatMap_neighbours hnodes with ⟨o, _, p, q, hin⟩ | ⟨as, o, mid, o', bs, p, q, hway, hm, hn, hmid⟩
    · exact .inside hin
    · refine .across hm hn fun x hx hne => walk hb mid as o hway fun z hz => ?_
      rintro rfl
      rcases List.mem_cons.mp hz with rfl | hz
      · exact hx rfl
      · exact hne (hmid z hz)
  | @jump k s b' hb hs =>
    rw [getElem?_edit, Option.map_eq_some_iff] at hb
    obtain ⟨b, hb, rfl⟩ := hb
    have hm : E.nodes F (.term k) = [] ++ [.term k] := rfl
    have hn : E.nodes F (.phis s) = .phis s :: _ := rfl
    exact .across hm hn fun x hx _ => .single ⟨.jump hb hs, Ne.symm hx⟩

/-! ## Places -/

theorem instrs_edit_ids (hne : F.blocks ≠ []) : (F.edit E).instrs.map (·.id) =
    E.entry.map (·.id) ++ F.instrs.flatMap fun i => (E.new i).map (·.id) := by
  obtain ⟨b, bs, hb⟩ := List.exists_cons_of_ne_nil hne
  simp only [Fn.edit, Fn.instrs, hb, List.map_cons, List.modifyHead_cons, List.flatMap_cons, List.flatMap_map,
    Block.edit, List.map_append, List.map_flatMap, List.flatMap_append, List.append_assoc, List.map_map,
    List.flatMap_assoc]
  rfl

theorem mem_nodes (h : n ∈ E.nodes F o) : (n = o ∧ ∀ id, n ≠ .body id) ∨
    (o = .phis 0 ∧ ∃ a ∈ E.entry, n = .body a.id) ∨
      ∃ i ∈ F.instrs, o = .body i.id ∧ ∃ x ∈ E.new i, n = .body x.id := by
  cases o with
  | phis k =>
    rcases List.mem_cons.mp h with rfl | h
    · exact Or.inl ⟨rfl, fun _ => Node.noConfusion⟩
    · split at h
      · rename_i hk
        obtain ⟨a, ha, rfl⟩ := List.mem_map.mp h
        exact Or.inr (Or.inl ⟨congrArg Node.phis hk, a, ha, rfl⟩)
      · cases h
  | body id =>
    rw [Edits.nodes] at h
    cases hid : F.inst? id with
    | none =>
      rw [hid] at h
      cases h
    | some i =>
      rw [hid] at h
      obtain ⟨x, hx, rfl⟩ := List.mem_map.mp h
      have hi : i.id = id := by simpa using List.find?_some hid
      exact Or.inr (Or.inr ⟨i, List.mem_of_find?_eq_some hid, congrArg Node.body hi.symm, x, hx, rfl⟩)
  | term k => exact Or.inl ⟨List.mem_singleton.mp h, fun _ heq => by rw [List.mem_singleton.mp h] at heq; cases heq⟩

section

variable (hne : F.blocks ≠ []) (hE : (F.edit E).ids.Nodup)
include hne hE

theorem edit_ids_nodup : (E.entry.map (·.id) ++ F.instrs.flatMap fun i => (E.new i).map (·.id)).Nodup :=
  instrs_edit_ids hne ▸ Fn.nodup_instrs hE

theorem body_place {j y : Instr} (hi : i ∈ F.instrs) (hj : j ∈ F.instrs) (hx : x ∈ E.new i) (hy : y ∈ E.new j)
    (hid : x.id = y.id) : i = j := by
  have hpairs := (List.nodup_flatMap.mp (List.nodup_append.mp (edit_ids_nodup hne hE)).2.1).2
  have : Std.Symm (Function.onFun List.Disjoint fun i => (E.new i).map (·.id)) := 
    ⟨fun _ _ h _ hx hy => h hy hx⟩
  by_contra hij
  exact hpairs.forall hi hj hij (List.mem_map_of_mem hx) (hid ▸ List.mem_map_of_mem hy)

theorem entry_place {a : Instr} (ha : a ∈ E.entry) (hi : i ∈ F.instrs) (hx : x ∈ E.new i) : a.id ≠ x.id :=
  (List.nodup_append.mp (edit_ids_nodup hne hE)).2.2 _ (List.mem_map_of_mem ha) _
    (List.mem_flatMap.mpr ⟨i, hi, List.mem_map_of_mem hx⟩)

theorem place_unique (h : n ∈ E.nodes F o) (h' : n ∈ E.nodes F o') : o = o' := by
  rcases mem_nodes h with ⟨rfl, hn⟩ | ⟨rfl, a, ha, rfl⟩ | ⟨i, hi, rfl, x, hx, rfl⟩
  · rcases mem_nodes h' with ⟨heq, _⟩ | ⟨_, _, _, rfl⟩ | ⟨_, _, _, _, _, rfl⟩
    · exact heq
    · exact absurd rfl (hn _)
    · exact absurd rfl (hn _)
  · rcases mem_nodes h' with ⟨_, hn⟩ | ⟨heq, _⟩ | ⟨i, hi, _, x, hx, hid⟩
    · exact absurd rfl (hn _)
    · exact heq.symm
    · exact absurd (Node.body.inj hid) (entry_place hne hE ha hi hx)
  · rcases mem_nodes h' with ⟨_, hn⟩ | ⟨_, a, ha, hid⟩ | ⟨j, hj, rfl, y, hy, hid⟩
    · exact absurd rfl (hn _)
    · exact absurd (Node.body.inj hid).symm (entry_place hne hE ha hi hx)
    · rw [body_place hne hE hi hj hx hy (Node.body.inj hid)]

theorem nodes_nodup (o : Node) : (E.nodes F o).Nodup := by
  have hmap : ∀ xs : List Instr, (xs.map (·.id)).Nodup → (xs.map fun x => Node.body x.id).Nodup := by
    intro xs h
    have hbody := h.map (f := Node.body) fun _ _ heq => Node.body.inj heq
    rwa [List.map_map] at hbody
  obtain ⟨hentry, hbodies, _⟩ := List.nodup_append.mp (edit_ids_nodup hne hE)
  cases o with
  | phis k =>
    refine List.nodup_cons.mpr ⟨fun h => ?_, ?_⟩
    · split at h
      · simp at h
      · cases h
    · split
      · exact hmap _ hentry
      · exact List.nodup_nil
  | body id =>
    rw [Edits.nodes]
    cases hid : F.inst? id with
    | none => exact List.nodup_nil
    | some i => exact hmap _ ((List.nodup_flatMap.mp hbodies).1 i (List.mem_of_find?_eq_some hid))
  | term k => exact List.nodup_singleton _

/-! ## Dominance -/

theorem dom_expanded (hF : F.ids.Nodup) {p q : List Node} (hm : E.nodes F o = p ++ m :: q)
    (h : n ∈ q ∨ ∃ o', n ∈ E.nodes F o' ∧ Dom F.Edge (.phis 0) o o') : Dom (F.edit E).Edge (.phis 0) m n :=
  Dom.of_expands (fun _ _ hmn => edge_edit hF hmn) (fun _ _ _ => place_unique hne hE) (nodes_nodup hne hE o)
    (show E.nodes F (.phis 0) = .phis 0 :: _ from rfl) hm h

/-- What stands in the place of a node dominates what stands in the places that the node dominates. -/
theorem dom_edit (hF : F.ids.Nodup) (hm : m ∈ E.nodes F o) (hn : n ∈ E.nodes F o')
    (h : Dom F.Edge (.phis 0) o o') : Dom (F.edit E).Edge (.phis 0) m n := by
  obtain ⟨p, q, heq⟩ := List.append_of_mem hm
  exact dom_expanded hne hE hF heq (Or.inr ⟨o', hn, h⟩)

/-- An instruction dominates what stands behind it in the place of another one. -/
theorem dom_edit_behind {p q : List Instr} {y : Instr} (hF : F.ids.Nodup) (hi : i ∈ F.instrs)
    (hnew : E.new i = p ++ x :: q) (hy : y ∈ q) : Dom (F.edit E).Edge (.phis 0) (.body x.id) (.body y.id) := by
  have hnodes := nodes_body (E := E) hF hi
  rw [hnew, List.map_append, List.map_cons] at hnodes
  exact dom_expanded hne hE hF hnodes (Or.inl (List.mem_map_of_mem hy))

end

theorem defines_edit {a : Nat} (hne : F.blocks ≠ []) (h : (F.edit E).Defines a n) :
    (∃ k, n = .phis k ∧ F.Defines a (.phis k)) ∨
      n = .body a ∧ ((∃ x ∈ E.entry, x.id = a) ∨ ∃ i ∈ F.instrs, ∃ x ∈ E.new i, x.id = a) := by
  cases n with
  | body id =>
    obtain ⟨rfl, j, hj, rfl⟩ := h
    refine Or.inr ⟨rfl, ?_⟩
    rcases (mem_edit_instrs hne).mp hj with hentry | ⟨i, hi, x, hx, rfl⟩
    · exact Or.inl ⟨j, hentry, rfl⟩
    · exact Or.inr ⟨i, hi, x, hx, rfl⟩
  | term k => exact h.elim
  | phis k =>
    obtain ⟨b', hb, hphi⟩ := h
    rw [getElem?_edit, Option.map_eq_some_iff] at hb
    obtain ⟨b, hb, rfl⟩ := hb
    refine Or.inl ⟨k, rfl, b, hb, ?_⟩
    simpa [Block.edit, Function.comp_def, Phi.map] using hphi

end BpfTv.Ssa
