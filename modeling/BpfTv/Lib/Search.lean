import BpfTv.Lib.Worklist
import Mathlib.Algebra.BigOperators.Group.Finset.Basic
import Mathlib.Algebra.Order.BigOperators.Group.Finset

/-!
# Depth-first search

A search for a goal from the nodes on a stack. A node that has been seen is dropped when it comes off
the stack, so that it may have been pushed several times. The search ends (`search_isSome`), and it
finds a goal exactly when one is reachable (`search_iff`).

Parameter: what a visit of a node comes to, which is either the nodes that it pushes or nothing, at a
goal.
-/

namespace Search

variable {α : Type} [DecidableEq α]

/-- Visit the nodes of the stack `flow`; without fuel there is no result. -/
def search (visit : α → Option (List α)) : Nat → List α → List α → Option Bool
  | 0, _, _ => none
  | _ + 1, [], _ => some false
  | fuel + 1, v :: flow, seen =>
    if v ∈ seen then search visit fuel flow seen
    else
      match visit v with
      | none => some true
      | some next => search visit fuel (next ++ flow) (v :: seen)

def Next (visit : α → Option (List α)) (a b : α) : Prop := ∃ next, visit a = some next ∧ b ∈ next

/-- A goal is reachable. -/
def Finds (visit : α → Option (List α)) (a : α) : Prop :=
  ∃ g, Relation.ReflTransGen (Next visit) a g ∧ visit g = none

variable {visit : α → Option (List α)} {fuel : Nat} {flow seen next : List α} {v a b : α} {r : Bool}

omit [DecidableEq α] in
theorem Finds.head (hab : Next visit a b) (h : Finds visit b) : Finds visit a := by
  obtain ⟨g, hreach, hgoal⟩ := h
  exact ⟨g, hreach.head hab, hgoal⟩

/-! ## What is found -/

theorem search_sound (h : search visit fuel flow seen = some true) : ∃ v ∈ flow, Finds visit v := by
  induction fuel generalizing flow seen with
  | zero => cases h
  | succ fuel ih =>
    cases flow with
    | nil => cases h
    | cons v flow =>
      rw [search] at h
      split at h
      · obtain ⟨w, hw, hfinds⟩ := ih h
        exact ⟨w, List.mem_cons_of_mem _ hw, hfinds⟩
      · split at h
        · rename_i hgoal
          exact ⟨v, List.mem_cons_self .., v, .refl, hgoal⟩
        · rename_i next hnext
          obtain ⟨w, hw, hfinds⟩ := ih h
          rcases List.mem_append.mp hw with hw | hw
          · exact ⟨v, List.mem_cons_self .., hfinds.head ⟨next, hnext, hw⟩⟩
          · exact ⟨w, List.mem_cons_of_mem _ hw, hfinds⟩

/-! ## What is not found -/

/-- What has been seen is no goal, and what it pushes has been seen or is still on the stack. -/
def Closed (visit : α → Option (List α)) (flow seen : List α) : Prop :=
  ∀ a ∈ seen, ∃ next, visit a = some next ∧ ∀ b ∈ next, b ∈ seen ∨ b ∈ flow

omit [DecidableEq α] in
theorem Closed.drop (h : Closed visit (v :: flow) seen) (hv : v ∈ seen) : Closed visit flow seen := by
  intro a ha
  obtain ⟨next, hnext, hin⟩ := h a ha
  refine ⟨next, hnext, fun b hb => (hin b hb).elim Or.inl fun hflow => ?_⟩
  rcases List.mem_cons.mp hflow with rfl | hflow
  · exact Or.inl hv
  · exact Or.inr hflow

omit [DecidableEq α] in
theorem Closed.expand (h : Closed visit (v :: flow) seen) (hnext : visit v = some next) :
    Closed visit (next ++ flow) (v :: seen) := by
  intro a ha
  rcases List.mem_cons.mp ha with rfl | ha
  · exact ⟨next, hnext, fun b hb => Or.inr (List.mem_append_left _ hb)⟩
  · obtain ⟨next', hnext', hin⟩ := h a ha
    refine ⟨next', hnext', fun b hb => ?_⟩
    rcases hin b hb with hseen | hflow
    · exact Or.inl (List.mem_cons_of_mem _ hseen)
    · rcases List.mem_cons.mp hflow with rfl | hflow
      · exact Or.inl (List.mem_cons_self ..)
      · exact Or.inr (List.mem_append_right _ hflow)

omit [DecidableEq α] in
theorem Closed.not_finds (h : Closed visit [] seen) (hv : v ∈ seen) : ¬Finds visit v := by
  rintro ⟨g, hreach, hgoal⟩
  have hg : g ∈ seen := by
    clear hgoal
    induction hreach with
    | refl => exact hv
    | @tail a b _ hab ih =>
      obtain ⟨next, hnext, hb⟩ := hab
      obtain ⟨next', hnext', hin⟩ := h a ih
      rw [hnext] at hnext'
      obtain rfl := Option.some.inj hnext'
      exact (hin b hb).resolve_right List.not_mem_nil
  obtain ⟨next, hnext, _⟩ := h g hg
  rw [hgoal] at hnext
  cases hnext

theorem search_complete (h : search visit fuel flow seen = some false) (hc : Closed visit flow seen)
    (hv : v ∈ seen ∨ v ∈ flow) : ¬Finds visit v := by
  induction fuel generalizing flow seen with
  | zero => cases h
  | succ fuel ih =>
    cases flow with
    | nil => exact hc.not_finds (hv.resolve_right List.not_mem_nil)
    | cons w flow =>
      rw [search] at h
      split at h
      · rename_i hw
        refine ih h (hc.drop hw) (hv.elim Or.inl fun hflow => ?_)
        rcases List.mem_cons.mp hflow with rfl | hflow
        · exact Or.inl hw
        · exact Or.inr hflow
      · split at h
        · cases h
        · rename_i next hnext
          refine ih h (hc.expand hnext) ?_
          rcases hv with hseen | hflow
          · exact Or.inl (List.mem_cons_of_mem _ hseen)
          · rcases List.mem_cons.mp hflow with rfl | hflow
            · exact Or.inl (List.mem_cons_self ..)
            · exact Or.inr (List.mem_append_right _ hflow)

/-- A goal is found exactly when one is reachable. -/
theorem search_iff (h : search visit fuel [v] [] = some r) : r = true ↔ Finds visit v := by
  cases r with
  | true =>
    obtain ⟨w, hw, hfinds⟩ := search_sound h
    rw [List.mem_singleton.mp hw] at hfinds
    exact iff_of_true rfl hfinds
  | false =>
    refine iff_of_false Bool.false_ne_true (search_complete h ?_ (Or.inr (List.mem_singleton_self v)))
    exact fun a ha => absurd ha List.not_mem_nil

/-! ## Termination -/

/-- The number of nodes that a visit pushes. -/
def pushes (visit : α → Option (List α)) (v : α) : Nat := ((visit v).getD []).length

theorem sum_undone_cons {S : Finset α} (hS : v ∈ S) (hv : v ∉ seen) (f : α → Nat) :
    ∑ x ∈ Worklist.undone S (v :: seen), f x + f v = ∑ x ∈ Worklist.undone S seen, f x := by
  have hmem : v ∈ Worklist.undone S seen := Finset.mem_filter.mpr ⟨hS, hv⟩
  rw [← Finset.sum_erase_add _ f hmem]
  congr 2
  ext x
  simp only [Worklist.undone, Finset.mem_filter, Finset.mem_erase, List.mem_cons, not_or]
  tauto

/-- Each node on the stack costs one round, and so does each node that is still to be pushed. -/
theorem search_isSome (S : Finset α) (hS : ∀ a b, Next visit a b → b ∈ S) (hflow : ∀ a ∈ flow, a ∈ S)
    (hfuel : ∑ x ∈ Worklist.undone S seen, pushes visit x + flow.length < fuel) :
    (search visit fuel flow seen).isSome := by
  induction fuel generalizing flow seen with
  | zero => omega
  | succ fuel ih =>
    cases flow with
    | nil => rfl
    | cons v flow =>
      rw [List.length_cons] at hfuel
      rw [search]
      split
      · apply ih fun a ha => hflow a (List.mem_cons_of_mem _ ha)
        omega
      · rename_i hv
        split
        · rfl
        · rename_i next hnext
          have hpush : pushes visit v = next.length := by rw [pushes, hnext, Option.getD_some]
          have hsum := sum_undone_cons (hflow v (List.mem_cons_self ..)) hv (pushes visit)
          apply ih
          · intro a ha
            rcases List.mem_append.mp ha with ha | ha
            · exact hS v a ⟨next, hnext, ha⟩
            · exact hflow a (List.mem_cons_of_mem _ ha)
          · rw [List.length_append]
            omega

end Search
