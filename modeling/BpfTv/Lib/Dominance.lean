import Mathlib.Data.List.Nodup
import Mathlib.Data.Set.Insert
import Mathlib.Logic.Relation
import Mathlib.Tactic.Common

/-!
# Dominance

A node dominates another one when every way to the latter leaves the former. What a run has found out
when it left a node is still true wherever that node dominates, provided that it can only be undone at
nodes that dominate it in turn (`holds_of_dom`).

Parameters: nodes `α` with edges `E` and an entry, states `σ` of a system whose steps follow the edges.
-/

namespace Control

variable {α β σ : Type}

/-- There is a way to `x` that leaves no node of `K`. -/
def Avoids (E : α → α → Prop) (entry : α) (K : Set α) (x : α) : Prop :=
  Relation.ReflTransGen (fun a b => E a b ∧ a ∉ K) entry x

/-- Every way to `x` leaves `d`. -/
def Dom (E : α → α → Prop) (entry d x : α) : Prop := ¬Avoids E entry {d} x

variable {E : α → α → Prop} {entry d d' x y : α} {K : Set α}

theorem Avoids.mono {K' : Set α} (h : Avoids E entry K x) (hK : K' ⊆ K) : Avoids E entry K' x :=
  Relation.ReflTransGen.mono (fun _ _ hab => ⟨hab.1, fun hin => hab.2 (hK hin)⟩) _ _ h

theorem Avoids.step (h : Avoids E entry K x) (hx : x ∉ K) (hE : E x y) : Avoids E entry K y :=
  Relation.ReflTransGen.tail h ⟨hE, hx⟩

/-- The first node of `K` on a way that need not avoid it. -/
theorem avoids_or_first (h : Relation.ReflTransGen E entry x) :
    Avoids E entry K x ∨ ∃ k ∈ K, Avoids E entry K k := by
  induction h with
  | refl => exact Or.inl .refl
  | @tail y z _ hE ih =>
    rcases ih with ih | ih
    · by_cases hy : y ∈ K
      · exact Or.inr ⟨y, hy, ih⟩
      · exact Or.inl (ih.step hy hE)
    · exact Or.inr ih

theorem not_dom_self (h : Relation.ReflTransGen E entry x) : ¬Dom E entry x x := by
  intro hdom
  rcases avoids_or_first (K := {x}) h with h | ⟨k, rfl, h⟩
  · exact hdom h
  · exact hdom h

theorem Dom.trans (h : Dom E entry d d') (h' : Dom E entry d' x) : Dom E entry d x := by
  intro havoid
  have hreach : Relation.ReflTransGen (fun a b => E a b ∧ a ∉ ({d} : Set α)) entry x := havoid
  rcases avoids_or_first (K := {d'}) hreach with hx | ⟨k, rfl, hk⟩
  · exact h' (Relation.ReflTransGen.mono (fun _ _ hab => ⟨hab.1.1, hab.2⟩) _ _ hx)
  · exact h (Relation.ReflTransGen.mono (fun _ _ hab => hab.1) _ _ hk)

theorem Dom.of_closed {R : Set α} (hentry : entry ∈ R) (hclosed : ∀ a b, E a b → a ∈ R → a ≠ d → b ∈ R)
    (hx : x ∉ R) : Dom E entry d x := by
  intro havoid
  refine hx ?_
  have hin : ∀ y, Avoids E entry {d} y → y ∈ R := by
    intro y hy
    induction hy with
    | refl => exact hentry
    | tail _ hab ih => exact hclosed _ _ hab.1 ih hab.2
  exact hin x havoid

theorem Dom.reaches (h : Dom E entry d x) (hreach : Relation.ReflTransGen E entry x) :
    Relation.ReflTransGen E entry d := by
  rcases avoids_or_first (K := {d}) hreach with hx | ⟨k, rfl, hk⟩
  · exact absurd hx h
  · exact Relation.ReflTransGen.mono (fun _ _ hab => hab.1) _ _ hk

/-- A node that dominates `d` can be reached without leaving `d`. -/
theorem Dom.avoids (h : Dom E entry x d) (hreach : Relation.ReflTransGen E entry x) : Avoids E entry {d} x := by
  rcases avoids_or_first (K := {d, x}) hreach with hx | ⟨k, rfl | rfl, hk⟩
  · exact hx.mono (Set.singleton_subset_iff.mpr (Set.mem_insert d _))
  · exact absurd (hk.mono (Set.singleton_subset_iff.mpr (Set.mem_insert_of_mem _ rfl))) h
  · exact hk.mono (Set.singleton_subset_iff.mpr (Set.mem_insert d _))

/-! ## Facts along a run -/

variable {step : σ → σ → Prop} {s₀ s : σ} {node : σ → α} {P : σ → Prop}

/-- The steps of the system follow the edges. -/
def StepsAlong (step : σ → σ → Prop) (s₀ : σ) (node : σ → α) (E : α → α → Prop) : Prop :=
  ∀ s s', Relation.ReflTransGen step s₀ s → step s s' → E (node s) (node s')

theorem StepsAlong.reaches (hE : StepsAlong step s₀ node E) (h : Relation.ReflTransGen step s₀ s) :
    Relation.ReflTransGen E (node s₀) (node s) := by
  induction h with
  | refl => exact .refl
  | tail hs hstep ih => exact ih.tail (hE _ _ hs hstep)

/-- A fact that a step from `d` establishes, and that only steps from nodes that dominate `d` may undo. -/
structure Established (step : σ → σ → Prop) (s₀ : σ) (node : σ → α) (E : α → α → Prop) (d : α)
    (P : σ → Prop) : Prop where
  made : ∀ s s', Relation.ReflTransGen step s₀ s → step s s' → node s = d → P s'
  kept : ∀ s s', Relation.ReflTransGen step s₀ s → step s s' → node s ≠ d →
    ¬Dom E (node s₀) (node s) d → P s → P s'

theorem Established.avoids_or (h : Established step s₀ node E d P) (hE : StepsAlong step s₀ node E)
    (hs : Relation.ReflTransGen step s₀ s) : Avoids E (node s₀) {d} (node s) ∨ P s := by
  induction hs with
  | refl => exact Or.inl .refl
  | @tail s s' hs hss' ih =>
    by_cases hd : node s = d
    · exact Or.inr (h.made s s' hs hss' hd)
    · have hedge := hE s s' hs hss'
      rcases ih with havoid | hP
      · exact Or.inl (havoid.step hd hedge)
      · by_cases hdom : Dom E (node s₀) (node s) d
        · exact Or.inl ((hdom.avoids (hE.reaches hs)).step hd hedge)
        · exact Or.inr (h.kept s s' hs hss' hd hdom hP)

/-- The fact holds wherever `d` dominates. -/
theorem Established.holds_of_dom (h : Established step s₀ node E d P) (hE : StepsAlong step s₀ node E)
    (hs : Relation.ReflTransGen step s₀ s) (hdom : Dom E (node s₀) d (node s)) : P s :=
  (h.avoids_or hE hs).resolve_left hdom

/-! ## Neighbours in a list -/

theorem disjoint_behind {p q : List α} {x : α} (hnodup : (p ++ x :: q).Nodup) :
    (p ++ [x]).Disjoint q :=
  List.disjoint_of_nodup_append (show ((p ++ [x]) ++ q).Nodup by simpa using hnodup)

/-- In a list without duplicates, the elements up to one of them are left only by way of it. -/
theorem before_closed {p q xs ys : List α} {x m n : α} (hnodup : (p ++ x :: q).Nodup)
    (h : p ++ x :: q = xs ++ m :: n :: ys) (hm : m ∈ p ++ [x]) (hne : m ≠ x) : n ∈ p ++ [x] := by
  have hsplit : (p ++ [x]) ++ q = (xs ++ [m]) ++ n :: ys := by simpa using h
  have hdisj := disjoint_behind hnodup
  rcases List.append_eq_append_iff.mp hsplit with ⟨as, heq, hq⟩ | ⟨bs, heq, hn⟩
  · -- `m` is the last one of `xs ++ [m]`
    rcases List.eq_nil_or_concat as with rfl | ⟨as, y, rfl⟩
    · rw [List.append_nil] at heq
      exact absurd (List.append_inj' heq rfl).2 (by simpa using hne)
    · rw [List.concat_eq_append, ← List.append_assoc] at heq
      have hlast := (List.append_inj' heq rfl).2
      obtain rfl : m = y := by simpa using hlast
      exact absurd (by rw [hq]; simp) (hdisj hm)
  · cases bs with
    | nil =>
      rw [List.append_nil] at heq
      exact absurd (List.append_inj' heq rfl).2 (by simpa using hne.symm)
    | cons y bs =>
      obtain ⟨rfl, _⟩ := List.cons.inj hn
      rw [heq]
      simp

theorem flatMap_head {g : α → List β} {l : List α} {n : β} {ys : List β} (h : l.flatMap g = n :: ys) :
    ∃ mid b bs q, l = mid ++ b :: bs ∧ g b = n :: q ∧ ∀ z ∈ mid, g z = [] := by
  induction l with
  | nil => cases h
  | cons a l ih =>
    cases ha : g a with
    | nil =>
      rw [List.flatMap_cons, ha, List.nil_append] at h
      obtain ⟨mid, b, bs, q, rfl, hb, hmid⟩ := ih h
      exact ⟨a :: mid, b, bs, q, rfl, hb, List.forall_mem_cons.mpr ⟨ha, hmid⟩⟩
    | cons n' q =>
      rw [List.flatMap_cons, ha, List.cons_append] at h
      obtain ⟨rfl, _⟩ := List.cons.inj h
      exact ⟨[], a, l, q, rfl, ha, List.forall_mem_nil _⟩

/-- Two neighbours in a list that has been expanded come from one element, or from two with nothing left
between them. -/
theorem flatMap_neighbours {g : α → List β} {l : List α} {m n : β} {xs ys : List β}
    (h : l.flatMap g = xs ++ m :: n :: ys) :
    (∃ a ∈ l, ∃ p q, g a = p ++ m :: n :: q) ∨
      ∃ as a mid b bs p q, l = as ++ a :: (mid ++ b :: bs) ∧ g a = p ++ [m] ∧ g b = n :: q ∧
        ∀ z ∈ mid, g z = [] := by
  induction l generalizing xs with
  | nil => cases xs <;> cases h
  | cons a l ih =>
    have hrest : ∀ xs, l.flatMap g = xs ++ m :: n :: ys →
        (∃ a' ∈ a :: l, ∃ p q, g a' = p ++ m :: n :: q) ∨
          ∃ as a' mid b bs p q, a :: l = as ++ a' :: (mid ++ b :: bs) ∧ g a' = p ++ [m] ∧ g b = n :: q ∧
            ∀ z ∈ mid, g z = [] := by
      intro xs h
      rcases ih h with ⟨a', ha', hin⟩ | ⟨as, a', mid, b, bs, p, q, rfl, hfar⟩
      · exact Or.inl ⟨a', List.mem_cons_of_mem _ ha', hin⟩
      · exact Or.inr ⟨a :: as, a', mid, b, bs, p, q, rfl, hfar⟩
    rw [List.flatMap_cons] at h
    rcases List.append_eq_append_iff.mp h with ⟨cs, rfl, hl⟩ | ⟨cs, ha, hl⟩
    · exact hrest cs hl
    · cases cs with
      | nil => exact hrest [] hl.symm
      | cons m' cs =>
        obtain ⟨rfl, hnext⟩ := List.cons.inj hl
        cases cs with
        | nil =>
          obtain ⟨mid, b, bs, q, rfl, hb, hmid⟩ := flatMap_head hnext.symm
          exact Or.inr ⟨[], a, mid, b, bs, xs, q, rfl, ha, hb, hmid⟩
        | cons n' cs =>
          obtain ⟨rfl, _⟩ := List.cons.inj hnext
          exact Or.inl ⟨a, List.mem_cons_self .., xs, cs, ha⟩

/-! ## Expanded graphs -/

/-- An edge of a graph in which the nodes `grp x` have taken the place of `x`: it goes on in the same place,
or, by way of nodes with nothing in their places, to another one. -/
inductive Expands (E : α → α → Prop) (grp : α → List β) (m n : β) : Prop
  | inside {o : α} {p q : List β} (h : grp o = p ++ m :: n :: q)
  | across {o o' : α} {p q : List β} (hm : grp o = p ++ [m]) (hn : grp o' = n :: q)
      (way : ∀ x, x ≠ o → grp x ≠ [] → Avoids E o {x} o')

/-- In an expanded graph a node dominates what is behind it in the same place, and all that stands in the
places of nodes which its place dominates. -/
theorem Dom.of_expands {F : β → β → Prop} {grp : α → List β} {entry' n z : β} {o : α} {p q : List β}
    (hF : ∀ a b, F a b → Expands E grp a b) (hplace : ∀ o o' a, a ∈ grp o → a ∈ grp o' → o = o')
    (hnodup : (grp o).Nodup) {r : List β} (hentry : grp entry = entry' :: r) (hn : grp o = p ++ n :: q)
    (h : z ∈ q ∨ ∃ o', z ∈ grp o' ∧ Dom E entry o o') : Dom F entry' n z := by
  rw [hn] at hnodup
  have hmem : ∀ a, a ∈ grp o → a ∈ p ++ [n] ∨ a ∈ q := fun a ha => by
    rw [hn] at ha
    simpa [or_assoc] using ha
  have hq : ∀ a ∈ q, a ∈ grp o := fun a ha => by
    rw [hn]
    exact List.mem_append_right _ (List.mem_cons_of_mem _ ha)
  have hhead : ∀ a r, grp o = a :: r → a ∉ q := by
    intro a r har
    refine disjoint_behind hnodup ?_
    rw [hn] at har
    cases p with
    | nil => exact (List.cons.inj har).1 ▸ List.mem_singleton_self _
    | cons b p => exact (List.cons.inj har).1 ▸ List.mem_cons_self ..
  have hlast : ∀ a r, grp o = r ++ [a] → a = n ∨ a ∈ q := by
    intro a r har
    rw [hn] at har
    rcases List.eq_nil_or_concat q with rfl | ⟨q, b, rfl⟩
    · exact Or.inl (List.singleton_inj.mp (List.append_inj' har rfl).2).symm
    · rw [List.concat_eq_append, ← List.cons_append, ← List.append_assoc] at har
      exact Or.inr (by simp [List.singleton_inj.mp (List.append_inj' har rfl).2])
  have havoids : ∀ b, Avoids F entry' {n} b → b ∉ q ∧ ∀ o', b ∈ grp o' → Avoids E entry {o} o' := by
    intro b hb
    induction hb with
    | refl =>
      have hin : entry' ∈ grp entry := hentry ▸ List.mem_cons_self ..
      refine ⟨fun hb => ?_, fun o' ho' => hplace _ _ _ hin ho' ▸ .refl⟩
      obtain rfl := hplace _ _ _ hin (hq _ hb)
      exact hhead _ _ hentry hb
    | @tail a b _ hab ih =>
      obtain ⟨hedge, hne⟩ := hab
      cases hF a b hedge with
      | @inside o₁ p₁ q₁ hin =>
        have ha : a ∈ grp o₁ := by simp [hin]
        have hb : b ∈ grp o₁ := by simp [hin]
        refine ⟨fun hbq => ?_, fun o' ho' => hplace _ _ _ hb ho' ▸ ih.2 o₁ ha⟩
        obtain rfl := hplace _ _ _ hb (hq b hbq)
        exact disjoint_behind hnodup
          (before_closed hnodup (hn.symm.trans hin) ((hmem a ha).resolve_right ih.1) hne) hbq
      | @across o₁ o₂ p₁ q₁ ha hb way =>
        have hb' : b ∈ grp o₂ := hb ▸ List.mem_cons_self ..
        refine ⟨fun hbq => ?_, fun o' ho' => ?_⟩
        · obtain rfl := hplace _ _ _ hb' (hq b hbq)
          exact hhead b _ hb hbq
        · obtain rfl := hplace _ _ _ hb' ho'
          refine Relation.ReflTransGen.trans (ih.2 o₁ (by simp [ha])) (way o ?_ (by simp [hn]))
          rintro rfl
          exact (hlast a p₁ ha).elim hne ih.1
  intro havoid
  obtain ⟨hz, hways⟩ := havoids z havoid
  rcases h with h | ⟨o', ho', hdom⟩
  · exact hz h
  · exact hdom (hways o' ho')

theorem dom_entry (hx : x ≠ entry) : Dom E entry entry x := by
  intro havoid
  rcases Relation.ReflTransGen.cases_head havoid with h | ⟨y, hy, _⟩
  · exact hx h.symm
  · exact hy.2 rfl

end Control
