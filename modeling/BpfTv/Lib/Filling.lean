import BpfTv.Lib.Bytes

/-!
# Filling a store from one end

`Fills a b R`: whatever stands below `a`, there is a way to go on in the cells from `a` to `b` such that
`R` holds, whatever comes behind. Parts that are handed out one behind the other can be filled
independently of each other (`Fills.and`).

Parameters: the contents `β` of a cell.
-/

namespace Bytes

variable {β : Type} {a b c : Nat} {R R' : (Nat → β) → Prop}

/-- `R` can be made to hold in the cells from `a` to `b`. -/
def Fills (a b : Nat) (R : (Nat → β) → Prop) : Prop :=
  ∀ u₀ : Nat → β, ∃ u : Nat → β, (∀ k < a, u k = u₀ k) ∧ ∀ u', (∀ k < b, u' k = u k) → R u'

theorem Fills.of_true (h : ∀ u, R u) : Fills a b R := fun u₀ => ⟨u₀, fun _ _ => rfl, fun u' _ => h u'⟩

theorem Fills.mono (h : Fills a b R) (hR : ∀ u, R u → R' u) : Fills a b R' := by
  intro u₀
  obtain ⟨u, hu, hr⟩ := h u₀
  exact ⟨u, hu, fun u' hu' => hR u' (hr u' hu')⟩

theorem Fills.widen {a' b' : Nat} (h : Fills a b R) (ha : a' ≤ a) (hb : b ≤ b') : Fills a' b' R := by
  intro u₀
  obtain ⟨u, hu, hr⟩ := h u₀
  exact ⟨u, fun k hk => hu k (by omega), fun u' hu' => hr u' fun k hk => hu' k (by omega)⟩

theorem Fills.and (h : Fills a b R) (h' : Fills b c R') (hab : a ≤ b) (hbc : b ≤ c) :
    Fills a c fun u => R u ∧ R' u := by
  intro u₀
  obtain ⟨u₁, hu₁, hr⟩ := h u₀
  obtain ⟨u₂, hu₂, hr'⟩ := h' u₁
  refine ⟨u₂, fun k hk => (hu₂ k (by omega)).trans (hu₁ k hk), fun u' hu' => ⟨hr u' fun k hk => ?_, hr' u' hu'⟩⟩
  exact (hu' k (by omega)).trans (hu₂ k hk)

theorem Fills.exists (h : Fills a b R) [Inhabited β] : ∃ u, R u := by
  obtain ⟨u, _, hr⟩ := h fun _ => default
  exact ⟨u, hr u fun _ _ => rfl⟩

theorem Fills.row {R : Nat → (Nat → β) → Prop} {m : Nat} (n : Nat)
    (h : ∀ j < n, Fills (a + m * j) (a + m * j + m) (R j)) : Fills a (a + m * n) fun u => ∀ j < n, R j u := by
  induction n with
  | zero => exact .of_true fun _ j hj => absurd hj (Nat.not_lt_zero j)
  | succ n ih =>
    have hprev := ih fun j hj => h j (Nat.lt_succ_of_lt hj)
    have hboth := hprev.and (h n (Nat.lt_succ_self n)) (Nat.le_add_right ..) (Nat.le_add_right ..)
    rw [Nat.mul_succ, ← Nat.add_assoc]
    refine hboth.mono fun u ⟨hu, hn⟩ j hj => ?_
    rcases Nat.lt_succ_iff_lt_or_eq.mp hj with hj | rfl
    · exact hu j hj
    · exact hn

theorem fills_read {n v : Nat} (hv : v < 256 ^ n) :
    Fills a (a + n) fun u => read u (a, n) = v := by
  intro u₀
  refine ⟨fun k => if k < a then u₀ k else byteAt v (k - a), fun k hk => if_pos hk, fun u' hu' => ?_⟩
  have hbytes : ∀ i < n, u' (a + i) = byteAt v i := by
    intro i hi
    have hge : ¬a + i < a := by omega
    have hi' := hu' (a + i) (by omega)
    simp only [if_neg hge, Nat.add_sub_cancel_left] at hi'
    exact hi'
  show leNat (fun i => u' (a + i)) n = v
  rw [leNat_congr hbytes, leNat_byteAt, Nat.mod_eq_of_lt hv]

end Bytes
