import Mathlib.Data.List.Basic
import Mathlib.Data.List.Perm.Basic
import Mathlib.Tactic.Common

/-!
# Frame slots

`generateAsm` reads the frame layout back from the backend: the slots that come from an alloca,
without those that overlap another one. The pass that drops overlapping slots looks at neighbours in
the order of their offsets and erases two of them at a time. Its result is right only when the slots
that overlap another one come in such pairs (`frame_slots`): a slot that overlaps one that has been
erased stays.
-/

namespace BpfTv

/-- `StackFrameTopOffset`: the offset of `r10` in the stack block. -/
def StackFrameTopOffset : Int := 1024

/-- A frame slot of a source-level alloca, at an offset from `r10`. -/
structure StackSlot where
  offset : Int
  size : Nat
  align : Nat
  srcLine : Nat
  deriving DecidableEq, Repr

/-- An object of the frame of a machine function: the line of its alloca when it has a debug
location, size, alignment, and the offset that the backend gave it. -/
structure FrameObject where
  isDead : Bool := false
  hasAllocation : Bool := true
  debugLine : Option Nat
  size : Int
  align : Nat
  offset : Int
  deriving DecidableEq, Repr

/-- The candidate slot of a frame object. -/
def FrameObject.candidate (o : FrameObject) : Option StackSlot :=
  if o.isDead || !o.hasAllocation then none
  else
    match o.debugLine with
    | none => none
    | some line =>
      if o.size ≤ 0 ∨ 0 ≤ o.offset ∨ StackFrameTopOffset + o.offset < 0 then none
      else some ⟨o.offset, o.size.toNat, o.align, line⟩

/-- The loop that drops overlapping slots. -/
def dropLoop (slots : List StackSlot) (i : Nat) : List StackSlot :=
  if h : i + 1 < slots.length then
    if (slots[i]).offset + (slots[i]).size > (slots[i + 1]).offset then
      dropLoop ((slots.eraseIdx i).eraseIdx i) i
    else
      dropLoop slots (i + 1)
  else
    slots
termination_by slots.length - i
decreasing_by
  · have h₁ : (slots.eraseIdx i).length = slots.length - 1 := List.length_eraseIdx_of_lt (by omega)
    rw [List.length_eraseIdx_of_lt (by omega), h₁]
    omega
  · omega

/-- The candidates of a frame, in an order that `std::sort` may leave them in. -/
structure SortedCandidates (objects : List FrameObject) (slots : List StackSlot) : Prop where
  perm : slots.Perm (objects.filterMap FrameObject.candidate)
  sorted : slots.Pairwise fun a b => a.offset ≤ b.offset

/-! ## Overlaps -/

namespace StackSlot

/-- The slots share a byte. -/
def Overlaps (s t : StackSlot) : Prop := s.offset < t.offset + t.size ∧ t.offset < s.offset + s.size

instance (s t : StackSlot) : Decidable (s.Overlaps t) := inferInstanceAs (Decidable (_ ∧ _))

theorem Overlaps.symm {s t : StackSlot} (h : s.Overlaps t) : t.Overlaps s := ⟨h.2, h.1⟩

theorem overlaps_self {s : StackSlot} (h : 0 < s.size) : s.Overlaps s := by
  constructor <;> omega

end StackSlot

/-- `s` overlaps no slot of the list but itself. -/
def Isolated (slots : List StackSlot) (s : StackSlot) : Prop :=
  slots.countP (fun t => s.Overlaps t) ≤ 1

instance (slots : List StackSlot) (s : StackSlot) : Decidable (Isolated slots s) :=
  inferInstanceAs (Decidable (_ ≤ _))

/-- The list consists of pairs of slots that overlap each other. -/
def InPairs : List StackSlot → Prop
  | [] => True
  | [_] => False
  | a :: b :: rest => a.Overlaps b ∧ InPairs rest

instance InPairs.decidable : (slots : List StackSlot) → Decidable (InPairs slots)
  | [] => .isTrue trivial
  | [_] => .isFalse id
  | a :: b :: rest =>
    have := InPairs.decidable rest
    inferInstanceAs (Decidable (a.Overlaps b ∧ InPairs rest))

theorem candidate_size {o : FrameObject} {s : StackSlot} (h : o.candidate = some s) : 0 < s.size := by
  unfold FrameObject.candidate at h
  split at h
  · cases h
  · split at h
    · cases h
    · split at h
      · cases h
      · cases h
        rename_i hsize
        simp only
        omega

/-! ## The loop -/

/-- What the loop makes of the slots from its index on. -/
def dropOverlaps : List StackSlot → List StackSlot
  | [] => []
  | [a] => [a]
  | a :: b :: rest =>
    if a.offset + a.size > b.offset then dropOverlaps rest else a :: dropOverlaps (b :: rest)

theorem dropLoop_eq (done slots : List StackSlot) :
    dropLoop (done ++ slots) done.length = done ++ dropOverlaps slots := by
  induction slots using dropOverlaps.induct generalizing done with
  | case1 =>
    rw [dropLoop, dif_neg (by simp)]
    rfl
  | case2 a =>
    rw [dropLoop, dif_neg (by simp)]
    rfl
  | case3 a b rest h ih =>
    rw [dropLoop, dif_pos (by simp), if_pos (by simpa using h), dropOverlaps, if_pos h]
    have herase : ((done ++ a :: b :: rest).eraseIdx done.length).eraseIdx done.length = done ++ rest := by
      rw [List.eraseIdx_append_of_length_le (Nat.le_refl _), Nat.sub_self, List.eraseIdx_zero,
        List.tail_cons, List.eraseIdx_append_of_length_le (Nat.le_refl _), Nat.sub_self,
        List.eraseIdx_zero, List.tail_cons]
    rw [herase]
    exact ih done
  | case4 a b rest h ih =>
    rw [dropLoop, dif_pos (by simp), if_neg (by simpa using h), dropOverlaps, if_neg h]
    have hmove := ih (done ++ [a])
    simpa [List.append_assoc] using hmove

/-- A slot that ends where the next one starts, or before, overlaps none of the later ones. -/
theorem not_overlaps_later {a b : StackSlot} {rest : List StackSlot}
    (hsorted : (a :: b :: rest).Pairwise fun a b => a.offset ≤ b.offset)
    (h : ¬a.offset + a.size > b.offset) : ∀ s ∈ b :: rest, ¬a.Overlaps s := by
  obtain ⟨_, hrest⟩ := List.pairwise_cons.mp hsorted
  intro s hs hov
  have hb : b.offset ≤ s.offset := by
    rcases List.mem_cons.mp hs with rfl | hs
    · exact Int.le_refl _
    · exact (List.pairwise_cons.mp hrest).1 s hs
  have := hov.2
  omega

/-- The slots that are left are the good ones when the bad ones come in overlapping pairs. `good` may
be any property that two slots of the list do not have if they overlap. -/
theorem dropOverlaps_perm_iff (good : StackSlot → Bool) (slots : List StackSlot)
    (hsorted : slots.Pairwise fun a b => a.offset ≤ b.offset) (hsize : ∀ s ∈ slots, 0 < s.size)
    (hgood : ∀ a b, [a, b].Sublist slots → a.Overlaps b → good a = false ∧ good b = false) :
    (dropOverlaps slots).Perm (slots.filter good) ↔ InPairs (slots.filter fun s => !good s) := by
  induction slots using dropOverlaps.induct with
  | case1 => exact iff_of_true (List.Perm.refl _) trivial
  | case2 a =>
    cases ha : good a with
    | true => simp [dropOverlaps, ha, InPairs]
    | false => simp [dropOverlaps, ha, InPairs]
  | case3 a b rest h ih =>
    have hb : b ∈ a :: b :: rest := List.mem_cons_of_mem _ (List.mem_cons_self ..)
    have hov : a.Overlaps b := by
      have hle := (List.pairwise_cons.mp hsorted).1 b (List.mem_cons_self ..)
      have := hsize b hb
      constructor <;> omega
    obtain ⟨ha, hb⟩ := hgood a b (by simp) hov
    have hsub : rest.Sublist (a :: b :: rest) := (List.sublist_cons_self b rest).trans (List.sublist_cons_self a _)
    rw [dropOverlaps, if_pos h]
    simp only [List.filter_cons, ha, hb, Bool.false_eq_true, if_false, Bool.not_false, if_true, InPairs]
    rw [ih (hsorted.sublist hsub) (fun s hs => hsize s (hsub.mem hs)) fun a b hab =>
      hgood a b (hab.trans hsub)]
    exact ⟨fun hp => ⟨hov, hp⟩, fun hp => hp.2⟩
  | case4 a b rest h ih =>
    have hsub : (b :: rest).Sublist (a :: b :: rest) := List.sublist_cons_self a _
    have ih' := ih (hsorted.sublist hsub) (fun s hs => hsize s (hsub.mem hs)) fun a b hab =>
      hgood a b (hab.trans hsub)
    rw [dropOverlaps, if_neg h]
    cases ha : good a with
    | true =>
      have hbad : (a :: b :: rest).filter (fun s => !good s) = (b :: rest).filter fun s => !good s :=
        List.filter_cons_of_neg (by simp [ha])
      rw [List.filter_cons_of_pos ha, hbad, List.perm_cons]
      exact ih'
    | false =>
      -- `a` stays although it is bad, and no later slot overlaps it
      have hbad : (a :: b :: rest).filter (fun s => !good s) =
          a :: (b :: rest).filter fun s => !good s := List.filter_cons_of_pos (by simp [ha])
      rw [List.filter_cons_of_neg (by simp [ha]), hbad]
      refine iff_of_false (fun hperm => ?_) fun hpairs => ?_
      · have hmem := hperm.mem_iff.mp (List.mem_cons_self ..)
        rw [List.mem_filter, ha] at hmem
        exact absurd hmem.2 Bool.false_ne_true
      · have hlater := not_overlaps_later hsorted h
        cases hf : (b :: rest).filter fun s => !good s with
        | nil =>
          rw [hf] at hpairs
          exact hpairs
        | cons c cs =>
          rw [hf] at hpairs
          have hc : c ∈ (b :: rest).filter fun s => !good s := hf ▸ List.mem_cons_self ..
          exact hlater c (List.mem_of_mem_filter hc) hpairs.1

theorem not_isolated {slots : List StackSlot} (hsize : ∀ s ∈ slots, 0 < s.size) {a b : StackSlot}
    (hsub : [a, b].Sublist slots) (hov : a.Overlaps b) : ¬Isolated slots a ∧ ¬Isolated slots b := by
  have ha := StackSlot.overlaps_self (hsize a (hsub.mem (by simp)))
  have hb := StackSlot.overlaps_self (hsize b (hsub.mem (by simp)))
  have hcount : ∀ s : StackSlot, s.Overlaps a → s.Overlaps b → ¬Isolated slots s := by
    intro s h₁ h₂ hiso
    have hle := hsub.countP_le (p := fun t => s.Overlaps t)
    have htwo : [a, b].countP (fun t => s.Overlaps t) = 2 := by simp [h₁, h₂]
    rw [htwo] at hle
    have hone : slots.countP (fun t => s.Overlaps t) ≤ 1 := hiso
    omega
  exact ⟨hcount a ha hov, hcount b hov.symm hb⟩

theorem isolated_perm {slots slots' : List StackSlot} (h : slots.Perm slots') (s : StackSlot) :
    Isolated slots s ↔ Isolated slots' s := by
  rw [Isolated, Isolated, h.countP_eq]

/-- **Frame-slot filtering.** The loop leaves exactly the candidates that share no byte with another
candidate when those that do, in the order of their offsets, come in pairs that overlap. -/
theorem frame_slots {objects : List FrameObject} {slots : List StackSlot}
    (h : SortedCandidates objects slots) :
    (dropLoop slots 0).Perm ((objects.filterMap FrameObject.candidate).filter
        fun s => Isolated (objects.filterMap FrameObject.candidate) s) ↔
      InPairs (slots.filter fun s => ¬Isolated (objects.filterMap FrameObject.candidate) s) := by
  have hsize : ∀ s ∈ slots, 0 < s.size := by
    intro s hs
    obtain ⟨o, _, ho⟩ := List.mem_filterMap.mp (h.perm.mem_iff.mp hs)
    exact candidate_size ho
  have hgood : ∀ a b, [a, b].Sublist slots → a.Overlaps b →
      decide (Isolated (objects.filterMap FrameObject.candidate) a) = false ∧
        decide (Isolated (objects.filterMap FrameObject.candidate) b) = false := by
    intro a b hsub hov
    obtain ⟨ha, hb⟩ := not_isolated hsize hsub hov
    rw [isolated_perm h.perm] at ha hb
    exact ⟨decide_eq_false ha, decide_eq_false hb⟩
  have hloop : dropLoop slots 0 = dropOverlaps slots := dropLoop_eq [] slots
  have hmain := dropOverlaps_perm_iff (fun s => Isolated (objects.filterMap FrameObject.candidate) s)
    slots h.sorted hsize hgood
  rw [hloop, ← (h.perm.filter _).congr_right]
  simpa using hmain

/-- A frame of eight-byte objects at the given offsets, each with a debug location. -/
def wordFrame (offsets : List Int) : List FrameObject :=
  offsets.map fun o => { debugLine := some 1, size := 8, align := 8, offset := o }

theorem frame_slots_pair :
    (dropLoop ((wordFrame [-32, -20, -16, -8]).filterMap FrameObject.candidate) 0).Perm
      ((wordFrame [-32, -8]).filterMap FrameObject.candidate) := by
  have h : SortedCandidates (wordFrame [-32, -20, -16, -8])
      ((wordFrame [-32, -20, -16, -8]).filterMap FrameObject.candidate) := ⟨List.Perm.refl _, by decide⟩
  have hout := (frame_slots h).mpr (by decide)
  exact hout.trans (List.Perm.of_eq (by decide))

/-- Three objects with the same bytes: two of them are dropped, the third is returned. -/
theorem frame_slots_three :
    ∃ slots, SortedCandidates (wordFrame [-8, -8, -8]) slots ∧
      dropLoop slots 0 = [⟨-8, 8, 8, 1⟩] ∧
      ¬(dropLoop slots 0).Perm (((wordFrame [-8, -8, -8]).filterMap FrameObject.candidate).filter
        fun s => Isolated ((wordFrame [-8, -8, -8]).filterMap FrameObject.candidate) s) := by
  have hloop : dropLoop ((wordFrame [-8, -8, -8]).filterMap FrameObject.candidate) 0 =
      [⟨-8, 8, 8, 1⟩] := (dropLoop_eq [] _).trans (by decide)
  refine ⟨_, ⟨List.Perm.refl _, by decide⟩, hloop, ?_⟩
  rw [hloop]
  decide

end BpfTv
