import Mathlib.Algebra.GroupWithZero.Nat
import Mathlib.Tactic.Common

/-!
# Layout of records

A field starts at the first multiple of its alignment behind the field before it, and the record ends
at a multiple of its largest alignment. The fields of a record are one behind the other, without
padding, exactly when each one happens to start at a multiple of its alignment (`offsetsFrom_iff`),
and the record has no tail padding when its end is a multiple of its alignment (`size_iff`).
-/

namespace Layout

structure Field where
  size : Nat
  align : Nat

/-- The first multiple of `align` from `o` on. -/
def alignTo (o align : Nat) : Nat := (o + (align - 1)) / align * align

/-- The offsets of the fields of a record that starts at `o`. -/
def offsetsFrom : Nat → List Field → List Nat
  | _, [] => []
  | o, f :: fs => alignTo o f.align :: offsetsFrom (alignTo o f.align + f.size) fs

/-- The end of the last field. -/
def endFrom : Nat → List Field → Nat
  | o, [] => o
  | o, f :: fs => endFrom (alignTo o f.align + f.size) fs

def maxAlign (fs : List Field) : Nat := fs.foldr (fun f a => max f.align a) 1

def size (fs : List Field) : Nat := alignTo (endFrom 0 fs) (maxAlign fs)

/-- The offsets of fields that are one behind the other. -/
def packedFrom : Nat → List Field → List Nat
  | _, [] => []
  | o, f :: fs => o :: packedFrom (o + f.size) fs

/-- Fields that are one behind the other start at multiples of their alignments. -/
def AlignedFrom : Nat → List Field → Prop
  | _, [] => True
  | o, f :: fs => f.align ∣ o ∧ AlignedFrom (o + f.size) fs

variable {o align : Nat} {fs : List Field}

theorem alignTo_iff (h : 0 < align) : alignTo o align = o ↔ align ∣ o := by
  constructor
  · intro heq
    exact ⟨(o + (align - 1)) / align, by rw [Nat.mul_comm]; exact heq.symm⟩
  · rintro ⟨k, rfl⟩
    have hdiv : (align * k + (align - 1)) / align = k := by
      rw [Nat.mul_add_div h, Nat.div_eq_of_lt (by omega), Nat.add_zero]
    rw [alignTo, hdiv, Nat.mul_comm]

/-- The offsets are those without padding exactly when these are aligned. -/
theorem offsetsFrom_iff (h : ∀ f ∈ fs, 0 < f.align) :
    offsetsFrom o fs = packedFrom o fs ↔ AlignedFrom o fs := by
  induction fs generalizing o with
  | nil => simp [offsetsFrom, packedFrom, AlignedFrom]
  | cons f fs ih =>
    obtain ⟨hf, hfs⟩ := List.forall_mem_cons.mp h
    rw [offsetsFrom, packedFrom, AlignedFrom, List.cons.injEq, alignTo_iff hf]
    refine and_congr_right fun hdvd => ?_
    rw [(alignTo_iff hf).mpr hdvd, ih hfs]

theorem endFrom_aligned (h : ∀ f ∈ fs, 0 < f.align) (ha : AlignedFrom o fs) :
    endFrom o fs = o + (fs.map Field.size).sum := by
  induction fs generalizing o with
  | nil => rfl
  | cons f fs ih =>
    obtain ⟨hf, hfs⟩ := List.forall_mem_cons.mp h
    obtain ⟨hdvd, ha⟩ := ha
    rw [endFrom, (alignTo_iff hf).mpr hdvd, ih hfs ha, List.map_cons, List.sum_cons]
    omega

theorem maxAlign_pos (fs : List Field) : 0 < maxAlign fs := by
  induction fs with
  | nil => exact Nat.one_pos
  | cons f fs ih => exact Nat.lt_of_lt_of_le ih (Nat.le_max_right ..)

/-- A record whose fields are aligned has no tail padding exactly when its end is aligned. -/
theorem size_iff (h : ∀ f ∈ fs, 0 < f.align) (ha : AlignedFrom 0 fs) :
    size fs = (fs.map Field.size).sum ↔ maxAlign fs ∣ (fs.map Field.size).sum := by
  rw [size, endFrom_aligned h ha, Nat.zero_add, alignTo_iff (maxAlign_pos fs)]

theorem packedFrom_length (o : Nat) (fs : List Field) : (packedFrom o fs).length = fs.length := by
  induction fs generalizing o with
  | nil => rfl
  | cons f fs ih => rw [packedFrom, List.length_cons, List.length_cons, ih]

theorem offsetsFrom_length (o : Nat) (fs : List Field) : (offsetsFrom o fs).length = fs.length := by
  induction fs generalizing o with
  | nil => rfl
  | cons f fs ih => rw [offsetsFrom, List.length_cons, List.length_cons, ih]

theorem packedFrom_getElem? {i : Nat} (h : i < fs.length) :
    (packedFrom o fs)[i]? = some (o + ((fs.take i).map Field.size).sum) := by
  induction fs generalizing o i with
  | nil => exact absurd h (Nat.not_lt_zero i)
  | cons f fs ih =>
    cases i with
    | zero => rfl
    | succ i =>
      rw [packedFrom, List.getElem?_cons_succ, ih (Nat.lt_of_succ_lt_succ h), List.take_succ_cons,
        List.map_cons, List.sum_cons, Nat.add_assoc]

theorem offsetsFrom_eq_packedFrom_iff : offsetsFrom o fs = packedFrom o fs ↔
    ∀ i < fs.length, (offsetsFrom o fs)[i]? = some (o + ((fs.take i).map Field.size).sum) := by
  constructor
  · intro heq i hi
    rw [heq, packedFrom_getElem? hi]
  · intro h
    refine List.ext_getElem? fun i => ?_
    by_cases hi : i < fs.length
    · rw [h i hi, packedFrom_getElem? hi]
    · rw [List.getElem?_eq_none (by rw [offsetsFrom_length]; omega),
        List.getElem?_eq_none (by rw [packedFrom_length]; omega)]

theorem alignedFrom_iff : AlignedFrom o fs ↔
    ∀ i, ∀ h : i < fs.length, fs[i].align ∣ o + ((fs.take i).map Field.size).sum := by
  induction fs generalizing o with
  | nil =>
    refine iff_of_true trivial fun i h => absurd h (Nat.not_lt_zero i)
  | cons f fs ih =>
    rw [AlignedFrom, ih]
    constructor
    · rintro ⟨hf, hfs⟩ i hi
      cases i with
      | zero => simpa using hf
      | succ i =>
        have hdvd := hfs i (Nat.lt_of_succ_lt_succ hi)
        rw [List.take_succ_cons, List.map_cons, List.sum_cons, ← Nat.add_assoc]
        exact hdvd
    · intro h
      refine ⟨by simpa using h 0 (Nat.succ_pos _), fun i hi => ?_⟩
      have hdvd := h (i + 1) (Nat.succ_lt_succ hi)
      rw [List.take_succ_cons, List.map_cons, List.sum_cons, ← Nat.add_assoc] at hdvd
      exact hdvd

end Layout
