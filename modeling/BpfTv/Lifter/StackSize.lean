import BpfTv.Lib.Layout
import BpfTv.Lifter.FrameSlots
import BpfTv.Lifter.Lift
import Mathlib.Data.List.DropRight
import Mathlib.Tactic.Ring

/-!
# The check of the stack size

`checkSupport` adds up the sizes of the source allocas in a `long` and refuses a sum of at least
`stackBytes`. The frame also holds the padding in front of each alloca, which the check leaves out,
and the sum wraps. What it accepts fits below `r10` exactly when sizes and padding together do
(`stack_size_check`).
-/

namespace BpfTv

/-- A static alloca. -/
structure Alloca where
  size : Nat
  /-- The alignment is `2 ^ logAlign`. -/
  logAlign : Nat
  deriving DecidableEq, Repr

def Alloca.align (ai : Alloca) : Nat := 2 ^ ai.logAlign

/-- `getAllocationSize`: none when the size is no `uint64_t`. -/
def Alloca.getAllocationSize (ai : Alloca) : Option (BitVec 64) :=
  if ai.size < 2 ^ 64 then some (BitVec.ofNat 64 ai.size) else none

/-- The part of `checkInstSupport` about allocas; `totalAllocas` is a `long`. -/
def countAlloca (totalAllocas : BitVec 64) (ai : Alloca) : BitVec 64 :=
  match ai.getAllocationSize with
  | some allocSize => totalAllocas + allocSize
  | none => totalAllocas

def totalAllocas (allocas : List Alloca) : BitVec 64 := allocas.foldl countAlloca 0

/-- The part of `checkSupport` about the size of the stack. -/
def checkStackSize (allocas : List Alloca) : Except LiftError Unit :=
  if (totalAllocas allocas).toInt ≥ stackBytes then
    .error (.exit "ERROR: Stack frame too large, consider increasing stackBytes")
  else
    .ok ()

/-! ## The frame -/

/-- Place an alloca below `top`; offsets are relative to `r10`. -/
def placeAlloca (top : Int) (ai : Alloca) : Int := top - ai.size - (top - ai.size) % ai.align

/-- The offset of the last one of `allocas`, placed one after another. -/
def frameOffset (allocas : List Alloca) : Int := allocas.foldl placeAlloca 0

/-- Every byte of every alloca is one of the `stackBytes` below `r10` in the lifted stack block. -/
def InsideStack (allocas : List Alloca) : Prop :=
  ∀ pre ai post, allocas = pre ++ ai :: post → ∀ b, frameOffset (pre ++ [ai]) ≤ b →
    b < frameOffset (pre ++ [ai]) + ai.size →
    0 ≤ StackFrameTopOffset + b ∧ StackFrameTopOffset + b < stackBytes

/-- The bytes that a frame takes: sizes and padding. -/
def frameDepth (allocas : List Alloca) : Nat :=
  allocas.foldl (fun depth ai => Layout.alignTo (depth + ai.size) ai.align) 0

/-- The allocas without the empty ones at the end. -/
def occupied (allocas : List Alloca) : List Alloca := allocas.rdropWhile (·.size = 0)

variable {allocas pre : List Alloca} {ai : Alloca}

theorem align_pos (ai : Alloca) : 0 < ai.align := Nat.two_pow_pos _

theorem le_alignTo {o align : Nat} (h : 0 < align) : o ≤ Layout.alignTo o align := by
  have hdiv := Nat.div_add_mod (o + (align - 1)) align
  have hmod := Nat.mod_lt (o + (align - 1)) h
  rw [Layout.alignTo, Nat.mul_comm]
  omega

/-- To align down below `r10` is to align the depth up. -/
theorem placeAlloca_depth (depth : Nat) (ai : Alloca) :
    placeAlloca (-depth) ai = -(Layout.alignTo (depth + ai.size) ai.align : Nat) := by
  obtain ⟨x, hx⟩ : ∃ x, x = depth + ai.size := ⟨_, rfl⟩
  obtain ⟨k, hk⟩ : ∃ k, k = (x + (ai.align - 1)) / ai.align := ⟨_, rfl⟩
  have hbelow : -(depth : Int) - ai.size = -(x : Int) := by
    rw [hx]
    push_cast
    ring
  -- `k` alignments reach `x`, one less do not
  have hreach : x ≤ ai.align * k ∧ ai.align * k < x + ai.align := by
    have hpos := align_pos ai
    have hdiv := Nat.div_add_mod (x + (ai.align - 1)) ai.align
    have hmod := Nat.mod_lt (x + (ai.align - 1)) hpos
    rw [← hk] at hdiv
    omega
  have hle : (x : Int) ≤ ai.align * k := by exact_mod_cast hreach.1
  have hlt : (ai.align * k : Int) < x + ai.align := by exact_mod_cast hreach.2
  have hrem : -(x : Int) % ai.align = ai.align * k - x := by
    have hsplit : -(x : Int) = (ai.align * k - x) + ai.align * (-(k : Int)) := by ring
    rw [hsplit, Int.add_mul_emod_self_left]
    exact Int.emod_eq_of_lt (by omega) (by omega)
  rw [placeAlloca, hbelow, hrem, Layout.alignTo, ← hx, ← hk]
  push_cast
  ring

theorem frameOffset_eq (allocas : List Alloca) : frameOffset allocas = -(frameDepth allocas : Int) := by
  induction allocas using List.reverseRecOn with
  | nil => rfl
  | append_singleton pre ai ih =>
    rw [frameOffset, frameDepth, List.foldl_append, List.foldl_append]
    rw [frameOffset, frameDepth] at ih
    rw [ih]
    exact placeAlloca_depth _ ai

theorem frameDepth_concat (pre : List Alloca) (ai : Alloca) :
    frameDepth (pre ++ [ai]) = Layout.alignTo (frameDepth pre + ai.size) ai.align := by
  rw [frameDepth, List.foldl_append]
  rfl

theorem le_frameDepth (pre : List Alloca) (ai : Alloca) :
    frameDepth pre + ai.size ≤ frameDepth (pre ++ [ai]) := by
  rw [frameDepth_concat]
  exact le_alignTo (align_pos ai)

theorem frameDepth_mono (pre post : List Alloca) : frameDepth pre ≤ frameDepth (pre ++ post) := by
  induction post using List.reverseRecOn with
  | nil => rw [List.append_nil]
  | append_singleton post ai ih =>
    rw [← List.append_assoc]
    have hle := le_frameDepth (pre ++ post) ai
    omega

theorem sum_le_frameDepth (allocas : List Alloca) :
    (allocas.map (·.size)).sum ≤ frameDepth allocas := by
  induction allocas using List.reverseRecOn with
  | nil => exact Nat.le_refl 0
  | append_singleton pre ai ih =>
    have hle := le_frameDepth pre ai
    rw [List.map_append, List.sum_append, List.map_singleton, List.sum_singleton]
    omega

theorem sum_occupied (allocas : List Alloca) :
    ((occupied allocas).map (·.size)).sum = (allocas.map (·.size)).sum := by
  induction allocas using List.reverseRecOn with
  | nil => rfl
  | append_singleton pre ai ih =>
    rw [occupied, List.rdropWhile_concat]
    split
    · rename_i hzero
      have hzero : ai.size = 0 := by simpa using hzero
      rw [List.map_append, List.sum_append, List.map_singleton, List.sum_singleton, hzero]
      exact ih
    · rfl

/-- The frame is inside when the part of it that has bytes is. -/
theorem insideStack_iff : InsideStack allocas ↔ frameDepth (occupied allocas) ≤ stackBytes := by
  constructor
  · intro hin
    obtain ⟨post, hpost⟩ := List.rdropWhile_prefix (fun a : Alloca => a.size = 0) (l := allocas)
    by_cases hnil : occupied allocas = []
    · rw [hnil]
      exact Nat.zero_le _
    obtain ⟨pre, ai, hpre⟩ := (List.eq_nil_or_concat (occupied allocas)).resolve_left hnil
    have hsize : ai.size ≠ 0 := by
      have hlast := List.rdropWhile_last_not (fun a : Alloca => decide (a.size = 0)) allocas hnil
      simp only [occupied] at hpre
      simpa [hpre] using hlast
    have hsplit : allocas = pre ++ ai :: post := by
      rw [← hpost]
      show occupied allocas ++ post = _
      rw [hpre, List.concat_eq_append, List.append_assoc]
      rfl
    obtain ⟨hlow, _⟩ := hin pre ai post hsplit _ (le_refl _) (by omega)
    rw [hpre, List.concat_eq_append]
    rw [frameOffset_eq] at hlow
    simp only [StackFrameTopOffset] at hlow
    simp only [stackBytes]
    omega
  · intro hdepth pre ai post hsplit b hlow hhigh
    have hne : ai.size ≠ 0 := by omega
    -- the alloca is one of the occupied ones
    have hmono : frameDepth (pre ++ [ai]) ≤ frameDepth (occupied allocas) := by
      have hpref : ∃ rest, occupied allocas = pre ++ [ai] ++ rest := by
        rw [hsplit]
        clear hsplit hdepth
        induction post using List.reverseRecOn with
        | nil =>
          refine ⟨[], ?_⟩
          rw [occupied, List.rdropWhile_concat_neg _ _ _ (by simpa using hne), List.append_nil]
        | append_singleton post x ih =>
          have hcons : pre ++ ai :: (post ++ [x]) = pre ++ ai :: post ++ [x] := by simp
          rw [hcons, occupied, List.rdropWhile_concat]
          split
          · exact ih
          · exact ⟨post ++ [x], by simp⟩
      obtain ⟨rest, hrest⟩ := hpref
      rw [hrest]
      exact frameDepth_mono _ _
    have hle := le_frameDepth pre ai
    rw [frameOffset_eq] at hlow hhigh
    simp only [StackFrameTopOffset, stackBytes] at hdepth ⊢
    constructor
    · omega
    · omega

theorem totalAllocas_toNat (allocas : List Alloca) (h : (allocas.map (·.size)).sum < 2 ^ 64) :
    (totalAllocas allocas).toNat = (allocas.map (·.size)).sum := by
  induction allocas using List.reverseRecOn with
  | nil => rfl
  | append_singleton pre ai ih =>
    rw [List.map_append, List.sum_append, List.map_singleton, List.sum_singleton] at h ⊢
    have hsize : ai.size < 2 ^ 64 := by omega
    rw [totalAllocas, List.foldl_append]
    show (countAlloca (totalAllocas pre) ai).toNat = _
    simp only [countAlloca, Alloca.getAllocationSize, if_pos hsize]
    rw [BitVec.toNat_add, ih (by omega), BitVec.toNat_ofNat, Nat.mod_eq_of_lt hsize, Nat.mod_eq_of_lt h]

/-- **Stack size.** What the check accepts has less than `stackBytes` bytes in total and lies inside the
stack block if and only if its sizes and its padding, up to the last byte, take at most `stackBytes`. -/
theorem stack_size_check (allocas : List Alloca) (h : checkStackSize allocas = .ok ()) :
    ((allocas.map (·.size)).sum < stackBytes ∧ InsideStack allocas) ↔
      frameDepth (occupied allocas) ≤ stackBytes := by
  rw [insideStack_iff]
  refine ⟨fun hin => hin.2, fun hdepth => ⟨?_, hdepth⟩⟩
  have hsum := sum_le_frameDepth (occupied allocas)
  rw [sum_occupied] at hsum
  have hsmall : (allocas.map (·.size)).sum ≤ 1024 := Nat.le_trans hsum hdepth
  have htotal := totalAllocas_toNat allocas (by omega)
  unfold checkStackSize at h
  split at h
  · cases h
  · rename_i hlt
    rw [BitVec.toInt_eq_toNat_of_lt (by omega), htotal] at hlt
    omega

/-- Eight bytes and an array, which leave sixteen bytes of the block. -/
theorem stack_size_check_full :
    let allocas : List Alloca := [⟨8, 3⟩, ⟨1000, 3⟩]
    (allocas.map (·.size)).sum < stackBytes ∧ InsideStack allocas :=
  (stack_size_check [⟨8, 3⟩, ⟨1000, 3⟩] (by decide)).mpr (by decide)

/-- Bytes that are aligned to eight, one after another: 129 of them take 1032 bytes. -/
theorem stack_size_check_fails :
    let allocas := List.replicate 129 (⟨1, 3⟩ : Alloca)
    checkStackSize allocas = .ok () ∧ ¬InsideStack allocas := by
  refine ⟨by decide +kernel, fun hin => ?_⟩
  have hdepth : ¬frameDepth (occupied (List.replicate 129 (⟨1, 3⟩ : Alloca))) ≤ stackBytes := by
    decide +kernel
  exact hdepth (insideStack_iff.mp hin)

/-- The sum is negative: half of the address space passes. -/
example : checkStackSize [⟨2 ^ 63, 3⟩] = .ok () := by decide +kernel

end BpfTv
