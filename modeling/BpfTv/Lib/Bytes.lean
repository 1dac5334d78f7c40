import Mathlib.Tactic.Common
import Mathlib.Tactic.Ring
import Mathlib.Data.List.Pairwise
import Mathlib.Algebra.Order.Ring.Nat

/-!
# Little-endian bytes

`leNat get n` is the number whose `n` bytes, lowest first, are `get 0, …, get (n - 1)`, and
`byteAt v i` the `i`-th byte of `v`. Byte ranges are pairs `(offset, length)`; pairwise disjoint
ranges can be given any values at the same time (`exists_content`).
-/

namespace Bytes

/-- The number with bytes `get 0, …, get (n - 1)`. -/
def leNat (get : Nat → BitVec 8) : Nat → Nat
  | 0 => 0
  | n + 1 => (get 0).toNat + 256 * leNat (fun i => get (i + 1)) n

/-- The `i`-th byte of `v`. -/
def byteAt (v i : Nat) : BitVec 8 := BitVec.ofNat 8 (v / 256 ^ i)

theorem leNat_congr {f g : Nat → BitVec 8} {n : Nat} (h : ∀ i < n, f i = g i) :
    leNat f n = leNat g n := by
  induction n generalizing f g with
  | zero => rfl
  | succ n ih =>
    rw [leNat, leNat, h 0 (Nat.succ_pos n), ih fun i hi => h (i + 1) (Nat.succ_lt_succ hi)]

theorem leNat_lt (get : Nat → BitVec 8) (n : Nat) : leNat get n < 256 ^ n := by
  induction n generalizing get with
  | zero => simp [leNat]
  | succ n ih =>
    have h0 : (get 0).toNat < 256 := (get 0).isLt
    have ht := ih fun i => get (i + 1)
    rw [leNat, pow_succ]
    omega

theorem leNat_byteAt (v n : Nat) : leNat (byteAt v) n = v % 256 ^ n := by
  induction n generalizing v with
  | zero => simp [leNat, Nat.mod_one]
  | succ n ih =>
    have htail : (fun i => byteAt v (i + 1)) = byteAt (v / 256) := by
      funext i
      simp only [byteAt, pow_succ', Nat.div_div_eq_div_mul]
    rw [leNat, htail, ih, pow_succ', Nat.mod_mul]
    simp [byteAt]

theorem byteAt_mod {v i n : Nat} (hi : i < n) : byteAt (v % 256 ^ n) i = byteAt v i := by
  have hpow : 256 ^ n = 256 ^ i * 256 ^ (n - i) := by
    rw [← pow_add, Nat.add_sub_cancel' (Nat.le_of_lt hi)]
  have hdvd : 256 ∣ 256 ^ (n - i) := dvd_pow_self 256 (Nat.sub_ne_zero_of_lt hi)
  apply BitVec.eq_of_toNat_eq
  simp only [byteAt, BitVec.toNat_ofNat]
  rw [hpow, Nat.mod_mul_right_div_self, show 2 ^ 8 = 256 from rfl, Nat.mod_mod_of_dvd _ hdvd]

theorem leNat_succ_top (get : Nat → BitVec 8) (n : Nat) :
    leNat get (n + 1) = leNat get n + 256 ^ n * (get n).toNat := by
  induction n generalizing get with
  | zero => simp [leNat]
  | succ n ih =>
    rw [leNat, ih, leNat, pow_succ']
    ring

/-- Two byte ranges `(offset, length)` share no byte. -/
def Disjoint (r r' : Nat × Nat) : Prop := r.1 + r.2 ≤ r'.1 ∨ r'.1 + r'.2 ≤ r.1

theorem Disjoint.symm {r r' : Nat × Nat} (h : Disjoint r r') : Disjoint r' r := Or.symm h

/-- The bytes of `content` in the range `r`. -/
def read (content : Nat → BitVec 8) (r : Nat × Nat) : Nat := leNat (fun i => content (r.1 + i)) r.2

/-- **Joint realisability**: pairwise disjoint ranges hold any values at the same time. -/
theorem exists_content (rs : List (Nat × Nat)) (hrs : rs.Pairwise Disjoint) (v : Nat → Nat)
    (hv : ∀ (k : Nat) (hk : k < rs.length), v k < 256 ^ rs[k].2) :
    ∃ content : Nat → BitVec 8, ∀ (k : Nat) (hk : k < rs.length), read content rs[k] = v k := by
  induction rs generalizing v with
  | nil => exact ⟨fun _ => 0, fun k hk => absurd hk (Nat.not_lt_zero k)⟩
  | cons r rs ih =>
    obtain ⟨hr, hrest⟩ := List.pairwise_cons.mp hrs
    obtain ⟨tail, htail⟩ := ih hrest (fun k => v (k + 1)) fun k hk =>
      hv (k + 1) (Nat.succ_lt_succ hk)
    refine ⟨fun b => if r.1 ≤ b ∧ b < r.1 + r.2 then byteAt (v 0) (b - r.1) else tail b, ?_⟩
    intro k hk
    cases k with
    | zero =>
      have hbytes : ∀ i < r.2, (if r.1 ≤ r.1 + i ∧ r.1 + i < r.1 + r.2 then
          byteAt (v 0) (r.1 + i - r.1) else tail (r.1 + i)) = byteAt (v 0) i := by
        intro i hi
        rw [if_pos ⟨by omega, by omega⟩, Nat.add_sub_cancel_left]
      simp only [List.getElem_cons_zero, read]
      rw [leNat_congr hbytes, leNat_byteAt]
      exact Nat.mod_eq_of_lt (hv 0 hk)
    | succ k =>
      have hk' : k < rs.length := Nat.lt_of_succ_lt_succ hk
      have hdisj := hr rs[k] (List.getElem_mem hk')
      simp only [List.getElem_cons_succ]
      rw [← htail k hk']
      refine leNat_congr fun i hi => if_neg fun ⟨h1, h2⟩ => ?_
      rcases hdisj with h | h <;> omega

end Bytes
