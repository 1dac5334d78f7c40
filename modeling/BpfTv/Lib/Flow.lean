import Mathlib.Data.Set.Basic
import Mathlib.Logic.Relation
import Mathlib.Tactic.Common

/-!
# Control flow with observable events

A `Flow` has an event and an exit at each position: it goes on, asks the outcome of a condition,
stops, or has run past the end. `run n ω k` is what happens in `n` moves from `k` when the
conditions come out as `ω`. A flow that simulates another up to silent moves has the same traces
(`Sim.traces_eq`), as long as the simulated one does not run past its end, and reaches nothing else
(`Sim.covers`).

Parameters: positions `κ`, events `ε`.
-/

namespace Control

variable {κ κ' ε : Type}

inductive Exit (κ : Type)
  | goto (k : κ)
  | cond (t f : κ)
  | stop
  | fell
  deriving DecidableEq, Repr

inductive Status
  | running
  | stopped
  | fell
  deriving DecidableEq, Repr

structure Flow (κ ε : Type) where
  event : κ → Option ε
  exit : κ → Exit κ

namespace Flow

/-- The events of `n` moves, and how the run stands after them. -/
def run (M : Flow κ ε) : Nat → (Nat → Bool) → κ → List ε × Status
  | 0, _, _ => ([], .running)
  | n + 1, ω, k =>
    match M.exit k with
    | .fell => ([], .fell)
    | .stop => ((M.event k).toList, .stopped)
    | .goto k' =>
      let r := M.run n ω k'
      ((M.event k).toList ++ r.1, r.2)
    | .cond t f =>
      let r := M.run n (fun i => ω (i + 1)) (if ω 0 then t else f)
      ((M.event k).toList ++ r.1, r.2)

/-- What can be seen of the run from `k`, move by move. -/
def traces (M : Flow κ ε) (ω : Nat → Bool) (k : κ) : Set (List ε × Status) :=
  Set.range fun n => M.run n ω k

/-- The run from `k` never gets past the end. -/
def Inside (M : Flow κ ε) (ω : Nat → Bool) (k : κ) : Prop := ∀ n, (M.run n ω k).2 ≠ .fell

variable {M : Flow κ ε} {L : Flow κ' ε} {ω : Nat → Bool} {k k₁ : κ}

theorem run_goto (h : M.exit k = .goto k₁) (n : Nat) :
    M.run (n + 1) ω k = ((M.event k).toList ++ (M.run n ω k₁).1, (M.run n ω k₁).2) := by
  simp only [run, h]

theorem run_cond {t f : κ} (h : M.exit k = .cond t f) (n : Nat) :
    M.run (n + 1) ω k = ((M.event k).toList ++
      (M.run n (fun i => ω (i + 1)) (if ω 0 then t else f)).1,
      (M.run n (fun i => ω (i + 1)) (if ω 0 then t else f)).2) := by
  simp only [run, h]

theorem run_stop (h : M.exit k = .stop) (n : Nat) :
    M.run (n + 1) ω k = ((M.event k).toList, .stopped) := by
  simp only [run, h]

theorem Inside.exit_ne (h : M.Inside ω k) : M.exit k ≠ .fell := by
  intro hk
  exact h 1 (by simp only [run, hk])

theorem Inside.goto (h : M.Inside ω k) (hk : M.exit k = .goto k₁) : M.Inside ω k₁ := by
  intro n
  have hn := h (n + 1)
  rwa [run_goto hk] at hn

theorem Inside.cond (h : M.Inside ω k) {t f : κ} (hk : M.exit k = .cond t f) :
    M.Inside (fun i => ω (i + 1)) (if ω 0 then t else f) := by
  intro n
  have hn := h (n + 1)
  rwa [run_cond hk] at hn

/-! ## Silent moves -/

/-- `n` moves without an event. -/
inductive Silent (L : Flow κ' ε) : Nat → κ' → κ' → Prop
  | refl {k : κ'} : Silent L 0 k k
  | step {n : Nat} {k k' k'' : κ'} : L.event k = none → L.exit k = .goto k' →
      Silent L n k' k'' → Silent L (n + 1) k k''

theorem Silent.run_add {n : Nat} {k k' : κ'} (h : L.Silent n k k') (m : Nat) :
    L.run (n + m) ω k = L.run m ω k' := by
  induction h with
  | refl => rw [Nat.zero_add]
  | @step n k k' k'' hev hex _ ih =>
    rw [show n + 1 + m = n + m + 1 by omega, run_goto hex, hev, ih]
    rfl

theorem Silent.run_le {n : Nat} {k k' : κ'} (h : L.Silent n k k') {m : Nat} (hm : m ≤ n) :
    L.run m ω k = ([], .running) := by
  induction h generalizing m with
  | refl =>
    obtain rfl : m = 0 := by omega
    rfl
  | @step n k k' k'' hev hex _ ih =>
    cases m with
    | zero => rfl
    | succ m =>
      rw [run_goto hex, hev, ih (by omega)]
      rfl

/-! ## Simulation -/

/-- Exits that lead to related positions. -/
inductive Exit.Rel (R : κ → κ' → Prop) : Exit κ → Exit κ' → Prop
  | goto {k : κ} {k' : κ'} : R k k' → Exit.Rel R (.goto k) (.goto k')
  | cond {t f : κ} {t' f' : κ'} : R t t' → R f f' → Exit.Rel R (.cond t f) (.cond t' f')
  | stop : Exit.Rel R .stop .stop

/-- `L` simulates `M`: at related positions, unless `M` has run past its end, `L` comes by silent
moves to a position with the same event and related exits. -/
def Sim (M : Flow κ ε) (L : Flow κ' ε) (R : κ → κ' → Prop) : Prop :=
  ∀ k k', R k k' → M.exit k ≠ .fell →
    ∃ n l, L.Silent n k' l ∧ L.event l = M.event k ∧ Exit.Rel R (M.exit k) (L.exit l)

variable {R : κ → κ' → Prop} {k' : κ'}

theorem Sim.move (h : Sim M L R) (hk : R k k') (hin : M.Inside ω k) :
    ∃ n, (∀ m ≤ n, L.run m ω k' = ([], .running)) ∧
      ((∀ m, L.run (n + m + 1) ω k' = M.run (m + 1) ω k) ∨
        ∃ ω₁ k₁ k₁', R k₁ k₁' ∧ M.Inside ω₁ k₁ ∧
          (∀ m, M.run (m + 1) ω k = ((M.event k).toList ++ (M.run m ω₁ k₁).1, (M.run m ω₁ k₁).2)) ∧
          ∀ m, L.run (n + m + 1) ω k' =
            ((M.event k).toList ++ (L.run m ω₁ k₁').1, (L.run m ω₁ k₁').2)) := by
  obtain ⟨n, l, hsil, hev, hrel⟩ := h k k' hk hin.exit_ne
  refine ⟨n, fun m hm => hsil.run_le hm, ?_⟩
  have hL : ∀ m, L.run (n + m + 1) ω k' = L.run (m + 1) ω l := fun m => by
    rw [Nat.add_assoc, hsil.run_add]
  generalize hM : M.exit k = e at hrel
  generalize hE : L.exit l = e' at hrel
  cases hrel with
  | stop =>
    refine Or.inl fun m => ?_
    rw [hL, run_stop hE, run_stop hM, hev]
  | @goto k₁ k₁' hr =>
    refine Or.inr ⟨ω, k₁, k₁', hr, hin.goto hM, fun m => run_goto hM m, fun m => ?_⟩
    rw [hL, run_goto hE, hev]
  | @cond t f t' f' ht hf =>
    refine Or.inr ⟨_, _, if ω 0 then t' else f', ?_, hin.cond hM, fun m => run_cond hM m, fun m => ?_⟩
    · split
      · exact ht
      · exact hf
    · rw [hL, run_cond hE, hev]

theorem Sim.forward (h : Sim M L R) (hk : R k k') (hin : M.Inside ω k) (n : Nat) :
    ∃ m, L.run m ω k' = M.run n ω k := by
  induction n generalizing ω k k' with
  | zero => exact ⟨0, rfl⟩
  | succ n ih =>
    obtain ⟨s, _, hstop | ⟨ω₁, k₁, k₁', hr, hin₁, hM, hL⟩⟩ := h.move hk hin
    · exact ⟨s + n + 1, hstop n⟩
    · obtain ⟨m, hm⟩ := ih hr hin₁
      exact ⟨s + m + 1, by rw [hL, hM, hm]⟩

theorem Sim.backward (h : Sim M L R) (hk : R k k') (hin : M.Inside ω k) (m : Nat) :
    ∃ n, M.run n ω k = L.run m ω k' := by
  induction m using Nat.strong_induction_on generalizing ω k k' with
  | _ m ih =>
    obtain ⟨s, hsil, hmove⟩ := h.move hk hin
    by_cases hm : m ≤ s
    · exact ⟨0, by rw [hsil m hm]; rfl⟩
    obtain ⟨m', rfl⟩ : ∃ m', m = s + m' + 1 := ⟨m - s - 1, by omega⟩
    rcases hmove with hstop | ⟨ω₁, k₁, k₁', hr, hin₁, hM, hL⟩
    · exact ⟨m' + 1, (hstop m').symm⟩
    · obtain ⟨n, hn⟩ := ih m' (by omega) hr hin₁
      exact ⟨n + 1, by rw [hM, hL, hn]⟩

/-- **Simulation**: the same events in the same order, and the same end. -/
theorem Sim.traces_eq (h : Sim M L R) (hk : R k k') (hin : M.Inside ω k) :
    L.traces ω k' = M.traces ω k := by
  ext r
  constructor
  · rintro ⟨m, rfl⟩
    exact h.backward hk hin m
  · rintro ⟨n, rfl⟩
    exact h.forward hk hin n

/-! ## Edges -/

/-- Where an exit may lead; the edges of a condition are told apart by its outcome. -/
inductive Leads : Exit κ → Option Bool → κ → Prop
  | goto {k : κ} : Leads (.goto k) none k
  | taken {t f : κ} : Leads (.cond t f) (some true) t
  | notTaken {t f : κ} : Leads (.cond t f) (some false) f

def Edge (M : Flow κ ε) (k k' : κ) : Prop := ∃ o, Leads (M.exit k) o k'

/-- Some outcomes lead from `k` to `k'`. -/
def Reaches (M : Flow κ ε) : κ → κ → Prop := Relation.ReflTransGen M.Edge

/-- From `k`, with the outcome `o`, the next event is `e`. -/
def Next (M : Flow κ ε) (k : κ) (o : Option Bool) (e : ε) : Prop :=
  ∃ k₁ n l, Leads (M.exit k) o k₁ ∧ M.Silent n k₁ l ∧ M.event l = some e

theorem Exit.Rel.to {e : Exit κ} {e' : Exit κ'} (h : Exit.Rel R e e') {o : Option Bool} {p : κ'}
    (hp : Leads e' o p) : ∃ k, Leads e o k ∧ R k p := by
  cases h with
  | goto hk =>
    cases hp
    exact ⟨_, .goto, hk⟩
  | cond ht hf =>
    cases hp with
    | taken => exact ⟨_, .taken, ht⟩
    | notTaken => exact ⟨_, .notTaken, hf⟩
  | stop => cases hp

theorem Exit.Rel.from {e : Exit κ} {e' : Exit κ'} (h : Exit.Rel R e e') {o : Option Bool} {k : κ}
    (hk : Leads e o k) : ∃ p, Leads e' o p ∧ R k p := by
  cases h with
  | goto hr =>
    cases hk
    exact ⟨_, .goto, hr⟩
  | cond ht hf =>
    cases hk with
    | taken => exact ⟨_, .taken, ht⟩
    | notTaken => exact ⟨_, .notTaken, hf⟩
  | stop => cases hk

theorem Silent.reaches {n : Nat} {k l : κ'} (h : L.Silent n k l) : L.Reaches k l := by
  induction h with
  | refl => exact .refl
  | step _ hex _ ih => exact .head ⟨none, hex ▸ .goto⟩ ih

theorem Silent.unique {n m : Nat} {k l l' : κ'} (h : L.Silent n k l) (h' : L.Silent m k l')
    (hl : L.event l ≠ none) (hl' : L.event l' ≠ none) : l = l' := by
  induction h generalizing m with
  | refl =>
    cases h' with
    | refl => rfl
    | step hev _ _ => exact absurd hev hl
  | step hev hex _ ih =>
    cases h' with
    | refl => exact absurd hev hl'
    | step _ hex' hrest =>
      rw [hex] at hex'
      cases hex'
      exact ih hrest hl

theorem edge_ne_fell {k k' : κ} (h : M.Edge k k') : M.exit k ≠ .fell := by
  obtain ⟨o, h⟩ := h
  intro hfell
  rw [hfell] at h
  cases h

theorem Sim.reaches (h : Sim M L R) (hk : R k k') (hr : M.Reaches k k₁) :
    ∃ p, L.Reaches k' p ∧ R k₁ p := by
  induction hr with
  | refl => exact ⟨k', .refl, hk⟩
  | @tail k₂ k₃ _ hedge ih =>
    obtain ⟨p, hp, hrel⟩ := ih
    obtain ⟨n, l, hsil, _, hexit⟩ := h k₂ p hrel (edge_ne_fell hedge)
    obtain ⟨o, ho⟩ := hedge
    obtain ⟨q, hq, hrel'⟩ := hexit.from ho
    exact ⟨q, (hp.trans hsil.reaches).tail ⟨o, hq⟩, hrel'⟩

/-- Where `M` never runs past its end, every position that `L` reaches is on the silent moves to the
position for one that `M` reaches. -/
theorem Sim.covers (h : Sim M L R) (hk : R k k') (hin : ∀ k₁, M.Reaches k k₁ → M.exit k₁ ≠ .fell)
    {p : κ'} (hp : L.Reaches k' p) : ∃ k₁ n l, M.Reaches k k₁ ∧ L.Silent n p l ∧
      L.event l = M.event k₁ ∧ Exit.Rel R (M.exit k₁) (L.exit l) := by
  induction hp with
  | refl =>
    obtain ⟨n, l, hsil, hev, hexit⟩ := h k k' hk (hin k .refl)
    exact ⟨k, n, l, .refl, hsil, hev, hexit⟩
  | @tail p q _ hedge ih =>
    obtain ⟨k₁, n, l, hr, hsil, hev, hexit⟩ := ih
    obtain ⟨o, ho⟩ := hedge
    cases hsil with
    | refl =>
      obtain ⟨k₂, hto, hrel⟩ := hexit.to ho
      have hr₂ : M.Reaches k k₂ := hr.tail ⟨o, hto⟩
      obtain ⟨n, l, hsil, hev, hexit⟩ := h k₂ q hrel (hin k₂ hr₂)
      exact ⟨k₂, n, l, hr₂, hsil, hev, hexit⟩
    | step _ hex hrest =>
      rw [hex] at ho
      cases ho
      exact ⟨k₁, _, l, hr, hrest, hev, hexit⟩

end Flow

end Control
