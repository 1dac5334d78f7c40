import Mathlib.Computability.StateTransition
import BpfTv.Lib.Flow

/-!
# Machines that run along control flow

A `Machine` is a flow whose positions act on data: an action gives new data, or the outcome with which
the machine halts, and the conditions of the flow are tests of the data. A transition system `Performs`
a machine along another flow when that flow simulates the one of the machine, and the moves of the
system from a position do what the machine does at the position it stands for. Such a system halts with
the outcomes of the machine and with no others (`Performs.eval_iff`), as long as the machine does not
run past its end.

Parameters: positions `κ`, events `ε`, data `δ`, outcomes `ρ`, states of the system `σ`.
-/

namespace Control

open StateTransition

variable {κ κ' ε δ δ' ρ σ : Type}

/-- Control flow, and what is done at each position. -/
structure Machine (κ ε δ ρ : Type) extends Flow κ ε where
  act : κ → δ → Except ρ δ
  test : κ → δ → Bool
  result : κ → δ → ρ

namespace Machine

/-- Where a run stands. -/
inductive State (κ δ ρ : Type)
  | running (k : κ) (d : δ)
  | halted (r : ρ)

/-- One move; there is none behind the end of the flow. -/
def step (M : Machine κ ε δ ρ) : State κ δ ρ → Option (State κ δ ρ)
  | .halted _ => none
  | .running k d =>
    match M.exit k, M.act k d with
    | .fell, _ => none
    | _, .error r => some (.halted r)
    | .goto k', .ok d' => some (.running k' d')
    | .cond t f, .ok d' => some (.running (if M.test k d' then t else f) d')
    | .stop, .ok d' => some (.halted (M.result k d'))

/-- The run from `a` does not get past the end. -/
def Safe (M : Machine κ ε δ ρ) (a : State κ δ ρ) : Prop :=
  ∀ k d, Reaches M.step a (.running k d) → M.exit k ≠ .fell

variable {M : Machine κ ε δ ρ} {a b : State κ δ ρ} {k : κ} {d d' : δ} {r : ρ}

theorem Safe.reaches (h : M.Safe a) (hr : Reaches M.step a b) : M.Safe b :=
  fun k d hb => h k d (hr.trans hb)

theorem step_fell (h : M.exit k = .fell) : M.step (.running k d) = none := by
  simp only [step, h]

theorem step_error (h : M.exit k ≠ .fell) (ha : M.act k d = .error r) :
    M.step (.running k d) = some (.halted r) := by
  cases hk : M.exit k with
  | fell => exact absurd hk h
  | _ => simp only [step, hk, ha]

theorem step_goto {k' : κ} (h : M.exit k = .goto k') (ha : M.act k d = .ok d') :
    M.step (.running k d) = some (.running k' d') := by
  simp only [step, h, ha]

theorem step_cond {t f : κ} (h : M.exit k = .cond t f) (ha : M.act k d = .ok d') :
    M.step (.running k d) = some (.running (if M.test k d' then t else f) d') := by
  simp only [step, h, ha]

theorem step_stop (h : M.exit k = .stop) (ha : M.act k d = .ok d') :
    M.step (.running k d) = some (.halted (M.result k d')) := by
  simp only [step, h, ha]

theorem fell_of_step (h : M.step (.running k d) = none) : M.exit k = .fell := by
  by_contra hne
  cases ha : M.act k d with
  | error r => rw [step_error hne ha] at h; cases h
  | ok d' =>
    cases hk : M.exit k with
    | goto k' => rw [step_goto hk ha] at h; cases h
    | cond t f => rw [step_cond hk ha] at h; cases h
    | stop => rw [step_stop hk ha] at h; cases h
    | fell => exact hne hk

theorem safe_of_halts (h : State.halted r ∈ eval M.step a) : M.Safe a := by
  intro k d hr hfell
  have hstuck : State.running k d ∈ eval M.step a := mem_eval.mpr ⟨hr, step_fell hfell⟩
  cases Part.mem_unique h hstuck

/-! ## Performing a machine -/

/-- The position of the flow `L` has the event of the one of the machine. -/
def Matched (M : Machine κ ε δ ρ) (L : Flow κ' ε) (k : κ) (l : κ') : Prop :=
  L.event l = M.event k ∧ M.exit k ≠ .fell

/-- The transition system `T` does along the flow `L` what the machine does: `place l e` is its state
at the position `l` with data `e`, `S` relates the data, and `I` is an invariant of the positions. -/
structure Performs (M : Machine κ ε δ ρ) (L : Flow κ' ε) (T : σ → Option σ) (place : κ' → δ' → σ)
    (out : ρ → σ) (S : δ → δ' → Prop) (I : κ' → Prop) : Prop where
  closed : ∀ l o l', I l → Flow.Leads (L.exit l) o l' → I l'
  silent : ∀ l l' d e, I l → L.event l = none → L.exit l = .goto l' → S d e →
    ∃ e', S d e' ∧ Reaches₁ T (place l e) (place l' e')
  error : ∀ k l d e r, I l → M.Matched L k l → S d e → M.act k d = .error r →
    Reaches₁ T (place l e) (out r)
  goto : ∀ k l l' d d' e, I l → M.Matched L k l → S d e → M.act k d = .ok d' → L.exit l = .goto l' →
    ∃ e', S d' e' ∧ Reaches₁ T (place l e) (place l' e')
  cond : ∀ k l t f d d' e, I l → M.Matched L k l → S d e → M.act k d = .ok d' → L.exit l = .cond t f →
    ∃ e', S d' e' ∧ Reaches₁ T (place l e) (place (if M.test k d' then t else f) e')
  stop : ∀ k l d d' e, I l → M.Matched L k l → S d e → M.act k d = .ok d' → L.exit l = .stop →
    Reaches₁ T (place l e) (out (M.result k d'))
  halted : ∀ r, T (out r) = none

namespace Performs

variable {L : Flow κ' ε} {T : σ → Option σ} {place : κ' → δ' → σ} {out : ρ → σ} {S : δ → δ' → Prop}
  {I : κ' → Prop} {R : κ → κ' → Prop} {l l' : κ'} {e : δ'}

theorem silent_moves (h : M.Performs L T place out S I) {n : Nat} (hsil : L.Silent n l l') (hI : I l)
    (hS : S d e) : I l' ∧ ∃ e', S d e' ∧ Reaches T (place l e) (place l' e') := by
  induction hsil generalizing e with
  | refl => exact ⟨hI, e, hS, .refl⟩
  | @step n l l₁ l₂ hev hex _ ih =>
    obtain ⟨e₁, hS₁, hr₁⟩ := h.silent l l₁ d e hI hev hex hS
    obtain ⟨hI₂, e₂, hS₂, hr₂⟩ := ih (h.closed l none l₁ hI (hex ▸ .goto)) hS₁
    exact ⟨hI₂, e₂, hS₂, hr₁.to_reflTransGen.trans hr₂⟩

/-- The states of the system that stand for one of the machine. -/
def Stands (M : Machine κ ε δ ρ) (R : κ → κ' → Prop) (place : κ' → δ' → σ) (out : ρ → σ)
    (S : δ → δ' → Prop) (I : κ' → Prop) : State κ δ ρ → σ → Prop
  | .running k d, y => M.Safe (.running k d) ∧ ∃ l e, I l ∧ R k l ∧ S d e ∧ y = place l e
  | .halted r, y => y = out r

theorem respects (h : M.Performs L T place out S I) (hsim : Flow.Sim M.toFlow L R) :
    Respects M.step T (Stands M R place out S I) := by
  rintro a y hay
  cases a with
  | halted r =>
    obtain rfl : y = out r := hay
    exact h.halted r
  | running k d =>
    obtain ⟨hsafe, l₀, e₀, hI₀, hR, hS₀, rfl⟩ := hay
    have hne : M.exit k ≠ .fell := hsafe k d .refl
    obtain ⟨n, l, hsil, hev, hrel⟩ := hsim k l₀ hR hne
    obtain ⟨hI, e, hS, hr⟩ := h.silent_moves hsil hI₀ hS₀
    have hm : M.Matched L k l := ⟨hev, hne⟩
    have hnext : ∀ {b : State κ δ ρ}, M.step (.running k d) = some b → M.Safe b := fun hb =>
      hsafe.reaches (.single hb)
    cases ha : M.act k d with
    | error r =>
      rw [step_error hne ha]
      exact ⟨out r, rfl, Relation.TransGen.trans_right hr (h.error k l d e r hI hm hS ha)⟩
    | ok d' =>
      generalize hk : M.exit k = x at hrel
      generalize hl : L.exit l = x' at hrel
      cases hrel with
      | @goto k₁ l₁ hR₁ =>
        have hstep := step_goto hk ha
        obtain ⟨e', hS', hr'⟩ := h.goto k l l₁ d d' e hI hm hS ha hl
        rw [hstep]
        refine ⟨place l₁ e', ⟨hnext hstep, l₁, e', h.closed l none l₁ hI (hl ▸ .goto), hR₁, hS', rfl⟩, ?_⟩
        exact Relation.TransGen.trans_right hr hr'
      | @cond t f t' f' ht hf =>
        have hstep := step_cond hk ha
        obtain ⟨e', hS', hr'⟩ := h.cond k l t' f' d d' e hI hm hS ha hl
        rw [hstep]
        refine ⟨_, ⟨hnext hstep, _, e', ?_, ?_, hS', rfl⟩, Relation.TransGen.trans_right hr hr'⟩
        · split
          · exact h.closed l (some true) t' hI (hl ▸ .taken)
          · exact h.closed l (some false) f' hI (hl ▸ .notTaken)
        · split
          · exact ht
          · exact hf
      | stop =>
        rw [step_stop hk ha]
        exact ⟨_, rfl, Relation.TransGen.trans_right hr (h.stop k l d d' e hI hm hS ha hl)⟩

/-- **Performing.** The system halts exactly with the outcomes of the machine. -/
theorem eval_iff (h : M.Performs L T place out S I) (hsim : Flow.Sim M.toFlow L R)
    (hsafe : M.Safe (.running k d)) (hI : I l) (hR : R k l) (hS : S d e) {y : σ} :
    y ∈ eval T (place l e) ↔ ∃ r, State.halted r ∈ eval M.step (.running k d) ∧ out r = y := by
  have hstart : Stands M R place out S I (.running k d) (place l e) := ⟨hsafe, l, e, hI, hR, hS, rfl⟩
  constructor
  · intro hy
    obtain ⟨b, hb, heval⟩ := tr_eval_rev (h.respects hsim) hstart hy
    cases b with
    | running k₁ d₁ =>
      obtain ⟨hr, hnone⟩ := mem_eval.mp heval
      exact absurd (fell_of_step hnone) (hsafe k₁ d₁ hr)
    | halted r => exact ⟨r, heval, hb.symm⟩
  · rintro ⟨r, hr, rfl⟩
    obtain ⟨y, hy, heval⟩ := tr_eval (h.respects hsim) hstart hr
    obtain rfl : y = out r := hy
    exact heval

end Performs

end Machine

end Control
