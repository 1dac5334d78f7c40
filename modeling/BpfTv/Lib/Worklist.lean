import Mathlib.Algebra.GroupWithZero.Nat
import Mathlib.Data.Fintype.Card
import Mathlib.Data.Fintype.EquivFin
import Mathlib.Data.Set.Finite.Basic
import Mathlib.Logic.Relation
import Mathlib.Tactic.Common

/-!
# Worklists that may forget

A worklist computes what is reachable from its requests. A reference to a node that is already done
or queued is skipped when the worklist recognises it (`tracked`); otherwise the node is queued once
more. The nodes that are done in the end are the reachable ones (`Lookups.mem_done`), and the
worklist comes to an end exactly when no cycle of untracked references is reachable
(`lookups_iff`).

The invariant of the first result is `Closed`, the measure of termination is the number of nodes
that are not done together with a weight of the queue, and a run that does not end is followed by
`Stuck`: some queued node has a way to a cycle through nodes that are not done.
-/

namespace Worklist

variable {α β : Type} [DecidableEq α]

/-- The references of each node, the node behind a reference, and which ones are recognised. -/
structure Graph (α β : Type) where
  refs : α → List β
  target : β → α
  tracked : β → Bool

/-- The nodes that are done and those that are queued. -/
structure State (α : Type) where
  done : List α
  queue : List α

namespace Graph

variable (G : Graph α β)

/-- The queue after the references `bs` have been looked at. -/
def enqueue (done : List α) : List α → List β → List α
  | q, [] => q
  | q, b :: bs =>
    enqueue done (if G.tracked b && (G.target b ∈ done || G.target b ∈ q) then q
      else q ++ [G.target b]) bs

/-- The first queued node is done. -/
inductive Step : State α → State α → Prop
  | mk (done rest : List α) (n : α) :
    Step ⟨done, n :: rest⟩ ⟨n :: done, G.enqueue done rest (G.refs n)⟩

abbrev Run : State α → State α → Prop := Relation.ReflTransGen G.Step

def Edge (a c : α) : Prop := ∃ b ∈ G.refs a, G.target b = c

/-- A reference that is not recognised. -/
def Untracked (a c : α) : Prop := ∃ b ∈ G.refs a, G.tracked b = false ∧ G.target b = c

omit [DecidableEq α] in
theorem Untracked.edge {G : Graph α β} {a c : α} (h : G.Untracked a c) : G.Edge a c := by
  obtain ⟨b, hb, _, hc⟩ := h
  exact ⟨b, hb, hc⟩

end Graph

variable {G : Graph α β} {done q rest : List α} {bs : List β} {b : β} {n k x : α} {σ σ' : State α}

/-! ## The queue -/

theorem subset_enqueue (done q : List α) (bs : List β) : q ⊆ G.enqueue done q bs := by
  induction bs generalizing q with
  | nil => exact List.Subset.refl q
  | cons b bs ih =>
    rw [Graph.enqueue]
    refine List.Subset.trans ?_ (ih _)
    split
    · exact List.Subset.refl q
    · exact List.subset_append_left q _

theorem mem_enqueue (h : x ∈ G.enqueue done q bs) : x ∈ q ∨ ∃ b ∈ bs, G.target b = x := by
  induction bs generalizing q with
  | nil => exact Or.inl h
  | cons b bs ih =>
    rw [Graph.enqueue] at h
    rcases ih h with h | ⟨c, hc, hx⟩
    · split at h
      · exact Or.inl h
      · rcases List.mem_append.mp h with h | h
        · exact Or.inl h
        · exact Or.inr ⟨b, List.mem_cons_self .., (List.mem_singleton.mp h).symm⟩
    · exact Or.inr ⟨c, List.mem_cons_of_mem _ hc, hx⟩

theorem enqueue_target (hb : b ∈ bs) (h : G.tracked b = true → G.target b ∉ done) :
    G.target b ∈ G.enqueue done q bs := by
  induction bs generalizing q with
  | nil => cases hb
  | cons c bs ih =>
    rw [Graph.enqueue]
    rcases List.mem_cons.mp hb with rfl | hb
    · refine subset_enqueue _ _ _ ?_
      split
      · rename_i hif
        simp only [Bool.and_eq_true, Bool.or_eq_true, decide_eq_true_eq] at hif
        exact hif.2.resolve_left (h hif.1)
      · exact List.mem_append_right _ (List.mem_singleton_self _)
    · exact ih hb

theorem enqueue_known (h : ∀ b ∈ bs, G.tracked b = true → G.target b ∈ done ∨ G.target b ∈ q) :
    G.enqueue done q bs = q ++ (bs.filter fun b => !G.tracked b).map G.target := by
  induction bs generalizing q with
  | nil => simp [Graph.enqueue]
  | cons b bs ih =>
    have hb := h b (List.mem_cons_self ..)
    have hbs : ∀ c ∈ bs, G.tracked c = true → G.target c ∈ done ∨ G.target c ∈ q := fun c hc =>
      h c (List.mem_cons_of_mem _ hc)
    rw [Graph.enqueue]
    cases ht : G.tracked b with
    | true =>
      rw [if_pos (by simpa using hb ht), ih hbs]
      simp [ht]
    | false =>
      rw [if_neg (by simp), ih fun c hc htc => (hbs c hc htc).imp id (List.mem_append_left _)]
      simp [ht]

theorem step_unique {σ₁ σ₂ : State α} (h₁ : G.Step σ σ₁) (h₂ : G.Step σ σ₂) : σ₁ = σ₂ := by
  cases h₁
  cases h₂
  rfl

/-! ## What is done is closed -/

/-- The references of what is done are done or queued. -/
def Graph.Closed (G : Graph α β) (σ : State α) : Prop :=
  ∀ n ∈ σ.done, ∀ c, G.Edge n c → c ∈ σ.done ∨ c ∈ σ.queue

theorem closed_step (h : G.Step σ σ') (hc : G.Closed σ) : G.Closed σ' := by
  cases h with
  | mk done rest n =>
    rintro m hm c ⟨b, hb, rfl⟩
    rcases List.mem_cons.mp hm with rfl | hm
    · by_cases hd : G.target b ∈ done
      · exact Or.inl (List.mem_cons_of_mem _ hd)
      · exact Or.inr (enqueue_target hb fun _ => hd)
    · rcases hc m hm _ ⟨b, hb, rfl⟩ with hd | hq
      · exact Or.inl (List.mem_cons_of_mem _ hd)
      · rcases List.mem_cons.mp hq with heq | hq
        · exact Or.inl (heq ▸ List.mem_cons_self ..)
        · exact Or.inr (subset_enqueue _ _ _ hq)

theorem closed_run (h : G.Run σ σ') (hc : G.Closed σ) : G.Closed σ' := by
  induction h with
  | refl => exact hc
  | tail _ hstep ih => exact closed_step hstep ih

/-- Nothing that is done or queued gets lost. -/
theorem known_run (h : G.Run σ σ') (hx : x ∈ σ.done ∨ x ∈ σ.queue) : x ∈ σ'.done ∨ x ∈ σ'.queue := by
  induction h with
  | refl => exact hx
  | tail _ hstep ih =>
    cases hstep with
    | mk done rest n =>
      rcases ih with hd | hq
      · exact Or.inl (List.mem_cons_of_mem _ hd)
      · rcases List.mem_cons.mp hq with rfl | hq
        · exact Or.inl (List.mem_cons_self ..)
        · exact Or.inr (subset_enqueue _ _ _ hq)

/-- A set of nodes that references do not leave is not left by a run. -/
theorem within_run {S : α → Prop} (hS : ∀ a c, S a → G.Edge a c → S c) (h : G.Run σ σ')
    (hd : ∀ x ∈ σ.done, S x) (hq : ∀ x ∈ σ.queue, S x) :
    (∀ x ∈ σ'.done, S x) ∧ ∀ x ∈ σ'.queue, S x := by
  induction h with
  | refl => exact ⟨hd, hq⟩
  | tail _ hstep ih =>
    cases hstep with
    | mk done rest n =>
      obtain ⟨hd, hq⟩ := ih
      have hn := hq n (List.mem_cons_self ..)
      refine ⟨List.forall_mem_cons.mpr ⟨hn, hd⟩, fun x hx => ?_⟩
      rcases mem_enqueue hx with hx | hx
      · exact hq x (List.mem_cons_of_mem _ hx)
      · exact hS n x hn hx

theorem run_done {done' : List α} (h : G.Run ⟨done, [n]⟩ ⟨done', []⟩) (hc : G.Closed ⟨done, []⟩) :
    x ∈ done' ↔ x ∈ done ∨ Relation.ReflTransGen G.Edge n x := by
  have hclosed : ∀ m ∈ done', ∀ c, G.Edge m c → c ∈ done' := by
    intro m hm c he
    have hstart : G.Closed ⟨done, [n]⟩ := fun a ha e hae => (hc a ha e hae).imp id (absurd · List.not_mem_nil)
    exact (closed_run h hstart m hm c he).resolve_right List.not_mem_nil
  have hknown : ∀ y, y ∈ done ∨ y ∈ [n] → y ∈ done' := fun y hy =>
    (known_run h hy).resolve_right List.not_mem_nil
  constructor
  · intro hx
    have hS : ∀ a c, (a ∈ done ∨ Relation.ReflTransGen G.Edge n a) → G.Edge a c →
        (c ∈ done ∨ Relation.ReflTransGen G.Edge n c) := by
      rintro a c (ha | ha) hac
      · exact (hc a ha c hac).imp id (absurd · List.not_mem_nil)
      · exact Or.inr (ha.tail hac)
    refine (within_run hS h (fun y hy => Or.inl hy) fun y hy => Or.inr ?_).1 x hx
    rw [List.mem_singleton.mp hy]
  · rintro (hx | hx)
    · exact hknown x (Or.inl hx)
    · induction hx with
      | refl => exact hknown n (Or.inr (List.mem_singleton_self n))
      | tail _ he ih => exact hclosed _ ih _ he

/-! ## Termination -/

/-- A node that queues itself again, through references that are not recognised. -/
def Graph.OnCycle (G : Graph α β) (n : α) : Prop := Relation.TransGen G.Untracked n n

/-- A node from which such a cycle is reachable. -/
def Graph.Bad (G : Graph α β) (n : α) : Prop := ∃ c, Relation.ReflTransGen G.Edge n c ∧ G.OnCycle c

omit [DecidableEq α] in
theorem bad_of_edge {a c : α} (h : G.Edge a c) (hc : G.Bad c) : G.Bad a := by
  obtain ⟨d, hreach, hcycle⟩ := hc
  exact ⟨d, hreach.head h, hcycle⟩

omit [DecidableEq α] in
theorem sum_untracked_le (f g : β → Nat) (bs : List β)
    (h : ∀ b ∈ bs, G.tracked b = false → f b ≤ g b) :
    ((bs.filter fun b => !G.tracked b).map f).sum ≤ (bs.map g).sum := by
  induction bs with
  | nil => exact Nat.le_refl 0
  | cons b bs ih =>
    have htail := ih fun c hc => h c (List.mem_cons_of_mem _ hc)
    cases ht : G.tracked b with
    | true =>
      rw [List.filter_cons_of_neg (by simp [ht]), List.map_cons, List.sum_cons]
      exact Nat.le_trans htail (Nat.le_add_left _ _)
    | false =>
      rw [List.filter_cons_of_pos (by simp [ht]), List.map_cons, List.map_cons, List.sum_cons,
        List.sum_cons]
      exact Nat.add_le_add (h b (List.mem_cons_self ..) ht) htail

omit [DecidableEq α] in
/-- Without cycles of untracked references there is a weight that a node outweighs its untracked
references with. -/
theorem exists_weight (S : Finset α) (hcycle : ∀ c ∈ S, ¬ G.OnCycle c) :
    ∃ w : α → Nat, ∀ a ∈ S, (∀ b ∈ G.refs a, G.target b ∈ S) →
      (((G.refs a).filter fun b => !G.tracked b).map (w ∘ G.target)).sum < w a := by
  classical
  let R : S → S → Prop := fun c a => Relation.TransGen G.Untracked a.1 c.1
  have hwf : WellFounded R := by
    have : IsTrans S R := ⟨fun _ _ _ hab hbc => hbc.trans hab⟩
    have : Std.Irrefl R := ⟨fun a h => hcycle a.1 a.2 h⟩
    exact Finite.wellFounded_of_trans_of_irrefl R
  let F : (a : S) → ((c : S) → R c a → Nat) → Nat := fun a ih =>
    1 + ((G.refs a.1).map fun b =>
      if h : ∃ hS : G.target b ∈ S, R ⟨G.target b, hS⟩ a then ih ⟨G.target b, h.1⟩ h.2 else 0).sum
  let w : α → Nat := fun x => if h : x ∈ S then hwf.fix F ⟨x, h⟩ else 0
  refine ⟨w, fun a ha hrefs => ?_⟩
  have hw : w a = F ⟨a, ha⟩ fun c _ => hwf.fix F c := by
    simp only [w, dif_pos ha]
    exact hwf.fix_eq F ⟨a, ha⟩
  rw [hw, Nat.lt_iff_add_one_le, Nat.add_comm]
  refine Nat.add_le_add_left (sum_untracked_le _ _ _ fun b hb ht => ?_) 1
  have hR : ∃ hS : G.target b ∈ S, R ⟨G.target b, hS⟩ ⟨a, ha⟩ :=
    ⟨hrefs b hb, Relation.TransGen.single ⟨b, hb, ht, rfl⟩⟩
  rw [dif_pos hR]
  simp only [Function.comp_apply, w, dif_pos hR.1]
  exact Nat.le_refl _

/-- The nodes of `S` that are not done. -/
def undone (S : Finset α) (done : List α) : Finset α := S.filter (· ∉ done)

theorem undone_cons_lt {S : Finset α} (hS : n ∈ S) (hn : n ∉ done) :
    (undone S (n :: done)).card < (undone S done).card := by
  refine Finset.card_lt_card (Finset.ssubset_iff_subset_ne.mpr ⟨fun x hx => ?_, fun heq => ?_⟩)
  · simp only [undone, Finset.mem_filter, List.mem_cons, not_or] at hx ⊢
    exact ⟨hx.1, hx.2.2⟩
  · have hmem : n ∈ undone S done := Finset.mem_filter.mpr ⟨hS, hn⟩
    rw [← heq] at hmem
    exact (Finset.mem_filter.mp hmem).2 (List.mem_cons_self ..)

theorem undone_cons_eq {S : Finset α} (hn : n ∈ done) : undone S (n :: done) = undone S done := by
  refine Finset.filter_congr fun x _ => ?_
  simp only [List.mem_cons, not_or, and_iff_right_iff_imp]
  rintro hx rfl
  exact hx hn

/-- A worklist over finitely many nodes, none of them on a cycle of untracked references, comes to an
end: either a new node is done, or the weight of the queue drops. -/
theorem exists_run (S : Finset α) (hS : ∀ a ∈ S, ∀ c, G.Edge a c → c ∈ S)
    (hcycle : ∀ c ∈ S, ¬ G.OnCycle c) (hc : G.Closed σ) (hq : ∀ x ∈ σ.queue, x ∈ S) :
    ∃ done', G.Run σ ⟨done', []⟩ := by
  obtain ⟨w, hw⟩ := exists_weight S hcycle
  have main : ∀ u v : Nat, ∀ σ : State α, (undone S σ.done).card = u → (σ.queue.map w).sum = v →
      G.Closed σ → (∀ x ∈ σ.queue, x ∈ S) → ∃ done', G.Run σ ⟨done', []⟩ := by
    intro u
    induction u using Nat.strong_induction_on with
    | _ u ihu =>
    intro v
    induction v using Nat.strong_induction_on with
    | _ v ihv =>
    rintro ⟨done, queue⟩ hu hv hc hq
    cases queue with
    | nil => exact ⟨done, Relation.ReflTransGen.refl⟩
    | cons n rest =>
      have hn := hq n (List.mem_cons_self ..)
      have hstep := Graph.Step.mk (G := G) done rest n
      have hc' := closed_step hstep hc
      have hq' : ∀ x ∈ G.enqueue done rest (G.refs n), x ∈ S := by
        intro x hx
        rcases mem_enqueue hx with hx | hx
        · exact hq x (List.mem_cons_of_mem _ hx)
        · exact hS n hn x hx
      have hrun : ∃ done', G.Run ⟨n :: done, G.enqueue done rest (G.refs n)⟩ ⟨done', []⟩ := by
        by_cases hd : n ∈ done
        · refine ihv _ ?_ _ ?_ rfl hc' hq'
          · have hknown : ∀ b ∈ G.refs n, G.tracked b = true →
                G.target b ∈ done ∨ G.target b ∈ rest := by
              intro b hb _
              rcases hc n hd _ ⟨b, hb, rfl⟩ with h | h
              · exact Or.inl h
              · rcases List.mem_cons.mp h with h | h
                · exact Or.inl (h ▸ hd)
                · exact Or.inr h
            rw [enqueue_known hknown, ← hv, List.map_append, List.sum_append, List.map_map,
              List.map_cons, List.sum_cons, Nat.add_comm]
            exact Nat.add_lt_add_right (hw n hn fun b hb => hS n hn _ ⟨b, hb, rfl⟩) _
          · rw [undone_cons_eq hd, hu]
        · exact ihu _ (hu ▸ undone_cons_lt hn hd) _ _ rfl rfl hc' hq'
      obtain ⟨done', hrun⟩ := hrun
      exact ⟨done', Relation.ReflTransGen.head hstep hrun⟩
  exact main _ _ σ rfl rfl hc hq

/-! ## Runs without end -/

/-- A node with a way to a cycle of untracked references; all but the first node of the way are not
done. -/
inductive Fresh (G : Graph α β) (done : List α) : α → Prop
  | cycle {n : α} (h : G.OnCycle n) : Fresh G done n
  | step {n e : α} (h : G.Edge n e) (he : e ∉ done) (hfresh : Fresh G done e) : Fresh G done n

omit [DecidableEq α] in
/-- When `k` is done as well, the way may pass through `k`, and then it starts at `k`. -/
theorem Fresh.cons (h : Fresh G done n) (k : α) : Fresh G (k :: done) n ∨ Fresh G (k :: done) k := by
  induction h with
  | cycle h => exact Or.inl (Fresh.cycle h)
  | @step n e hedge he _ ih =>
    rcases ih with ih | ih
    · by_cases hek : e = k
      · exact Or.inr (hek ▸ ih)
      · exact Or.inl (Fresh.step hedge (by simp [hek, he]) ih)
    · exact Or.inr ih

theorem Fresh.enqueue (h : Fresh G (k :: done) k) :
    ∃ e ∈ G.enqueue done rest (G.refs k), Fresh G (k :: done) e := by
  cases h with
  | cycle h =>
    obtain ⟨e, ⟨b, hb, ht, rfl⟩, hback⟩ := Relation.TransGen.head'_iff.mp h
    refine ⟨G.target b, enqueue_target hb (by simp [ht]), Fresh.cycle ?_⟩
    exact Relation.TransGen.tail' hback ⟨b, hb, ht, rfl⟩
  | @step _ e hedge he hfresh =>
    obtain ⟨b, hb, rfl⟩ := hedge
    exact ⟨G.target b, enqueue_target hb fun _ hd => he (List.mem_cons_of_mem _ hd), hfresh⟩

/-- The queue will not become empty. -/
def Stuck (G : Graph α β) (σ : State α) : Prop := ∃ d ∈ σ.queue, Fresh G σ.done d

theorem stuck_step (h : G.Step σ σ') (hs : Stuck G σ) : Stuck G σ' := by
  cases h with
  | mk done rest n =>
    obtain ⟨d, hd, hfresh⟩ := hs
    rcases hfresh.cons n with hfresh | hfresh
    · rcases List.mem_cons.mp hd with rfl | hd
      · exact hfresh.enqueue
      · exact ⟨d, subset_enqueue _ _ _ hd, hfresh⟩
    · exact hfresh.enqueue

theorem stuck_run (h : G.Run σ σ') (hs : Stuck G σ) : Stuck G σ' := by
  induction h with
  | refl => exact hs
  | tail _ hstep ih => exact stuck_step hstep ih

omit [DecidableEq α] in
theorem fresh_of_bad (hdone : ∀ x ∈ done, ¬ G.Bad x) (hn : G.Bad n) : Fresh G done n := by
  obtain ⟨c, hreach, hcycle⟩ := hn
  induction hreach using Relation.ReflTransGen.head_induction_on with
  | refl => exact Fresh.cycle hcycle
  | head hedge hrest ih => exact Fresh.step hedge (fun hd => hdone _ hd ⟨c, hrest, hcycle⟩) ih

/-- A request from which a cycle of untracked references is reachable is never served. -/
theorem not_bad_of_run {done' : List α} (hdone : ∀ x ∈ done, ¬ G.Bad x)
    (h : G.Run ⟨done, [n]⟩ ⟨done', []⟩) : ¬ G.Bad n := by
  intro hbad
  obtain ⟨d, hd, _⟩ := stuck_run h ⟨n, List.mem_singleton_self n, fresh_of_bad hdone hbad⟩
  cases hd

/-! ## Requests -/

/-- Serve the requests one after the other; one that is done already is skipped. -/
inductive Lookups (G : Graph α β) : List α → List α → List α → Prop
  | nil (done : List α) : Lookups G done [] done
  | skip {done done' ns : List α} {n : α} (hn : n ∈ done) (h : Lookups G done ns done') :
    Lookups G done (n :: ns) done'
  | run {done mid done' ns : List α} {n : α} (hn : n ∉ done) (hrun : G.Run ⟨done, [n]⟩ ⟨mid, []⟩)
    (h : Lookups G mid ns done') : Lookups G done (n :: ns) done'

theorem closed_idle {done' : List α} (h : G.Run ⟨done, [n]⟩ ⟨done', []⟩) (hc : G.Closed ⟨done, []⟩) :
    G.Closed ⟨done', []⟩ :=
  closed_run h fun a ha e hae => (hc a ha e hae).imp id (absurd · List.not_mem_nil)

theorem Lookups.mem_done {ns done' : List α} (h : Lookups G done ns done')
    (hc : G.Closed ⟨done, []⟩) :
    x ∈ done' ↔ x ∈ done ∨ ∃ n ∈ ns, Relation.ReflTransGen G.Edge n x := by
  induction h with
  | nil done => simp
  | @skip done done' ns n hn _ ih =>
    have hclosed : ∀ y, Relation.ReflTransGen G.Edge n y → y ∈ done := by
      intro y hy
      induction hy with
      | refl => exact hn
      | tail _ he ihy => exact (hc _ ihy _ he).resolve_right List.not_mem_nil
    rw [ih hc]
    simp only [List.exists_mem_cons_iff]
    constructor
    · exact Or.imp id Or.inr
    · rintro (hx | hx | hx)
      · exact Or.inl hx
      · exact Or.inl (hclosed x hx)
      · exact Or.inr hx
  | @run done mid done' ns n _ hrun _ ih =>
    rw [ih (closed_idle hrun hc), run_done hrun hc]
    simp only [List.exists_mem_cons_iff, or_assoc]

theorem Lookups.not_bad {ns done' : List α} (h : Lookups G done ns done')
    (hc : G.Closed ⟨done, []⟩) (hdone : ∀ x ∈ done, ¬ G.Bad x) : ∀ n ∈ ns, ¬ G.Bad n := by
  induction h with
  | nil done => simp
  | skip hn _ ih => exact List.forall_mem_cons.mpr ⟨hdone _ hn, ih hc hdone⟩
  | @run done mid done' ns n _ hrun _ ih =>
    have hn := not_bad_of_run hdone hrun
    refine List.forall_mem_cons.mpr ⟨hn, ih (closed_idle hrun hc) fun x hx => ?_⟩
    rcases (run_done hrun hc).mp hx with hx | hreach
    · exact hdone x hx
    · rintro ⟨c, hxc, hcycle⟩
      exact hn ⟨c, hreach.trans hxc, hcycle⟩

theorem exists_lookups (S : Finset α) (hS : ∀ a ∈ S, ∀ c, G.Edge a c → c ∈ S) {ns : List α}
    (hns : ∀ n ∈ ns, n ∈ S) (hbad : ∀ n ∈ ns, ¬ G.Bad n) (hc : G.Closed ⟨done, []⟩) :
    ∃ done', Lookups G done ns done' := by
  classical
  induction ns generalizing done with
  | nil => exact ⟨done, Lookups.nil done⟩
  | cons n ns ih =>
    obtain ⟨hnS, hns⟩ := List.forall_mem_cons.mp hns
    obtain ⟨hn, hbad⟩ := List.forall_mem_cons.mp hbad
    by_cases hd : n ∈ done
    · obtain ⟨done', h⟩ := ih hns hbad hc
      exact ⟨done', Lookups.skip hd h⟩
    · let T := S.filter fun x => ¬ G.Bad x
      obtain ⟨mid, hrun⟩ : ∃ mid, G.Run ⟨done, [n]⟩ ⟨mid, []⟩ := by
        refine exists_run T ?_ ?_ ?_ ?_
        · intro a ha c hac
          obtain ⟨haS, hna⟩ := Finset.mem_filter.mp ha
          exact Finset.mem_filter.mpr ⟨hS a haS c hac, fun hcb => hna (bad_of_edge hac hcb)⟩
        · intro c hcT hcycle
          exact (Finset.mem_filter.mp hcT).2 ⟨c, Relation.ReflTransGen.refl, hcycle⟩
        · exact fun a ha e hae => (hc a ha e hae).imp id (absurd · List.not_mem_nil)
        · intro x hx
          rw [List.mem_singleton.mp hx]
          exact Finset.mem_filter.mpr ⟨hnS, hn⟩
      obtain ⟨done', h⟩ := ih hns hbad (closed_idle hrun hc)
      exact ⟨done', Lookups.run hd hrun h⟩

/-- All requests are served exactly when no cycle of untracked references is reachable from one. -/
theorem lookups_iff (S : Finset α) (hS : ∀ a ∈ S, ∀ c, G.Edge a c → c ∈ S) {ns : List α}
    (hns : ∀ n ∈ ns, n ∈ S) : (∃ done', Lookups G [] ns done') ↔ ∀ n ∈ ns, ¬ G.Bad n := by
  have hc : G.Closed ⟨[], []⟩ := fun _ h => absurd h List.not_mem_nil
  constructor
  · rintro ⟨done', h⟩
    exact h.not_bad hc fun _ h => absurd h List.not_mem_nil
  · exact fun hbad => exists_lookups S hS hns hbad hc

end Worklist
