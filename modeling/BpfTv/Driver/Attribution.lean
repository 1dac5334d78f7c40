import BpfTv.Driver.ApplyPlans

/-!
# The object of an address

An address that is computed from the stack block belongs to the first slot on its way, if there is one.
When the rewrite succeeds, such an address is computed from the object of that slot, at the distance
that it had from the start of the slot, and any other address is computed from the block as before
(`attribution_exact`).
-/

namespace BpfTv

/-- The byte `c` of the stack block belongs to the slot. -/
def StackSlot.Holds (s : StackSlot) (c : BitVec 64) : Prop := s.start ≤ c.toInt ∧ c.toInt < s.start + s.size

instance (s : StackSlot) (c : BitVec 64) : Decidable (s.Holds c) := inferInstanceAs (Decidable (_ ∧ _))

namespace Ssa

/-- Slots in order, which share no byte and lie in the frame. -/
structure InFrame (slots : List StackSlot) : Prop where
  sorted : slots.Pairwise fun (s t : StackSlot) => s.offset + s.size ≤ t.offset
  inside : ∀ s ∈ slots, 0 ≤ s.start ∧ s.start + s.size ≤ StackFrameTopOffset

/-- `i` computes the address `k` bytes behind the address that `e` computes. -/
inductive Step (e : Nat) (i : Instr) : BitVec 64 → Prop
  | gep {i8 steps idxs k} (op : i.op = .gep i8 steps) (ops : i.ops = .inst e :: idxs)
      (acc : accumulateConstantOffset steps idxs = some k) : Step e i k
  | ptrtoint (op : i.op = .ptrtoint) (ops : i.ops = [.inst e]) : Step e i 0
  | add {k} (op : i.op = .binop .add) (parts : addParts i.ops = some (.inst e, k)) : Step e i k
  | inttoptr (op : i.op = .inttoptr) (ops : i.ops = [.inst e]) : Step e i 0

/-- The addresses that are computed from the address `root`, with their offsets. -/
inductive Derived (F : Fn) (root : Nat) : Nat → BitVec 64 → Prop
  | base : Derived F root root 0
  | step {e c i k} (h : Derived F root e c) (hi : i ∈ F.instrs) (step : Step e i k) :
      Derived F root i.id (c + k)

/-- The addresses that are computed from the stack block `root`, with their offsets and the slot that
they belong to: the first one that a `gep`, an addition or an `inttoptr` on the way comes to. -/
inductive Attributed (F : Fn) (slots : List StackSlot) (root : Nat) : Nat → BitVec 64 → Option StackSlot → Prop
  | base : Attributed F slots root root 0 none
  | cast {e c i} (h : Attributed F slots root e c none) (hi : i ∈ F.instrs) (op : i.op = .ptrtoint)
      (ops : i.ops = [.inst e]) : Attributed F slots root i.id c none
  | enter {e c i k s} (h : Attributed F slots root e c none) (hi : i ∈ F.instrs) (step : Step e i k)
      (op : i.op ≠ .ptrtoint) (hs : s ∈ slots) (holds : s.Holds (c + k)) :
      Attributed F slots root i.id (c + k) (some s)
  | pass {e c i k} (h : Attributed F slots root e c none) (hi : i ∈ F.instrs) (step : Step e i k)
      (op : i.op ≠ .ptrtoint) (hs : ∀ s ∈ slots, ¬s.Holds (c + k)) : Attributed F slots root i.id (c + k) none
  | follow {e c i k s} (h : Attributed F slots root e c (some s)) (hi : i ∈ F.instrs) (step : Step e i k) :
      Attributed F slots root i.id (c + k) (some s)

variable {F : Fn} {U : ∀ F : Fn, F.UseLists} {L : F.UseLists} {slots : List StackSlot} {Q : Plans} {T : Nat → Prop}
  {R : Rewrite} {E : Edits}
  {stack i j : Instr} {c c' k k' : BitVec 64} {o o' : Option StackSlot} {s : StackSlot} {d e root depth : Nat}

/-! ## All plans -/

theorem residual_cast {x : Instr} (h : Residual F slots root (.cast x) c) : x ∈ F.instrs ∧ x.op = .ptrtoint := by
  cases h with
  | ptrtoint _ user op => exact ⟨(Fn.mem_users_instr.mp user).1, op⟩

theorem GepPlan.Valid.mem {p : GepPlan} (h : p.Valid F slots root) :
    p.gep ∈ F.instrs ∧ ∃ i8 steps, p.gep.op = .gep i8 steps := by
  obtain ⟨v, c, total, i8, steps, _, huser, hop, _⟩ := h
  exact ⟨(Fn.mem_users_instr.mp huser).1, i8, steps, hop⟩

theorem IntPlan.Valid.mem {p : IntPlan} (h : p.Valid F slots root) : p.inst ∈ F.instrs :=
  (Fn.mem_users_instr.mp h.choose_spec.choose_spec.choose_spec.2.1).1

theorem IntPlan.Valid.op {p : IntPlan} (h : p.Valid F slots root) :
    p.inst.op = .binop .add ∨ p.inst.op = .inttoptr := by
  obtain ⟨x, c, total, _, _, _, _, h⟩ := h
  exact h.imp And.left And.left

theorem constantBase_add {idx var : Val} (h : constantBase F idx = some (var, k)) :
    ∃ a ∈ F.instrs, idx = .inst a.id ∧ a.op = .binop .add ∧ addParts a.ops = some (var, k) := by
  unfold constantBase at h
  split at h
  · rename_i id
    split at h
    · rename_i a ha
      split at h
      · rename_i hop
        have hid : a.id = id := by simpa using List.find?_some ha
        exact ⟨a, List.mem_of_find?_eq_some ha, by rw [hid], hop, h⟩
      · cases h
    · cases h
  · cases h

theorem var_ne_gep {p q : GepPlan} {var : Val} (hF : F.WellTyped) (hp : p.Valid F slots root)
    (hq : q.Valid F slots root) (hvar : p.varIdx = some var) : var ≠ .inst q.gep.id := by
  rintro rfl
  obtain ⟨hqmem, i8, steps, hqop⟩ := hq.mem
  obtain ⟨_, _, _, _, hqty, _⟩ := typed_gep (hF.typed _ hqmem) hqop
  have htyq : F.tyOf (.inst q.gep.id) = some .ptr := by rw [hF.tyOf_inst hqmem, hqty]
  obtain ⟨v, c, total, _, _, _, _, _, _, _, h⟩ := hp
  rcases h with ⟨hnone, _⟩ | ⟨_, idx, var, k, hvar', _, _, hbase, _⟩
  · rw [hnone] at hvar
    cases hvar
  · rw [hvar'] at hvar
    obtain rfl := Option.some.inj hvar
    obtain ⟨a, ha, _, hop, hparts⟩ := constantBase_add hbase
    obtain ⟨x, y, hops, hx, hy, hne⟩ := typed_binop (hF.typed a ha) hop
    have hmem : .inst q.gep.id ∈ a.ops := by
      obtain ⟨w, n, hparts | hparts, _⟩ := addParts_cases hparts <;> simp [hparts]
    rw [hops] at hmem
    rcases List.mem_pair.mp hmem with rfl | rfl
    · rw [hx] at htyq
      exact hne (Option.some.inj htyq)
    · rw [hy] at htyq
      exact hne (Option.some.inj htyq)

theorem not_castOf {p q : IntPlan} (hF : F.WellTyped) (hp : p.Valid F slots root) (hq : q.Valid F slots root) :
    ¬CastOf F q p.inst := by
  intro hcast
  obtain ⟨x, c, total, hres, huser, _⟩ := hp
  obtain ⟨hx, hxop⟩ := residual_cast hres
  have hmem := (Fn.mem_users_instr.mp huser).2
  rw [hcast.2.2.2, List.mem_singleton] at hmem
  have heq := hF.inj hx hq.mem (Val.inst.inj hmem)
  rcases hq.op with hop | hop
  · rw [← heq, hxop] at hop
    cases hop
  · exact hcast.1 hop

theorem touches_disjoint {p q : IntPlan} (hF : F.WellTyped) (hp : p.Valid F slots root)
    (hq : q.Valid F slots root) (hne : p.inst.id ≠ q.inst.id) (hd : p.Touches F d) : ¬q.Touches F d := by
  intro hd'
  rcases hd with rfl | ⟨j, hj, rfl⟩
  · rcases hd' with hid | ⟨j, hj, hid⟩
    · exact hne hid
    · exact not_castOf hF hp hq (hF.inj hj.2.1 hp.mem hid ▸ hj)
  · rcases hd' with hid | ⟨j', hj', hid⟩
    · exact not_castOf hF hq hp (hF.inj hj.2.1 hq.mem hid ▸ hj)
    · have hops := hj.2.2.2
      rw [← hF.inj hj'.2.1 hj.2.1 hid, hj'.2.2.2] at hops
      simp only [List.cons.injEq, Val.inst.injEq, and_true] at hops
      exact hne hops.symm

/-- The instructions that the plans replace. -/
def Plans.Touches (F : Fn) (Q : Plans) (d : Nat) : Prop :=
  d ∈ Q.gepPlans.map (·.gep.id) ∨ ∃ p ∈ Q.intPlans, p.Touches F d

/-- All plans are carried out. -/
theorem applyPlans_frame (hF : F.WellTyped) (hQ : Q.Valid F slots root) (hnodup : Q.ids.Nodup) :
    ∃ E, Frame F (Q.Touches F) (applyPlans U F Q) E ∧ (∀ p ∈ Q.gepPlans, GepDone F (applyPlans U F Q) E p) ∧
      ∀ p ∈ Q.intPlans, ∃ np obj, IntDone F (applyPlans U F Q) E p np obj := by
  obtain ⟨hgeps, hints, hdisj⟩ := List.nodup_append.mp hnodup
  obtain ⟨E₁, h₁, _, hdone⟩ := applyGeps_frame hF Q.gepPlans frame_start
    (fun p hp => ⟨(hQ.gep p hp).mem.1, id⟩) hgeps
    fun p hp var hvar => ⟨fun _ h => h.elim, fun q hq => var_ne_gep hF (hQ.gep p hp) (hQ.gep q hq) hvar⟩
  have hpred : (fun d => False ∨ d ∈ Q.gepPlans.map (·.gep.id)) = fun d => d ∈ Q.gepPlans.map (·.gep.id) := by
    funext d
    rw [false_or]
  rw [hpred] at h₁
  obtain ⟨E, h, hext, hdones⟩ := applyInts_frame hF Q.intPlans h₁
    (fun p hp => ⟨(hQ.int p hp).mem, fun d hd hin => by
      rcases hd with rfl | ⟨j, hj, rfl⟩
      · exact hdisj _ hin _ (List.mem_map_of_mem hp) rfl
      · obtain ⟨q, hq, hid⟩ := List.mem_map.mp hin
        obtain ⟨hmem, i8, steps, hop⟩ := (hQ.gep q hq).mem
        rw [hF.inj hmem hj.2.1 hid, hj.2.2.1] at hop
        cases hop⟩)
    ((List.pairwise_map.mp hints).imp_of_mem fun hp hq hne d hd =>
      touches_disjoint hF (hQ.int _ hp) (hQ.int _ hq) hne hd)
  refine ⟨E, h, fun p hp => (hdone p hp).ext (hQ.gep p hp).mem.1 ?_ hext, hdones⟩
  exact List.mem_map_of_mem hp

/-! ## Slots -/

theorem mem_of_slotAt (h : slotAt slots c = some s) : s ∈ slots ∧ s.Holds c :=
  ⟨List.mem_of_find?_eq_some h, by simpa [slotAt, StackSlot.Holds] using List.find?_some h⟩

theorem slotAt_none : slotAt slots c = none ↔ ∀ s ∈ slots, ¬s.Holds c := by
  rw [slotAt, List.find?_eq_none]
  exact forall₂_congr fun s _ => by simp [StackSlot.Holds]

theorem slotAt_of_holds (hslots : InFrame slots) (hs : s ∈ slots) (h : s.Holds c) :
    slotAt slots c = some s := by
  cases ht : slotAt slots c with
  | none => exact absurd h (slotAt_none.mp ht s hs)
  | some t =>
    obtain ⟨htmem, hold⟩ := mem_of_slotAt ht
    have hapart : slots.Pairwise fun s t => ¬(s.Holds c ∧ t.Holds c) := hslots.sorted.imp fun {s t} hle => by
      simp only [StackSlot.Holds, StackSlot.start]
      omega
    have : Std.Symm fun s t : StackSlot => ¬(s.Holds c ∧ t.Holds c) := ⟨fun _ _ h h' => h h'.symm⟩
    by_contra hne
    exact hapart.forall htmem hs (fun heq => hne (heq ▸ rfl)) ⟨hold, h⟩

theorem rel_of_holds (hslots : InFrame slots) (hs : s ∈ slots) (h : s.Holds c) :
    0 ≤ (c - BitVec.ofInt 64 s.start).toInt ∧ (c - BitVec.ofInt 64 s.start).toInt < s.size ∧
      s.start + (c - BitVec.ofInt 64 s.start).toInt = c.toInt := by
  obtain ⟨hlow, hhigh⟩ := hslots.inside s hs
  obtain ⟨hstart, hend⟩ := h
  have hrel : (c - BitVec.ofInt 64 s.start).toInt = c.toInt - s.start := by
    simp only [StackFrameTopOffset] at hhigh
    rw [BitVec.toInt_sub, BitVec.toInt_ofInt, Int.bmod_eq_of_le (n := s.start) (by omega) (by omega),
      Int.bmod_eq_of_le (by omega) (by omega)]
  omega

/-! ## Derivations -/

theorem attributed_of_derived (h : Derived F root d c) : ∃ o, Attributed F slots root d c o := by
  induction h with
  | base => exact ⟨none, .base⟩
  | @step e c i k _ hi hstep ih =>
    obtain ⟨o, ih⟩ := ih
    cases o with
    | some s => exact ⟨some s, .follow ih hi hstep⟩
    | none =>
      by_cases hop : i.op = .ptrtoint
      · cases hstep with
        | ptrtoint _ ops => exact ⟨none, by simpa using Attributed.cast ih hi hop ops⟩
        | gep op => rw [op] at hop; cases hop
        | add op => rw [op] at hop; cases hop
        | inttoptr op => rw [op] at hop; cases hop
      · by_cases hs : ∃ s ∈ slots, s.Holds (c + k)
        · obtain ⟨s, hs, holds⟩ := hs
          exact ⟨some s, .enter ih hi hstep hop hs holds⟩
        · exact ⟨none, .pass ih hi hstep hop fun s hmem holds => hs ⟨s, hmem, holds⟩⟩

theorem Attributed.derived (h : Attributed F slots root d c o) : Derived F root d c := by
  induction h with
  | base => exact .base
  | cast _ hi op ops ih => simpa using ih.step hi (.ptrtoint op ops)
  | enter _ hi step _ _ _ ih => exact ih.step hi step
  | pass _ hi step _ _ ih => exact ih.step hi step
  | follow _ hi step ih => exact ih.step hi step

theorem Attributed.mem (h : Attributed F slots root d c o) (ho : o = some s) : s ∈ slots := by
  induction h with
  | base => cases ho
  | cast => cases ho
  | pass => cases ho
  | enter _ _ _ _ hs => exact Option.some.inj ho ▸ hs
  | follow _ _ _ ih => exact ih ho

theorem Step.up (hF : F.WellTyped) (hi : i ∈ F.instrs) (h : Step e i k) : up F i.id = some e := by
  rw [Ssa.up, hF.inst?_eq hi]
  cases h with
  | gep op ops => simp [op, ops]
  | ptrtoint op ops => simp [op, ops]
  | add op parts => simp [op, parts]
  | inttoptr op ops => simp [op, ops]

theorem Step.unique (h : Step e i k) (h' : Step e i k') : k = k' := by
  cases h <;> cases h' <;> simp_all

/-- The slot of byte `c`, when `i` computes it from an address of slot `o`. -/
def slotFrom (slots : List StackSlot) (i : Instr) (c : BitVec 64) (o : Option StackSlot) : Option StackSlot :=
  if o = none ∧ i.op ≠ .ptrtoint then slotAt slots c else o

/-- The last step of a derivation. -/
theorem Attributed.last (hslots : InFrame slots) (h : Attributed F slots root d c o) :
    d = root ∧ c = 0 ∧ o = none ∨ ∃ e c' o' i k, Attributed F slots root e c' o' ∧ i ∈ F.instrs ∧ i.id = d ∧
      Step e i k ∧ c = c' + k ∧ o = slotFrom slots i c o' := by
  cases h with
  | base => exact Or.inl ⟨rfl, rfl, rfl⟩
  | cast h hi op ops =>
    exact Or.inr ⟨_, _, _, _, _, h, hi, rfl, .ptrtoint op ops, by simp, by simp [slotFrom, op]⟩
  | enter h hi step op hs holds =>
    refine Or.inr ⟨_, _, _, _, _, h, hi, rfl, step, rfl, ?_⟩
    rw [slotFrom, if_pos ⟨rfl, op⟩, slotAt_of_holds hslots hs holds]
  | pass h hi step op hs =>
    refine Or.inr ⟨_, _, _, _, _, h, hi, rfl, step, rfl, ?_⟩
    rw [slotFrom, if_pos ⟨rfl, op⟩, slotAt_none.mpr hs]
  | follow h hi step => exact Or.inr ⟨_, _, _, _, _, h, hi, rfl, step, rfl, by simp [slotFrom]⟩

theorem Attributed.unique (hF : F.WellTyped) (hslots : InFrame slots) (hroot : up F root = none)
    (h : Attributed F slots root d c o) (h' : Attributed F slots root d c' o') : c = c' ∧ o = o' := by
  -- the two derivations have the same last step
  have hstep : ∀ {e c o i k c' o'}, (∀ {c' o'}, Attributed F slots root e c' o' → c = c' ∧ o = o') →
      i ∈ F.instrs → Step e i k → Attributed F slots root i.id c' o' →
      c + k = c' ∧ slotFrom slots i (c + k) o = o' := by
    intro e c o i k c' o' ih hi step h'
    have hup := step.up hF hi
    rcases h'.last hslots with ⟨hid, _⟩ | ⟨e', c₁, o₁, i', k', h₁, hi', hid, step', rfl, rfl⟩
    · rw [hid, hroot] at hup
      cases hup
    · obtain rfl := hF.inj hi' hi hid
      obtain rfl : e = e' := Option.some.inj (hup.symm.trans (step'.up hF hi))
      obtain ⟨rfl, rfl⟩ := ih h₁
      rw [step.unique step']
      exact ⟨rfl, rfl⟩
  induction h generalizing c' o' with
  | base =>
    rcases h'.last hslots with ⟨_, rfl, rfl⟩ | ⟨e, _, _, i, _, _, hi, hid, step, _⟩
    · exact ⟨rfl, rfl⟩
    · have hup := step.up hF hi
      rw [hid, hroot] at hup
      cases hup
  | cast _ hi op ops ih =>
    have h := hstep ih hi (.ptrtoint op ops) h'
    simpa [slotFrom, op] using h
  | enter _ hi step op hs holds ih =>
    have h := hstep ih hi step h'
    rwa [slotFrom, if_pos ⟨rfl, op⟩, slotAt_of_holds hslots hs holds] at h
  | pass _ hi step op hs ih =>
    have h := hstep ih hi step h'
    rwa [slotFrom, if_pos ⟨rfl, op⟩, slotAt_none.mpr hs] at h
  | follow _ hi step ih =>
    have h := hstep ih hi step h'
    simpa [slotFrom] using h

/-! ## Residual addresses -/

theorem ops_gep {i8 : Bool} {steps : List GepStep} (hF : F.WellTyped) (hi : i ∈ F.instrs)
    (h : up F i.id = some e) (op : i.op = .gep i8 steps) : ∃ idxs, i.ops = .inst e :: idxs := by
  obtain ⟨p, idxs, hops, _⟩ := typed_gep (hF.typed i hi) op
  rw [up, hF.inst?_eq hi] at h
  cases p <;> simp [op, hops] at h
  exact ⟨idxs, by rw [hops, h]⟩

theorem step_gep {i8 : Bool} {steps : List GepStep} (hF : F.WellTyped) (hi : i ∈ F.instrs)
    (h : up F i.id = some e) (op : i.op = .gep i8 steps)
    (acc : accumulateConstantOffset steps i.ops.tail = some k) : Step e i k := by
  obtain ⟨idxs, hops⟩ := ops_gep hF hi h op
  rw [hops, List.tail_cons] at acc
  exact .gep op hops acc

theorem ops_cast (hF : F.WellTyped) (hi : i ∈ F.instrs) (h : up F i.id = some e)
    (hop : i.op = .ptrtoint ∨ i.op = .inttoptr) : i.ops = [.inst e] := by
  obtain ⟨v, hops⟩ := cast_ops hF hi hop
  rw [up, hF.inst?_eq hi] at h
  rcases hop with hop | hop <;> cases v <;> simp [hop, hops] at h
  all_goals rw [hops, h]

theorem attributed_of_residual {stack : Instr} {a : Addr} (hF : F.WellTyped) (hstack : stackMem F = some stack)
    (h : Residual F slots stack.id a c) : ∀ d, a.val = .inst d → Attributed F slots stack.id d c none := by
  induction h with
  | base =>
    intro d hd
    cases hd
    exact .base
  | @gep p c i i8 steps off h user op acc slot ih =>
    intro d hd
    cases hd
    obtain ⟨hi, hmem⟩ := Fn.mem_users_instr.mp user
    have hp := residual_ptr hF hstack h
    obtain ⟨j, _, rfl, _⟩ := id hp
    have hup := (follows_gep hF hi hmem op hp).up
    exact .pass (ih _ rfl) hi (step_gep hF hi hup op acc) (by rw [op]; exact Op.noConfusion) (slotAt_none.mp slot)
  | ptrtoint h user op ih =>
    intro d hd
    cases hd
    obtain ⟨hi, hmem⟩ := Fn.mem_users_instr.mp user
    obtain ⟨j, _, rfl, _⟩ := residual_ptr hF hstack h
    have hup := (follows_cast hF hi hmem (Or.inl op)).up
    exact .cast (ih _ rfl) hi op (ops_cast hF hi hup (Or.inl op))
  | add h user op parts slot ih =>
    intro d hd
    cases hd
    obtain ⟨hi, hmem⟩ := Fn.mem_users_instr.mp user
    obtain ⟨rfl, _⟩ := addParts_inst parts hmem
    exact .pass (ih _ rfl) hi (.add op parts) (by rw [op]; exact Op.noConfusion) (slotAt_none.mp slot)
  | inttoptr h user op slot ih =>
    intro d hd
    cases hd
    obtain ⟨hi, hmem⟩ := Fn.mem_users_instr.mp user
    have hup := (follows_cast hF hi hmem (Or.inr op)).up
    have hstep : Step _ _ 0 := .inttoptr op (ops_cast hF hi hup (Or.inr op))
    simpa using Attributed.pass (ih _ rfl) hi hstep (by rw [op]; exact Op.noConfusion)
      (by simpa using slotAt_none.mp slot)
  | sumToPtr h user op ih =>
    intro d hd
    cases hd
    obtain ⟨hi, hmem⟩ := Fn.mem_users_instr.mp user
    have hup := (follows_cast hF hi hmem (Or.inr op)).up
    have hstep : Step _ _ 0 := .inttoptr op (ops_cast hF hi hup (Or.inr op))
    simpa using Attributed.pass (ih _ rfl) hi hstep (by rw [op]; exact Op.noConfusion)
      (by simpa using slotAt_none.mp h.isOpen.2)

theorem mem_users_of_step (hi : i ∈ F.instrs) (h : Step e i k) : .instr i ∈ F.users (.inst e) := by
  refine Fn.mem_users_instr.mpr ⟨hi, ?_⟩
  cases h with
  | gep _ ops => simp [ops]
  | ptrtoint _ ops => simp [ops]
  | inttoptr _ ops => simp [ops]
  | add _ parts => obtain ⟨w, n, hops | hops, _⟩ := addParts_cases parts <;> simp [hops]

theorem residual_cast_ty {x : Instr} (hF : F.WellTyped) (h : Residual F slots root (.cast x) c) :
    F.tyOf (.inst x.id) = some (.int 64) := by
  obtain ⟨hx, hop⟩ := residual_cast h
  obtain ⟨_, _, _, hty⟩ := typed_ptrtoint (hF.typed x hx) hop
  rw [hF.tyOf_inst hx, hty]

theorem residual_sum_ty {x : Instr} (hF : F.WellTyped) (h : Residual F slots root (.sum x) c) :
    F.tyOf (.inst x.id) ≠ some .ptr := by
  cases h with
  | add _ user op _ _ =>
    obtain ⟨hx, _⟩ := Fn.mem_users_instr.mp user
    obtain ⟨_, _, _, _, _, hne⟩ := typed_binop (hF.typed x hx) op
    rw [hF.tyOf_inst hx]
    exact fun heq => hne (Option.some.inj heq)

theorem residual_val {a : Addr} (hF : F.WellTyped) (h : Residual F slots root a c) (ha : a.val = .inst e)
    (hty : F.tyOf (.inst e) = some .ptr) : a = .ptr (.inst e) := by
  cases a with
  | ptr v => exact congrArg Addr.ptr ha
  | cast x =>
    cases ha
    rw [residual_cast_ty hF h] at hty
    cases hty
  | sum x =>
    cases ha
    exact absurd hty (residual_sum_ty hF h)

theorem residual_int {stack : Instr} {a : Addr} (hF : F.WellTyped) (hstack : stackMem F = some stack)
    (h : Residual F slots stack.id a c) (ha : a.val = .inst e) (hty : F.tyOf (.inst e) ≠ some .ptr) :
    ∃ x, x.id = e ∧ (a = .cast x ∨ a = .sum x) := by
  cases a with
  | ptr v =>
    obtain ⟨j, hj, rfl, hptr⟩ := residual_ptr hF hstack h
    cases ha
    exact absurd (by rw [hF.tyOf_inst hj, hptr]) hty
  | cast x =>
    cases ha
    exact ⟨x, rfl, Or.inl rfl⟩
  | sum x =>
    cases ha
    exact ⟨x, rfl, Or.inr rfl⟩

/-- An address in no slot is residual, when the block is accepted. -/
theorem residual_of_attributed {stack : Instr} (hF : F.WellTyped) (hstack : stackMem F = some stack)
    (hclass : Classified F L slots Q (.ptr (.inst stack.id)) 0) (h : Attributed F slots stack.id d c o)
    (ho : o = none) : ∃ a, a.val = .inst d ∧ Residual F slots stack.id a c := by
  induction h with
  | base => exact ⟨.ptr (.inst stack.id), rfl, .base⟩
  | @cast e c i _ hi op ops ih =>
    obtain ⟨a, ha, hres⟩ := ih rfl
    obtain ⟨v, hops, hty, _⟩ := typed_ptrtoint (hF.typed i hi) op
    obtain rfl : .inst e = v := by simpa [ops] using hops
    obtain rfl := residual_val hF hres ha hty
    exact ⟨.cast i, rfl, .ptrtoint hres (mem_users_of_step hi (.ptrtoint op ops)) op⟩
  | enter => cases ho
  | follow => cases ho
  | @pass e c i k _ hi step op hs ih =>
    obtain ⟨a, ha, hres⟩ := ih rfl
    have huser := mem_users_of_step hi step
    cases step with
    | @gep i8 steps idxs _ op ops acc =>
      obtain ⟨v, idxs', hops, hty, _⟩ := typed_gep (hF.typed i hi) op
      obtain ⟨rfl, rfl⟩ : .inst e = v ∧ idxs = idxs' := by simpa [ops] using hops
      obtain rfl := residual_val hF hres ha hty
      exact ⟨.ptr (.inst i.id), rfl, .gep hres huser op (by rw [ops]; exact acc) (slotAt_none.mpr hs)⟩
    | ptrtoint op' => exact absurd op' op
    | add op parts =>
      have hty : F.tyOf (.inst e) ≠ some .ptr := by
        obtain ⟨x, y, hops, hx, hy, hne⟩ := typed_binop (hF.typed i hi) op
        have hmem := (Fn.mem_users_instr.mp huser).2
        rw [hops] at hmem
        rcases List.mem_pair.mp hmem with rfl | rfl
        · rw [hx]
          exact fun heq => hne (Option.some.inj heq)
        · rw [hy]
          exact fun heq => hne (Option.some.inj heq)
      obtain ⟨x, rfl, rfl | rfl⟩ := residual_int hF hstack hres ha hty
      · exact ⟨.sum i, rfl, .add hres huser op parts (slotAt_none.mpr hs)⟩
      · -- an addition to a residual sum stops the rewrite
        obtain ⟨q, _, huse⟩ := use_of_classified (classified_of_residual hres hclass) hres.isOpen huser
        cases huse with
        | inttoptr op' => rw [op] at op'; cases op'
        | icmp op' => rw [op] at op'; cases op'
    | inttoptr op ops =>
      have hnone : slotAt slots c = none := slotAt_none.mpr (by simpa using hs)
      obtain ⟨v, hops, hty, _⟩ := typed_inttoptr (hF.typed i hi) op
      obtain rfl : .inst e = v := by simpa [ops] using hops
      rw [BitVec.ofNat_eq_ofNat, BitVec.add_zero]
      obtain ⟨x, rfl, rfl | rfl⟩ := residual_int hF hstack hres ha (by rw [hty]; simp)
      · exact ⟨.ptr (.inst i.id), rfl, .inttoptr hres huser op hnone⟩
      · exact ⟨.ptr (.inst i.id), rfl, .sumToPtr hres huser op⟩

/-! ## Plans and slots -/

/-- An address that comes to a slot is planned. -/
theorem plan_of_enter {stack : Instr} (hF : F.WellTyped) (hslots : InFrame slots)
    (hstack : stackMem F = some stack) (hclass : Classified F L slots Q (.ptr (.inst stack.id)) 0)
    (h : Attributed F slots stack.id e c none) (hi : i ∈ F.instrs) (step : Step e i k) (op : i.op ≠ .ptrtoint)
    (hs : s ∈ slots) (holds : s.Holds (c + k)) :
    planGep i s (c + k) none ≤ Q ∨ planInt i s (c + k) ≤ Q := by
  obtain ⟨a, ha, hres⟩ := residual_of_attributed hF hstack hclass h rfl
  have hslot := slotAt_of_holds hslots hs holds
  obtain ⟨q, hq, huse⟩ :=
    use_of_classified (classified_of_residual hres hclass) hres.isOpen (ha ▸ mem_users_of_step hi step)
  cases a with
  | ptr v =>
    cases step with
    | @gep i8 steps idxs _ op' ops acc =>
      have hacc : accumulateConstantOffset steps i.ops.tail = some k := by rw [ops]; exact acc
      cases huse with
      | planned op₁ acc₁ slot₁ =>
        cases op'.symm.trans op₁
        cases hacc.symm.trans acc₁
        cases hslot.symm.trans slot₁
        exact Or.inl hq
      | gep op₁ acc₁ slot₁ =>
        cases op'.symm.trans op₁
        cases hacc.symm.trans acc₁
        cases hslot.symm.trans slot₁
      | varGep op₁ acc₁ =>
        cases op'.symm.trans op₁
        cases hacc.symm.trans acc₁
      | ptrtoint op₁ | load op₁ | store op₁ | call op₁ | icmp op₁ => cases op'.symm.trans op₁
    | ptrtoint op' => exact absurd op' op
    | add op' | inttoptr op' =>
      cases huse with
      | planned op₁ | gep op₁ | varGep op₁ | ptrtoint op₁ | load op₁ | store op₁ | call op₁ | icmp op₁ =>
        cases op'.symm.trans op₁
  | cast x =>
    cases step with
    | gep op' =>
      cases huse with
      | planned op₁ | sum op₁ | plannedCast op₁ | inttoptr op₁ | icmp op₁ => cases op'.symm.trans op₁
    | ptrtoint op' => exact absurd op' op
    | add op' parts =>
      cases huse with
      | planned _ parts₁ slot₁ =>
        cases parts.symm.trans parts₁
        cases hslot.symm.trans slot₁
        exact Or.inr hq
      | sum _ parts₁ slot₁ =>
        cases parts.symm.trans parts₁
        cases hslot.symm.trans slot₁
      | plannedCast op₁ | inttoptr op₁ | icmp op₁ => cases op'.symm.trans op₁
    | inttoptr op' =>
      rw [BitVec.ofNat_eq_ofNat, BitVec.add_zero] at hslot ⊢
      cases huse with
      | plannedCast _ slot₁ =>
        cases hslot.symm.trans slot₁
        exact Or.inr hq
      | inttoptr _ slot₁ => cases hslot.symm.trans slot₁
      | planned op₁ | sum op₁ | icmp op₁ => cases op'.symm.trans op₁
  | sum x =>
    cases step with
    | gep op' | add op' =>
      cases huse with
      | inttoptr op₁ | icmp op₁ => cases op'.symm.trans op₁
    | ptrtoint op' => exact absurd op' op
    | inttoptr op' =>
      rw [BitVec.ofNat_eq_ofNat, BitVec.add_zero] at hslot
      cases hslot.symm.trans hres.isOpen.2

/-- A plan for a `gep` is for a user of an address in no slot. -/
theorem GepPlan.Valid.enters {stack : Instr} {p : GepPlan} (hF : F.WellTyped) (hstack : stackMem F = some stack)
    (hp : p.Valid F slots stack.id) :
    ∃ e c, Attributed F slots stack.id e c none ∧ up F p.gep.id = some e ∧
      (p.varIdx = none → ∃ k, Attributed F slots stack.id p.gep.id (c + k) (some p.slot)) ∧
      (p.varIdx ≠ none → ∀ e k, ¬Step e p.gep k) := by
  obtain ⟨v, c, total, i8, steps, hres, huser, hop, hslot, hrel, hidx⟩ := hp
  obtain ⟨hi, hmem⟩ := Fn.mem_users_instr.mp huser
  have hptr := residual_ptr hF hstack hres
  obtain ⟨j, hj, rfl, _⟩ := id hptr
  have hatt := attributed_of_residual hF hstack hres _ rfl
  have hup := (follows_gep hF hi hmem hop hptr).up
  refine ⟨j.id, c, hatt, hup, fun hnone => ?_, fun hsome e k hstep => ?_⟩
  · rcases hidx with ⟨_, off, hacc, rfl⟩ | ⟨_, _, _, _, hvar, _⟩
    · obtain ⟨hs, holds⟩ := mem_of_slotAt hslot
      exact ⟨off, .enter hatt hi (step_gep hF hi hup hop hacc) (by rw [hop]; exact Op.noConfusion) hs holds⟩
    · rw [hnone] at hvar
      cases hvar
  · rcases hidx with ⟨hnone, _⟩ | ⟨_, _, _, _, _, hacc, _⟩
    · exact hsome hnone
    · cases hstep with
      | gep op ops acc =>
        cases hop.symm.trans op
        rw [ops, List.tail_cons, acc] at hacc
        cases hacc
      | ptrtoint op | add op | inttoptr op => cases hop.symm.trans op

theorem IntPlan.Valid.enters {stack : Instr} {p : IntPlan} (hF : F.WellTyped) (hstack : stackMem F = some stack)
    (hp : p.Valid F slots stack.id) :
    ∃ e c, Attributed F slots stack.id e c none ∧ up F p.inst.id = some e ∧
      ∃ total, Attributed F slots stack.id p.inst.id total (some p.slot) ∧
        p.rel = total - BitVec.ofInt 64 p.slot.start := by
  obtain ⟨x, c, total, hres, huser, hslot, hrel, hop⟩ := hp
  obtain ⟨hi, hmem⟩ := Fn.mem_users_instr.mp huser
  have hatt := attributed_of_residual hF hstack hres _ rfl
  obtain ⟨hs, holds⟩ := mem_of_slotAt hslot
  rcases hop with ⟨hop, y, k, hparts, rfl⟩ | ⟨hop, rfl⟩
  · have hup := (follows_add hF hi hmem hop hparts).up
    obtain ⟨rfl, _⟩ := addParts_inst hparts hmem
    exact ⟨x.id, c, hatt, hup, _,
      .enter hatt hi (.add hop hparts) (by rw [hop]; exact Op.noConfusion) hs holds, hrel⟩
  · have hup := (follows_cast hF hi hmem (Or.inr hop)).up
    have hstep : Step x.id p.inst 0 := .inttoptr hop (ops_cast hF hi hup (Or.inr hop))
    refine ⟨x.id, total, hatt, hup, total, ?_, hrel⟩
    simpa using Attributed.enter hatt hi hstep (by rw [hop]; exact Op.noConfusion) hs (by simpa using holds)

/-! ## Derivations after the rewrite -/

theorem accumulateConstantOffset_map {f : Val → Val} (hint : ∀ w (c : BitVec w), f (.int w c) = .int w c)
    (steps : List GepStep) (idxs : List Val) (h : accumulateConstantOffset steps idxs = some k) :
    accumulateConstantOffset steps (idxs.map f) = some k := by
  induction steps generalizing idxs k with
  | nil => exact h
  | cons step steps ih =>
    cases idxs with
    | nil => exact h
    | cons idx idxs =>
      cases step with
      | field off =>
        simp only [accumulateConstantOffset, List.map_cons, Option.map_eq_some_iff] at h ⊢
        obtain ⟨k, hk, hsum⟩ := h
        exact ⟨k, ih idxs hk, hsum⟩
      | scale n =>
        cases idx with
        | int w c =>
          simp only [accumulateConstantOffset, List.map_cons, hint, Option.map_eq_some_iff] at h ⊢
          obtain ⟨k, hk, hsum⟩ := h
          exact ⟨k, ih idxs hk, hsum⟩
        | inst id => simp [accumulateConstantOffset] at h
        | arg n => simp [accumulateConstantOffset] at h
        | const n ty => simp [accumulateConstantOffset] at h

theorem Step.map {f : Val → Val} {n : Nat} (h : Step e i k) (he : f (.inst e) = .inst n)
    (hint : ∀ w (c : BitVec w), f (.int w c) = .int w c) : Step n (i.map f) k := by
  cases h with
  | gep op ops acc =>
    exact .gep op (by rw [Instr.map_ops, ops, List.map_cons, he]) (accumulateConstantOffset_map hint _ _ acc)
  | ptrtoint op ops => exact .ptrtoint op (by rw [Instr.map_ops, ops, List.map_singleton, he])
  | inttoptr op ops => exact .inttoptr op (by rw [Instr.map_ops, ops, List.map_singleton, he])
  | add op parts =>
    refine .add op ?_
    obtain ⟨w, c, hops | hops, rfl⟩ := addParts_cases parts
    · simp [hops, addParts, he, hint]
    · simp [hops, addParts, he, hint]

/-- What stands in the place of an instruction. -/
inductive Replaced (F : Fn) (R : Rewrite) (E : Edits) (i : Instr) : Prop
  | kept (new : E.new i = [i])
  | gone (new : E.new i = [])
  | gep {np obj rel s} (fresh : F.fresh ≤ np) (lookup : R.objs.lookup s = some obj)
      (new : E.new i = [gepI8 np obj (.int 64 rel)])
  | varGep {np obj rel s a var} (fresh : F.fresh ≤ np) (lookup : R.objs.lookup s = some obj)
      (new : E.new i = newGep np obj rel (some var)) (ha : a ∈ F.instrs) (idx : .inst a.id ∈ i.ops)
      (var : var ∈ a.ops)
  | sum {np obj rel s} (fresh : F.fresh ≤ np) (lookup : R.objs.lookup s = some obj)
      (new : E.new i = [gepI8 np obj (.int 64 rel), ptrToInt np])

/-- The plans `Q` of an accepted block have been carried out. -/
structure Applied (F : Fn) (slots : List StackSlot) (stack : Instr) (Q : Plans) (R : Rewrite) (E : Edits) :
    Prop where
  typed : F.WellTyped
  inFrame : InFrame slots
  block : stackMem F = some stack
  valid : Q.Valid F slots stack.id
  classified : slots ≠ [] → ∃ L : F.UseLists, Classified F L slots Q (.ptr (.inst stack.id)) 0
  frame : Frame F (Q.Touches F) R E
  geps : ∀ p ∈ Q.gepPlans, GepDone F R E p
  ints : ∀ p ∈ Q.intPlans, ∃ np obj, IntDone F R E p np obj

namespace Applied

theorem up_block (h : Applied F slots stack Q R E) : up F stack.id = none := up_root h.typed h.block

theorem unique (h : Applied F slots stack Q R E) (hd : Attributed F slots stack.id d c o)
    (hd' : Attributed F slots stack.id d c' o') : c = c' ∧ o = o' :=
  hd.unique h.typed h.inFrame h.up_block hd'

theorem new (h : Applied F slots stack Q R E) (hi : i ∈ F.instrs) (hj : j ∈ E.new i) :
    j.map E.subst ∈ R.F.instrs := by
  obtain ⟨b, hb, _⟩ := Fn.mem_instrs.mp hi
  rw [h.frame.eq]
  exact (mem_edit_instrs (List.ne_nil_of_mem hb)).mpr (Or.inr ⟨i, hi, j, hj, rfl⟩)

theorem keep (h : Applied F slots stack Q R E) (hi : i ∈ F.instrs) (hT : ¬Q.Touches F i.id) :
    i.map E.subst ∈ R.F.instrs :=
  h.new hi (h.frame.keep i hi hT ▸ List.mem_singleton_self _)

theorem subst_untouched (h : Applied F slots stack Q R E) (hT : ¬Q.Touches F d) :
    E.subst (.inst d) = .inst d :=
  h.frame.subst _ fun _ hid heq => hT (Val.inst.inj heq ▸ hid)

theorem castOf (h : Applied F slots stack Q R E) {p : IntPlan} (hp : p ∈ Q.intPlans) (hj : CastOf F p j) :
    ∃ total, Attributed F slots stack.id j.id total (some p.slot) := by
  obtain ⟨_, _, _, _, total, hatt, _⟩ := (h.valid.int p hp).enters h.typed h.block
  exact ⟨_, .follow hatt hj.2.1 (.inttoptr hj.2.2.1 hj.2.2.2)⟩

/-- No plan replaces an address that is in no slot. -/
theorem untouched (h : Applied F slots stack Q R E) (hd : Attributed F slots stack.id d c none) :
    ¬Q.Touches F d := by
  rintro (hgep | ⟨p, hp, rfl | ⟨j, hj, rfl⟩⟩)
  · obtain ⟨p, hp, rfl⟩ := List.mem_map.mp hgep
    obtain ⟨e, _, _, hup, hconst, hvar⟩ := (h.valid.gep p hp).enters h.typed h.block
    by_cases hnone : p.varIdx = none
    · obtain ⟨k, hatt⟩ := hconst hnone
      cases (h.unique hd hatt).2
    · rcases hd.last h.inFrame with ⟨hid, _⟩ | ⟨e', _, _, i, k, _, hi, hid, step, _⟩
      · rw [hid, h.up_block] at hup
        cases hup
      · obtain rfl := h.typed.inj hi (h.valid.gep p hp).mem.1 hid
        exact hvar hnone _ _ step
  · obtain ⟨_, _, _, _, total, hatt, _⟩ := (h.valid.int p hp).enters h.typed h.block
    cases (h.unique hd hatt).2
  · obtain ⟨total, hatt⟩ := h.castOf hp hj
    cases (h.unique hd hatt).2

theorem stays (h : Applied F slots stack Q R E) (hd : Attributed F slots stack.id d c o) (ho : o = none) :
    Derived R.F stack.id d c := by
  have hstep : ∀ {e i c k}, Derived R.F stack.id e c → Attributed F slots stack.id e c none →
      i ∈ F.instrs → Step e i k → Attributed F slots stack.id i.id (c + k) none →
      Derived R.F stack.id i.id (c + k) := by
    intro e i c k hder he hi step hatt
    exact Derived.step (i := i.map E.subst) hder (h.keep hi (h.untouched hatt))
      (step.map (h.subst_untouched (h.untouched he)) h.frame.subst_int)
  induction hd with
  | base => exact .base
  | cast he hi op ops ih =>
    have hatt := Attributed.cast he hi op ops
    simpa using hstep (ih rfl) he hi (.ptrtoint op ops) (by simpa using hatt)
  | pass he hi step op hs ih => exact hstep (ih rfl) he hi step (.pass he hi step op hs)
  | enter => cases ho
  | follow => cases ho

theorem obj_mem (h : Applied F slots stack Q R E) (hi : i ∈ F.instrs) {obj : Nat}
    (hs : R.objs.lookup s = some obj) : objAlloca obj s ∈ R.F.instrs ∧ F.fresh ≤ obj := by
  obtain ⟨b, hb, _⟩ := Fn.mem_instrs.mp hi
  have hmem := h.frame.objs s obj hs
  refine ⟨?_, (h.frame.entry _ hmem).2⟩
  rw [h.frame.eq]
  exact (mem_edit_instrs (List.ne_nil_of_mem hb)).mpr (Or.inl hmem)

theorem derived_gepI8 (h : Applied F slots stack Q R E) {obj np : Nat} {rel : BitVec 64} (hi : i ∈ F.instrs)
    (hs : R.objs.lookup s = some obj) (hnew : gepI8 np obj (.int 64 rel) ∈ E.new i) : Derived R.F obj np rel := by
  have hmem := h.new hi hnew
  have hstep : Step obj ((gepI8 np obj (.int 64 rel)).map E.subst) rel :=
    Step.map (.gep rfl rfl (by simp [accumulateConstantOffset])) (h.frame.subst_fresh (h.obj_mem hi hs).2)
      h.frame.subst_int
  have hder := Derived.step (i := (gepI8 np obj (.int 64 rel)).map E.subst) .base hmem hstep
  rw [BitVec.ofNat_eq_ofNat, BitVec.zero_add] at hder
  exact hder

/-- What an address of a slot has become. -/
def Moved (R : Rewrite) (E : Edits) (d : Nat) (c : BitVec 64) (s : StackSlot) : Prop :=
  ∃ obj n, R.objs.lookup s = some obj ∧ E.subst (.inst d) = .inst n ∧
    Derived R.F obj n (c - BitVec.ofInt 64 s.start)

theorem moved_gep (h : Applied F slots stack Q R E) {p : GepPlan} (hp : p ∈ Q.gepPlans) (hvar : p.varIdx = none)
    (hrel : p.rel = c - BitVec.ofInt 64 p.slot.start) : Moved R E p.gep.id c p.slot := by
  obtain ⟨np, obj, _, hs, hnew, hsubst⟩ := h.geps p hp
  have hmem : gepI8 np obj (.int 64 p.rel) ∈ E.new p.gep := by
    rw [hnew, hvar]
    exact List.mem_singleton_self _
  exact ⟨obj, np, hs, hsubst, hrel ▸ h.derived_gepI8 (h.valid.gep p hp).mem.1 hs hmem⟩

theorem moved_int (h : Applied F slots stack Q R E) {p : IntPlan} (hp : p ∈ Q.intPlans)
    (hrel : p.rel = c - BitVec.ofInt 64 p.slot.start) : Moved R E p.inst.id c p.slot := by
  obtain ⟨np, obj, hdone⟩ := h.ints p hp
  have hi := (h.valid.int p hp).mem
  by_cases hop : p.inst.op = .inttoptr
  · obtain ⟨hnew, hsubst⟩ := hdone.cast hop
    exact ⟨obj, np, hdone.lookup, hsubst,
      hrel ▸ h.derived_gepI8 hi hdone.lookup (hnew ▸ List.mem_singleton_self _)⟩
  · obtain ⟨hnew, hsubst⟩ := hdone.sum hop
    have hptr := h.derived_gepI8 hi hdone.lookup (hnew ▸ List.mem_cons_self ..)
    have hmem : (ptrToInt np).map E.subst ∈ R.F.instrs :=
      h.new hi (hnew ▸ List.mem_cons_of_mem _ (List.mem_singleton_self _))
    have hstep : Step np ((ptrToInt np).map E.subst) 0 :=
      Step.map (.ptrtoint rfl rfl) (h.frame.subst_fresh hdone.fresh) h.frame.subst_int
    refine ⟨obj, np + 1, hdone.lookup, hsubst, ?_⟩
    have hder := Derived.step (i := (ptrToInt np).map E.subst) hptr hmem hstep
    rw [BitVec.ofNat_eq_ofNat, BitVec.add_zero] at hder
    exact hrel ▸ hder

theorem moved_cast (h : Applied F slots stack Q R E) {p : IntPlan} (hp : p ∈ Q.intPlans) (hj : CastOf F p j)
    (hrel : p.rel = c - BitVec.ofInt 64 p.slot.start) : Moved R E j.id c p.slot := by
  obtain ⟨np, obj, hdone⟩ := h.ints p hp
  obtain ⟨hnew, _⟩ := hdone.sum hj.1
  exact ⟨obj, np, hdone.lookup, (hdone.casts j hj).subst,
    hrel ▸ h.derived_gepI8 (h.valid.int p hp).mem hdone.lookup (hnew ▸ List.mem_cons_self ..)⟩

/-- An address of a slot is computed from the object of the slot. -/
theorem moved (h : Applied F slots stack Q R E) (hd : Attributed F slots stack.id d c o) (ho : o = some s) :
    Moved R E d c s := by
  induction hd generalizing s with
  | base => cases ho
  | cast => cases ho
  | pass => cases ho
  | @enter e c i k t he hi step op hs holds =>
    obtain rfl := Option.some.inj ho
    obtain ⟨L, hclass⟩ := h.classified (List.ne_nil_of_mem hs)
    rcases plan_of_enter h.typed h.inFrame h.block hclass he hi step op hs holds with hle | hle
    · exact h.moved_gep (hle.1 (List.mem_singleton_self _)) rfl rfl
    · exact h.moved_int (hle.2 (List.mem_singleton_self _)) rfl
  | @follow e c i k t he hi step ih =>
    obtain rfl := Option.some.inj ho
    obtain ⟨obj, n, hs, hn, hder⟩ := ih rfl
    by_cases hT : Q.Touches F i.id
    · -- only a cast of a planned sum is replaced together with its operand
      have hup := step.up h.typed hi
      have hnot : ∀ e', up F i.id = some e' → ∀ c', ¬Attributed F slots stack.id e' c' none := by
        intro e' hup' c' hatt
        obtain rfl : e = e' := Option.some.inj (hup.symm.trans hup')
        cases (h.unique he hatt).2
      rcases hT with hgep | ⟨p, hp, hid | ⟨j, hj, hid⟩⟩
      · obtain ⟨p, hp, hid⟩ := List.mem_map.mp hgep
        obtain ⟨e', c', hatt, hup', _⟩ := (h.valid.gep p hp).enters h.typed h.block
        exact absurd hatt (hnot e' (hid ▸ hup') c')
      · obtain ⟨e', c', hatt, hup', _⟩ := (h.valid.int p hp).enters h.typed h.block
        exact absurd hatt (hnot e' (hid ▸ hup') c')
      · obtain rfl := h.typed.inj hj.2.1 hi hid
        obtain ⟨_, _, _, _, total, hatt, hrel⟩ := (h.valid.int p hp).enters h.typed h.block
        have hcast : Step p.inst.id j 0 := .inttoptr hj.2.2.1 hj.2.2.2
        obtain rfl : e = p.inst.id := Option.some.inj (hup.symm.trans (hcast.up h.typed hi))
        obtain rfl := step.unique hcast
        obtain ⟨rfl, hslot⟩ := h.unique he hatt
        obtain rfl := Option.some.inj hslot
        simpa using h.moved_cast hp hj hrel
    · refine ⟨obj, i.id, hs, h.subst_untouched hT, ?_⟩
      rw [show c + k - BitVec.ofInt 64 t.start = c - BitVec.ofInt 64 t.start + k by bv_omega]
      exact Derived.step (i := i.map E.subst) hder (h.keep hi hT) (step.map hn h.frame.subst_int)

/-- A `gep` with a variable index, of an address in no slot: it goes by the slot of its constant part. -/
theorem varGep (h : Applied F slots stack Q R E) {i8 : Bool} {steps : List GepStep} {idxs : List Val}
    (hne : slots ≠ []) (he : Attributed F slots stack.id e c none) (hi : i ∈ F.instrs) (op : i.op = .gep i8 steps)
    (ops : i.ops = .inst e :: idxs) (acc : accumulateConstantOffset steps idxs = none) :
    ∃ a ∈ F.instrs, ∃ var k s obj np, idxs = [.inst a.id] ∧ a.op = .binop .add ∧
      addParts a.ops = some (var, k) ∧ s ∈ slots ∧ s.Holds (c + k) ∧ R.objs.lookup s = some obj ∧
      E.subst (.inst i.id) = .inst np ∧
      { id := np + 1, ty := .int 64, op := .binop .add,
        ops := [E.subst var, .int 64 (c + k - BitVec.ofInt 64 s.start)] } ∈ R.F.instrs ∧
      gepI8 np obj (.inst (np + 1)) ∈ R.F.instrs := by
  obtain ⟨L, hclass⟩ := h.classified hne
  obtain ⟨a, ha, hres⟩ := residual_of_attributed h.typed h.block hclass he rfl
  obtain ⟨v, idxs', hops, hty, _⟩ := typed_gep (h.typed.typed i hi) op
  obtain ⟨rfl, rfl⟩ : .inst e = v ∧ idxs = idxs' := by simpa [ops] using hops
  obtain rfl := residual_val h.typed hres ha hty
  have huser : .instr i ∈ F.users (.inst e) := Fn.mem_users_instr.mpr ⟨hi, by rw [ops]; exact List.mem_cons_self ..⟩
  obtain ⟨q, hq, huse⟩ := use_of_classified (classified_of_residual hres hclass) hres.isOpen huser
  have hacc : accumulateConstantOffset steps i.ops.tail = none := by rw [ops]; exact acc
  cases huse with
  | planned op₁ acc₁ | gep op₁ acc₁ =>
    cases op.symm.trans op₁
    cases hacc.symm.trans acc₁
  | ptrtoint op₁ | load op₁ | store op₁ | call op₁ | icmp op₁ => cases op.symm.trans op₁
  | @varGep steps₁ idx var k s op₁ acc₁ tail base slot =>
    obtain ⟨a, hmem, rfl, hadd, hparts⟩ := constantBase_add base
    obtain ⟨hs, holds⟩ := mem_of_slotAt slot
    obtain ⟨np, obj, hfresh, hlookup, hnew, hsubst⟩ := h.geps _ (hq.1 (List.mem_singleton_self _))
    have hpair : E.new i =
        [{ id := np + 1, ty := .int 64, op := .binop .add
           ops := [var, .int 64 (c + k - BitVec.ofInt 64 s.start)] },
          gepI8 np obj (.inst (np + 1))] := hnew
    refine ⟨a, hmem, var, k, s, obj, np, ?_, hadd, hparts, hs, holds, hlookup, hsubst, ?_, ?_⟩
    · rw [ops] at tail
      exact tail
    · have hsum := h.new hi (hpair ▸ List.mem_cons_self ..)
      simpa [Instr.map, h.frame.subst_int] using hsum
    · have hgep := h.new hi (hpair ▸ List.mem_cons_of_mem _ (List.mem_singleton_self _))
      simpa [Instr.map, gepI8, h.frame.subst_fresh (h.obj_mem hi hlookup).2,
        h.frame.subst_fresh (Nat.le_succ_of_le hfresh)] using hgep

theorem replaced (h : Applied F slots stack Q R E) (hi : i ∈ F.instrs) : Replaced F R E i := by
  by_cases hT : Q.Touches F i.id
  · rcases hT with hgep | ⟨p, hp, hid | ⟨x, hx, hid⟩⟩
    · obtain ⟨p, hp, hid⟩ := List.mem_map.mp hgep
      obtain rfl := h.typed.inj (h.valid.gep p hp).mem.1 hi hid
      obtain ⟨np, obj, hfresh, hlookup, hnew, _⟩ := h.geps p hp
      obtain ⟨_, _, _, _, _, _, _, _, _, _, hidx⟩ := h.valid.gep p hp
      rcases hidx with ⟨hvar, _⟩ | ⟨_, idx, var, k, hvar, _, tail, base, _⟩
      · rw [hvar] at hnew
        exact .gep hfresh hlookup hnew
      · rw [hvar] at hnew
        obtain ⟨a, ha, rfl, _, hparts⟩ := constantBase_add base
        refine .varGep hfresh hlookup hnew ha (List.mem_of_mem_tail (tail ▸ List.mem_singleton_self _)) ?_
        obtain ⟨_, _, hops | hops, _⟩ := addParts_cases hparts
        · exact hops ▸ List.mem_cons_self ..
        · exact hops ▸ List.mem_cons_of_mem _ (List.mem_singleton_self _)
    · obtain rfl := h.typed.inj hi (h.valid.int p hp).mem hid
      obtain ⟨np, obj, hdone⟩ := h.ints p hp
      by_cases hop : p.inst.op = .inttoptr
      · exact .gep hdone.fresh hdone.lookup (hdone.cast hop).1
      · exact .sum hdone.fresh hdone.lookup (hdone.sum hop).1
    · obtain rfl := h.typed.inj hx.2.1 hi hid
      obtain ⟨np, obj, hdone⟩ := h.ints p hp
      exact .gone (hdone.casts x hx).new
  · exact .kept (h.frame.keep i hi hT)

theorem touched_op (h : Applied F slots stack Q R E) (hi : i ∈ F.instrs) (hT : Q.Touches F i.id) :
    (∃ i8 steps, i.op = .gep i8 steps) ∨ i.op = .binop .add ∨ i.op = .inttoptr := by
  rcases hT with hgep | ⟨p, hp, hid | ⟨j, hj, hid⟩⟩
  · obtain ⟨p, hp, hid⟩ := List.mem_map.mp hgep
    obtain ⟨hmem, hop⟩ := (h.valid.gep p hp).mem
    obtain rfl := h.typed.inj hmem hi hid
    exact Or.inl hop
  · obtain rfl := h.typed.inj hi (h.valid.int p hp).mem hid
    exact Or.inr (h.valid.int p hp).op
  · obtain rfl := h.typed.inj hj.2.1 hi hid
    exact Or.inr (Or.inr hj.2.2.1)

/-- Only the block itself and a `ptrtoint` of it can lie in a slot and belong to none. -/
theorem stays_open (h : Applied F slots stack Q R E) (hd : Attributed F slots stack.id d c o) (ho : o = none) :
    d = stack.id ∨ (∃ i ∈ F.instrs, i.id = d ∧ i.op = .ptrtoint ∧ i.ops = [.inst stack.id]) ∨
      ∀ s ∈ slots, ¬s.Holds c := by
  induction hd with
  | base => exact Or.inl rfl
  | @cast e c i _ hi op ops ih =>
    obtain ⟨v, hops, hty, _⟩ := typed_ptrtoint (h.typed.typed i hi) op
    obtain rfl : .inst e = v := by simpa [ops] using hops
    rcases ih rfl with rfl | ⟨j, hj, rfl, hop, _⟩ | hopen
    · exact Or.inr (Or.inl ⟨i, hi, rfl, op, ops⟩)
    · -- a `ptrtoint` is no pointer
      obtain ⟨_, _, _, hint⟩ := typed_ptrtoint (h.typed.typed j hj) hop
      rw [h.typed.tyOf_inst hj, hint] at hty
      cases hty
    · exact Or.inr (Or.inr hopen)
  | pass _ _ _ _ hs => exact Or.inr (Or.inr hs)
  | enter => cases ho
  | follow => cases ho

end Applied

/-- What the rewrite makes of the addresses that are computed from the block `stack`, when it uses `σ v`
in the place of `v`. -/
structure Exact (F : Fn) (slots : List StackSlot) (stack : Instr) (R : Rewrite) (σ : Val → Val) : Prop where
  total : ∀ d c, Derived F stack.id d c → ∃ o, Attributed F slots stack.id d c o
  stays : ∀ d c, Attributed F slots stack.id d c none → (∀ s ∈ slots, ¬s.Holds c) →
    σ (.inst d) = .inst d ∧ Derived R.F stack.id d c
  /-- The block itself, and a `ptrtoint` of it, can lie in a slot and belong to none. -/
  outside : ∀ d c, Attributed F slots stack.id d c none → d ≠ stack.id →
    (∀ i ∈ F.instrs, i.id = d → i.op = .ptrtoint → i.ops ≠ [.inst stack.id]) → ∀ s ∈ slots, ¬s.Holds c
  moved : ∀ d c s, Attributed F slots stack.id d c (some s) → ∃ obj n, R.objs.lookup s = some obj ∧
    objAlloca obj s ∈ R.F.instrs ∧ σ (.inst d) = .inst n ∧ Derived R.F obj n (c - BitVec.ofInt 64 s.start)
  rel : ∀ s ∈ slots, ∀ c : BitVec 64, s.Holds c → 0 ≤ (c - BitVec.ofInt 64 s.start).toInt ∧
    (c - BitVec.ofInt 64 s.start).toInt < s.size ∧ s.start + (c - BitVec.ofInt 64 s.start).toInt = c.toInt
  /-- A `gep` with a variable index; `x` is the value of the variable part. -/
  varGep : slots ≠ [] → ∀ i ∈ F.instrs, ∀ i8 steps e idxs c, i.op = .gep i8 steps → i.ops = .inst e :: idxs →
    accumulateConstantOffset steps idxs = none → Attributed F slots stack.id e c none →
    ∃ a ∈ F.instrs, ∃ var k s obj np rel, idxs = [.inst a.id] ∧ a.op = .binop .add ∧
      addParts a.ops = some (var, k) ∧ s ∈ slots ∧ s.Holds (c + k) ∧ R.objs.lookup s = some obj ∧
      objAlloca obj s ∈ R.F.instrs ∧ σ (.inst i.id) = .inst np ∧
      { id := np + 1, ty := .int 64, op := .binop .add, ops := [σ var, .int 64 rel] } ∈ R.F.instrs ∧
      gepI8 np obj (.inst (np + 1)) ∈ R.F.instrs ∧ rel = c + k - BitVec.ofInt 64 s.start ∧
      ∀ x : BitVec 64, x + rel = c + (x + k) - BitVec.ofInt 64 s.start
  /-- Different slots have different objects. -/
  objs : ∀ s t obj, R.objs.lookup s = some obj → R.objs.lookup t = some obj → s = t
  /-- Every other instruction, a call among them, is there as before and takes the new addresses. -/
  users : ∀ i ∈ F.instrs, (∀ i8 steps, i.op ≠ .gep i8 steps) → i.op ≠ .binop .add → i.op ≠ .inttoptr →
    σ (.inst i.id) = .inst i.id ∧ i.map σ ∈ R.F.instrs
  rest : R.F.blocks.map (fun b => (b.phis, b.term)) =
    F.blocks.map fun b => (b.phis.map (·.map σ), b.term.map σ)

theorem edit_rest (F : Fn) (E : Edits) : (F.edit E).blocks.map (fun b => (b.phis, b.term)) =
    F.blocks.map fun b => (b.phis.map (·.map E.subst), b.term.map E.subst) := by
  unfold Fn.edit
  cases F.blocks with
  | nil => rfl
  | cons b bs => simp [Block.edit]

theorem Applied.exact (h : Applied F slots stack Q R E) (hR : R.Distinct) : Exact F slots stack R E.subst where
  total d c hd := attributed_of_derived hd
  stays d c hd _ := ⟨h.subst_untouched (h.untouched hd), h.stays hd rfl⟩
  outside d c hd hne hcast := by
    rcases h.stays_open hd rfl with hid | ⟨i, hi, hid, hop, hops⟩ | hopen
    · exact absurd hid hne
    · exact absurd hops (hcast i hi hid hop)
    · exact hopen
  moved d c s hd := by
    obtain ⟨obj, n, hs, hn, hder⟩ := h.moved hd rfl
    refine ⟨obj, n, hs, ?_, hn, hder⟩
    cases hd with
    | enter _ hi => exact (h.obj_mem hi hs).1
    | follow _ hi => exact (h.obj_mem hi hs).1
  rel s hs c holds := rel_of_holds h.inFrame hs holds
  varGep hne i hi i8 steps e idxs c op ops acc he := by
    obtain ⟨a, ha, var, k, s, obj, np, hidx, hadd, hparts, hs, holds, hlookup, hsubst, hsum, hgep⟩ :=
      h.varGep hne he hi op ops acc
    exact ⟨a, ha, var, k, s, obj, np, _, hidx, hadd, hparts, hs, holds, hlookup, (h.obj_mem hi hlookup).1, hsubst,
      hsum, hgep, rfl, fun x => by bv_omega⟩
  objs s t obj hs ht := hR.slot_eq hs ht
  users i hi hgep hadd hcast := by
    have hT : ¬Q.Touches F i.id := fun hT => by
      rcases h.touched_op hi hT with ⟨i8, steps, hop⟩ | hop | hop
      · exact hgep i8 steps hop
      · exact hadd hop
      · exact hcast hop
    exact ⟨h.subst_untouched hT, h.keep hi hT⟩
  rest := by
    rw [h.frame.eq]
    exact edit_rest F E

theorem exists_applied (hF : F.WellTyped) (hslots : InFrame slots) (hstack : stackMem F = some stack)
    (h : rewriteStackObjects U depth F slots = .ok R) :
    ∃ Q E, (slots ≠ [] → classifyPtr F (U F) slots depth (.inst stack.id) 0 = .ok Q) ∧ R = applyPlans U F Q ∧
      Q.ids.Nodup ∧ Applied F slots stack Q R E := by
  obtain ⟨Q, hclass, hR, hvalid, hnodup⟩ : ∃ Q : Plans,
      (slots ≠ [] → classifyPtr F (U F) slots depth (.inst stack.id) 0 = .ok Q) ∧ R = applyPlans U F Q ∧
      Q.Valid F slots stack.id ∧ Q.ids.Nodup := by
    by_cases hne : slots = []
    · refine ⟨{}, fun h => absurd hne h, ?_, valid_empty, List.nodup_nil⟩
      simp only [rewriteStackObjects, if_pos hne] at h
      cases h
      rfl
    · obtain ⟨Q, hplans, hR⟩ := rewrite_ok hne hstack h
      exact ⟨Q, fun _ => hplans, hR, plans_valid hplans, plans_nodup hF hstack hplans⟩
  obtain ⟨E, hframe, hgeps, hints⟩ := applyPlans_frame hF hvalid hnodup
  exact ⟨Q, E, hclass, hR, hnodup,
    { typed := hF
      inFrame := hslots
      block := hstack
      valid := hvalid
      classified := fun hne => ⟨U F, depth, Q, hclass hne, Plans.le_refl Q⟩
      frame := hR ▸ hframe
      geps := hR ▸ hgeps
      ints := hR ▸ hints }⟩

/-- When the slots are taken out of the block, each address that is computed from the block goes by the
first slot on its way, exactly, and no address is planned twice. -/
theorem attribution_exact (hF : F.WellTyped) (hslots : InFrame slots) (hstack : stackMem F = some stack)
    (h : rewriteStackObjects U depth F slots = .ok R) :
    ∃ Q σ, (slots ≠ [] → classifyPtr F (U F) slots depth (.inst stack.id) 0 = .ok Q) ∧ R = applyPlans U F Q ∧
      Q.ids.Nodup ∧ Exact F slots stack R σ := by
  obtain ⟨Q, E, hclass, hR, hnodup, happlied⟩ := exists_applied hF hslots hstack h
  exact ⟨Q, E.subst, hclass, hR, hnodup, happlied.exact (hR ▸ applyPlans_distinct F Q)⟩

theorem lastSlot_inFrame : InFrame lastSlot where
  sorted := List.pairwise_singleton _ _
  inside := by decide

theorem attribution_exact_escaping : ∃ R Q σ, rewriteStackObjects Fn.useLists 8 escapingFn lastSlot = .ok R ∧
    Q.ids.Nodup ∧ R = applyPlans Fn.useLists escapingFn Q ∧ Exact escapingFn lastSlot spillBlock R σ := by
  obtain ⟨R, h⟩ : ∃ R, rewriteStackObjects Fn.useLists 8 escapingFn lastSlot = .ok R := ⟨_, rfl⟩
  obtain ⟨Q, σ, _, hR, hnodup, hexact⟩ := attribution_exact escapingFn_typed lastSlot_inFrame rfl h
  exact ⟨R, Q, σ, h, hnodup, hR, hexact⟩

/-- The end of one slot is the start of the next one. -/
def adjacentSlots : List StackSlot := [⟨-16, 8, 8, 1⟩, ⟨-8, 8, 8, 2⟩]

/-- An address in the first slot, moved on to the second one. -/
def leavingFn : Fn :=
  { args := []
    blocks := [{ body := [spillBlock,
                   { id := 1, ty := .ptr, op := .gep true [.scale 1], ops := [.inst 0, .int 64 1008] },
                   { id := 2, ty := .ptr, op := .gep true [.scale 1], ops := [.inst 1, .int 64 8] },
                   { id := 3, ty := .void, op := .call (.function "use"), ops := [.inst 2] }]
                 term := retVoid }] }

def lowestSlot : List StackSlot := [⟨-1024, 8, 8, 1⟩]

/-- The block itself goes to a call. -/
def blockCall : Instr := { id := 1, ty := .void, op := .call (.function "use"), ops := [.inst 0] }

def blockCast : Instr := { id := 2, ty := .int 64, op := .ptrtoint, ops := [.inst 0] }

def blockCallFn : Fn :=
  { args := []
    blocks := [{ body := [spillBlock, blockCall, blockCast,
                   { id := 3, ty := .int 1, op := .icmp .eq, ops := [.inst 2, .int 64 0] }]
                 term := retVoid }] }

/-- An address that leaves its slot stays with the object of that slot, and the slot that it comes to
has no object; and the block is called with and cast as it is, when a slot starts at its lowest byte. -/
theorem attribution_exact_fails :
    (leavingFn.WellTyped ∧ InFrame adjacentSlots ∧ stackMem leavingFn = some spillBlock ∧
      ∃ R, rewriteStackObjects Fn.useLists 4 leavingFn adjacentSlots = .ok R ∧
        ∃ d c s, Derived leavingFn 0 d c ∧ s ∈ adjacentSlots ∧ s.Holds c ∧ R.objs.lookup s = none) ∧
    blockCallFn.WellTyped ∧ InFrame lowestSlot ∧ stackMem blockCallFn = some spillBlock ∧
      ∃ R, rewriteStackObjects Fn.useLists 4 blockCallFn lowestSlot = .ok R ∧
        ∃ s ∈ lowestSlot, s.Holds 0 ∧ R.objs.lookup s = none ∧ blockCall ∈ R.F.instrs ∧
          blockCast ∈ R.F.instrs := by
  refine ⟨⟨⟨by decide, by decide⟩, ⟨by decide, by decide⟩, rfl, _, rfl, 2, 0 + 1008 + 8, ⟨-8, 8, 8, 2⟩, ?_,
    by decide, by decide, by decide⟩, ⟨by decide, by decide⟩, ⟨by decide, by decide⟩, rfl, _, rfl,
    ⟨-1024, 8, 8, 1⟩, by decide, by decide, by decide, by decide, by decide⟩
  refine Derived.step (i := ⟨2, "", .ptr, .gep true [.scale 1], [.inst 1, .int 64 8]⟩) (.step
    (i := ⟨1, "", .ptr, .gep true [.scale 1], [.inst 0, .int 64 1008]⟩) .base (by decide) ?_) (by decide) ?_
  · exact .gep rfl rfl (by decide)
  · exact .gep rfl rfl (by decide)

end Ssa

end BpfTv
