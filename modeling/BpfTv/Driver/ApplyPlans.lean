import BpfTv.Driver.Plans
import BpfTv.Llvm.Edit

/-!
# The function after the plans

`applyPlans` is a fold of edits. `Frame` holds after each of them: the function so far is an edited
form of the function at the start, in which the instructions that no plan has touched are as they were.
A plan that has been carried out stays so (`Ext`).
-/

namespace BpfTv.Ssa

variable {U : ∀ F : Fn, F.UseLists} {F : Fn} {T : Nat → Prop} {R R' : Rewrite} {E E' : Edits} {i j : Instr}
  {g np obj : Nat}

/-- The function so far, when the plans of the instructions in `T` have been carried out. -/
structure Frame (F : Fn) (T : Nat → Prop) (R : Rewrite) (E : Edits) : Prop where
  eq : R.F = F.edit E
  fresh : F.fresh ≤ R.next
  entry : ∀ a ∈ E.entry, a.ops = [] ∧ F.fresh ≤ a.id
  objs : ∀ s obj, R.objs.lookup s = some obj → objAlloca obj s ∈ E.entry
  new : ∀ i ∈ F.instrs, ∀ j ∈ E.new i, j = i ∨ F.fresh ≤ j.id ∧ j.op ≠ .inttoptr
  keep : ∀ i ∈ F.instrs, ¬T i.id → E.new i = [i]
  subst : ∀ v, (∀ id, T id → v ≠ .inst id) → E.subst v = v
  range : ∀ id, T id → ∃ n, E.subst (.inst id) = .inst n ∧ F.fresh ≤ n
  touched : ∀ id, T id → ∃ i ∈ F.instrs, i.id = id
  gone : ∀ i ∈ F.instrs, T i.id → ∀ j ∈ E.new i, F.fresh ≤ j.id

/-- What has been carried out for the instructions in `T` stays. -/
structure Ext (F : Fn) (T : Nat → Prop) (R : Rewrite) (E : Edits) (R' : Rewrite) (E' : Edits) : Prop where
  new : ∀ i ∈ F.instrs, T i.id → E'.new i = E.new i
  subst : ∀ id, T id → E'.subst (.inst id) = E.subst (.inst id)
  objs : ∀ s obj, R.objs.lookup s = some obj → R'.objs.lookup s = some obj

theorem Ext.trans {T' : Nat → Prop} {R'' : Rewrite} {E'' : Edits} (h : Ext F T R E R' E')
    (h' : Ext F T' R' E' R'' E'') (hT : ∀ id, T id → T' id) : Ext F T R E R'' E'' where
  new i hi hid := (h'.new i hi (hT _ hid)).trans (h.new i hi hid)
  subst id hid := (h'.subst id (hT _ hid)).trans (h.subst id hid)
  objs s obj hs := h'.objs s obj (h.objs s obj hs)

theorem Frame.subst_fresh (h : Frame F T R E) {n : Nat} (hn : F.fresh ≤ n) :
    E.subst (.inst n) = .inst n := by
  refine h.subst _ fun id hid heq => ?_
  obtain ⟨i, hi, rfl⟩ := h.touched id hid
  have hlt := lt_fresh (mem_ids hi)
  cases heq
  omega

theorem frame_start : Frame F (fun _ => False) { F, next := F.fresh } {} where
  eq := edit_none.symm
  fresh := Nat.le_refl _
  entry := by simp
  objs := by simp
  new i _ j hj := Or.inl (List.mem_singleton.mp hj)
  keep _ _ _ := rfl
  subst _ _ := rfl
  range _ h := h.elim
  touched _ h := h.elim
  gone _ _ h := h.elim

/-! ## Objects -/

theorem objFor_frame (h : Frame F T R E) (s : StackSlot) :
    ∃ E', Frame F T (objFor R s).1 E' ∧ E'.new = E.new ∧ E'.subst = E.subst ∧
      Ext F T R E (objFor R s).1 E' ∧ (objFor R s).1.objs.lookup s = some (objFor R s).2 ∧
      F.fresh ≤ (objFor R s).2 := by
  unfold objFor
  cases hs : R.objs.lookup s with
  | some obj =>
    have hobj := (h.entry _ (h.objs s obj hs)).2
    exact ⟨E, h, rfl, rfl, ⟨fun _ _ _ => rfl, fun _ _ => rfl, fun _ _ h => h⟩, hs, hobj⟩
  | none =>
    have hlookup : ∀ t obj, R.objs.lookup t = some obj →
        (R.objs ++ [(s, R.next)]).lookup t = some obj := by
      intro t obj ht
      rw [List.lookup_append, ht]
      rfl
    have hself : (R.objs ++ [(s, R.next)]).lookup s = some R.next := by
      rw [List.lookup_append, hs]
      simp
    refine ⟨{ E with entry := objAlloca R.next s :: E.entry }, ?_, rfl, rfl,
      ⟨fun _ _ _ => rfl, fun _ _ => rfl, hlookup⟩, hself, h.fresh⟩
    exact
      { eq := by
          show R.F.insertEntry _ = _
          rw [h.eq, insertEntry_edit]
        fresh := Nat.le_succ_of_le h.fresh
        entry := by
          rintro a (_ | ⟨_, ha⟩)
          · exact ⟨rfl, h.fresh⟩
          · exact h.entry a ha
        objs := by
          intro t obj ht
          simp only [List.lookup_append] at ht
          cases hold : R.objs.lookup t with
          | some o =>
            rw [hold] at ht
            cases ht
            exact List.mem_cons_of_mem _ (h.objs t _ hold)
          | none =>
            rw [hold, Option.none_or] at ht
            obtain ⟨rfl, rfl⟩ : s = t ∧ R.next = obj := by
              simpa [eq_comm] using Fn.mem_of_lookup ht
            exact List.mem_cons_self ..
        new := h.new
        keep := h.keep
        subst := h.subst
        range := h.range
        touched := h.touched
        gone := h.gone }

/-- Each object belongs to one slot. -/
structure Rewrite.Distinct (R : Rewrite) : Prop where
  nodup : (R.objs.map (·.2)).Nodup
  next : ∀ e ∈ R.objs, e.2 < R.next

theorem Rewrite.Distinct.slot_eq (h : R.Distinct) {s t : StackSlot} (hs : R.objs.lookup s = some obj)
    (ht : R.objs.lookup t = some obj) : s = t := by
  exact congrArg Prod.fst
    (List.inj_on_of_nodup_map h.nodup (Fn.mem_of_lookup hs) (Fn.mem_of_lookup ht) rfl)

theorem Rewrite.Distinct.later (h : R.Distinct) (hobjs : R'.objs = R.objs) (hnext : R.next ≤ R'.next) :
    R'.Distinct where
  nodup := hobjs ▸ h.nodup
  next e he := Nat.lt_of_lt_of_le (h.next e (hobjs ▸ he)) hnext

theorem objFor_distinct (h : R.Distinct) (s : StackSlot) : (objFor R s).1.Distinct := by
  unfold objFor
  cases R.objs.lookup s with
  | some obj => exact h
  | none =>
    refine ⟨?_, fun e he => ?_⟩
    · rw [List.map_append]
      refine List.nodup_append.mpr ⟨h.nodup, List.nodup_singleton _, fun n hn m hm heq => ?_⟩
      obtain ⟨e, he, rfl⟩ := List.mem_map.mp hn
      have hlt := h.next e he
      rw [heq, List.mem_singleton.mp hm] at hlt
      exact Nat.lt_irrefl _ hlt
    · rcases List.mem_append.mp he with he | he
      · exact Nat.lt_succ_of_lt (h.next e he)
      · rw [List.mem_singleton.mp he]
        exact Nat.lt_succ_self _

theorem applyGep_distinct (h : R.Distinct) (p : GepPlan) : (applyGep R p).Distinct :=
  (objFor_distinct h p.slot).later rfl (Nat.le_add_right _ 2)

theorem applyInt_distinct (h : R.Distinct) (p : IntPlan) : (applyInt U R p).Distinct := by
  refine (objFor_distinct h p.slot).later ?_ ?_
  · simp only [applyInt]
    split <;> rfl
  · simp only [applyInt]
    split <;> exact Nat.le_add_right _ 2

theorem applyPlans_induct {P : Rewrite → Prop} {F : Fn} {Q : Plans} (hstart : P { F, next := F.fresh })
    (hgep : ∀ R, ∀ p ∈ Q.gepPlans, P R → P (applyGep R p))
    (hint : ∀ R, ∀ p ∈ Q.intPlans, P R → P (applyInt U R p)) : P (applyPlans U F Q) := by
  have hgeps : ∀ ps : List GepPlan, ps ⊆ Q.gepPlans → ∀ R : Rewrite, P R → P (ps.foldl applyGep R) := by
    intro ps
    induction ps with
    | nil => exact fun _ _ h => h
    | cons p ps ih =>
      intro hps R h
      exact ih (List.subset_of_cons_subset hps) _ (hgep R p (hps (List.mem_cons_self ..)) h)
  have hints : ∀ ps : List IntPlan, ps ⊆ Q.intPlans → ∀ R : Rewrite, P R → P (ps.foldl (applyInt U) R) := by
    intro ps
    induction ps with
    | nil => exact fun _ _ h => h
    | cons p ps ih =>
      intro hps R h
      exact ih (List.subset_of_cons_subset hps) _ (hint R p (hps (List.mem_cons_self ..)) h)
  exact hints _ (List.Subset.refl _) _ (hgeps _ (List.Subset.refl _) _ hstart)

theorem applyPlans_distinct (F : Fn) (Q : Plans) : (applyPlans U F Q).Distinct :=
  applyPlans_induct ⟨List.nodup_nil, by simp⟩ (fun _ p _ h => applyGep_distinct h p)
    fun _ p _ h => applyInt_distinct h p

theorem objFor_objs (R : Rewrite) (s : StackSlot) : ∀ e ∈ (objFor R s).1.objs, e ∈ R.objs ∨ e.1 = s := by
  intro e he
  unfold objFor at he
  cases hs : R.objs.lookup s with
  | some obj =>
    rw [hs] at he
    exact Or.inl he
  | none =>
    rw [hs] at he
    rcases List.mem_append.mp he with he | he
    · exact Or.inl he
    · exact Or.inr (congrArg Prod.fst (List.mem_singleton.mp he))

theorem applyPlans_objs (F : Fn) (Q : Plans) : ∀ e ∈ (applyPlans U F Q).objs,
    (∃ p ∈ Q.gepPlans, p.slot = e.1) ∨ ∃ p ∈ Q.intPlans, p.slot = e.1 := by
  refine applyPlans_induct (P := fun R => ∀ e ∈ R.objs, (∃ p ∈ Q.gepPlans, p.slot = e.1) ∨
    ∃ p ∈ Q.intPlans, p.slot = e.1) (by simp) (fun R p hp h e he => ?_) fun R p hp h e he => ?_
  · rcases objFor_objs R p.slot e he with he | heq
    · exact h e he
    · exact Or.inl ⟨p, hp, heq.symm⟩
  · have hobjs : (applyInt U R p).objs = (objFor R p.slot).1.objs := by
      simp only [applyInt]
      split <;> rfl
    rcases objFor_objs R p.slot e (hobjs ▸ he) with he | heq
    · exact h e he
    · exact Or.inr ⟨p, hp, heq.symm⟩

/-! ## New ids -/

/-- Ids are used once, and new ones are left. -/
structure Rewrite.Numbered (R : Rewrite) : Prop where
  nodup : R.F.ids.Nodup
  lt : ∀ a ∈ R.F.ids, a < R.next

theorem objFor_numbered (h : R.Numbered) (s : StackSlot) : (objFor R s).1.Numbered := by
  unfold objFor
  cases R.objs.lookup s with
  | some obj => exact h
  | none =>
    have hfresh : (objAlloca R.next s).id ∉ R.F.ids := fun hin => Nat.lt_irrefl _ (h.lt _ hin)
    obtain ⟨hnodup, hids⟩ := insertEntry_ids h.nodup hfresh
    refine ⟨hnodup, fun a ha => ?_⟩
    rcases hids a ha with ha | rfl
    · exact Nat.lt_succ_of_lt (h.lt a ha)
    · exact Nat.lt_succ_self _

theorem Rewrite.Numbered.insert (h : R.Numbered) (pos : Nat) (new : List Instr) {n : Nat} (hn : R.next ≤ n)
    (hnew : (new.map (·.id)).Nodup) (hids : ∀ x ∈ new, R.next ≤ x.id ∧ x.id < n) :
    ({ R with F := R.F.insertBefore pos new, next := n } : Rewrite).Numbered := by
  have hfresh : ∀ x ∈ new, x.id ∉ R.F.ids := fun x hx hin =>
    absurd (h.lt _ hin) (Nat.not_lt.mpr (hids x hx).1)
  obtain ⟨hnodup, hmem⟩ := insertBefore_ids pos h.nodup hnew hfresh
  refine ⟨hnodup, fun a ha => ?_⟩
  rcases hmem a ha with ha | ha
  · exact Nat.lt_of_lt_of_le (h.lt a ha) hn
  · obtain ⟨x, hx, rfl⟩ := List.mem_map.mp ha
    exact (hids x hx).2

theorem Rewrite.Numbered.replace (h : R.Numbered) (g : Nat) (v : Val) :
    ({ R with F := (R.F.replaceAllUsesWith g v).eraseFromParent g } : Rewrite).Numbered := by
  have hids : (R.F.replaceAllUsesWith g v).ids = R.F.ids := Fn.ids_map ..
  obtain ⟨hnodup, hmem⟩ := eraseFromParent_ids g (hids ▸ h.nodup)
  exact ⟨hnodup, fun a ha => h.lt a (hids ▸ hmem a ha)⟩

theorem Rewrite.Numbered.foldCasts (h : R.Numbered) (np : Nat) (us : List User) :
    ({ R with F := foldCasts np R.F us } : Rewrite).Numbered := by
  induction us generalizing R with
  | nil => exact h
  | cons u us ih =>
    cases u with
    | instr i =>
      unfold Ssa.foldCasts
      split
      · exact ih (h.replace i.id (.inst np))
      · exact ih h
    | phi p => exact ih h
    | term t => exact ih h

theorem newGep_ids (np obj : Nat) (rel : BitVec 64) (varIdx : Option Val) :
    ((newGep np obj rel varIdx).map (·.id)).Nodup ∧
      ∀ x ∈ newGep np obj rel varIdx, np ≤ x.id ∧ x.id < np + 2 := by
  cases varIdx <;> simp [newGep, gepI8]

theorem applyGep_numbered (h : R.Numbered) (p : GepPlan) : (applyGep R p).Numbered := by
  obtain ⟨hnodup, hids⟩ := newGep_ids (objFor R p.slot).1.next (objFor R p.slot).2 p.rel p.varIdx
  exact ((objFor_numbered h p.slot).insert p.gep.id _ (Nat.le_add_right _ 2) hnodup hids).replace p.gep.id
    (.inst (objFor R p.slot).1.next)

theorem applyInt_numbered (h : R.Numbered) (p : IntPlan) : (applyInt U R p).Numbered := by
  have h₁ := objFor_numbered h p.slot
  by_cases hop : p.inst.op = .inttoptr
  · obtain ⟨hnodup, hids⟩ := newGep_ids (objFor R p.slot).1.next (objFor R p.slot).2 p.rel none
    have h₂ := (h₁.insert p.inst.id _ (Nat.le_add_right _ 2) hnodup hids).replace p.inst.id
      (.inst (objFor R p.slot).1.next)
    simpa only [applyInt, hop, if_true, newGep] using h₂
  · have h₂ := h₁.insert p.inst.id [gepI8 (objFor R p.slot).1.next (objFor R p.slot).2 (.int 64 p.rel)]
      (Nat.le_succ _) (List.nodup_singleton _) (by simp [gepI8])
    have h₃ := h₂.insert p.inst.id
      [{ id := (objFor R p.slot).1.next + 1, ty := .int 64, op := .ptrtoint,
         ops := [.inst (objFor R p.slot).1.next] }]
      (Nat.le_succ _) (List.nodup_singleton _) (by simp)
    have h₄ := fun us => (h₃.foldCasts (objFor R p.slot).1.next us).replace p.inst.id
      (.inst ((objFor R p.slot).1.next + 1))
    simp only [applyInt, hop, if_false]
    exact h₄ _

theorem applyPlans_numbered {F : Fn} (hF : F.ids.Nodup) (Q : Plans) : (applyPlans U F Q).Numbered :=
  applyPlans_induct ⟨hF, fun _ => lt_fresh⟩ (fun _ p _ h => applyGep_numbered h p)
    fun _ p _ h => applyInt_numbered h p

/-! ## Replacing an instruction -/

theorem not_mem_new (h : Frame F T R E) (hi : i ∈ F.instrs) (hg : g ∈ F.ids) (hne : i.id ≠ g) :
    ∀ j ∈ E.new i, j.id ≠ g := by
  intro j hj hjg
  rcases h.new i hi j hj with rfl | ⟨hfresh, _⟩
  · exact hne hjg
  · have hlt := lt_fresh hg
    omega

theorem filter_new (h : Frame F T R E) (hi : i ∈ F.instrs) (hg : g ∈ F.ids) (hne : i.id ≠ g) :
    (E.new i).filter (·.id ≠ g) = E.new i :=
  List.filter_eq_self.mpr fun j hj => by simpa using not_mem_new h hi hg hne j hj

/-- The uses of `g` become `n`, and `g` is erased. -/
def Edits.replace (E : Edits) (g : Nat) (n : Nat) : Edits :=
  { E with
    new := fun i => (E.new i).filter (·.id ≠ g)
    subst := Val.subst g (.inst n) ∘ E.subst }

/-- The uses of `g` become `n` and `g` is erased, once its new instructions stand before it. -/
theorem replace_frame (R' : Rewrite) (E₁ : Edits) {xs : List Instr} (hF : F.WellTyped)
    (h : Frame F T R E) (hi : i ∈ F.instrs) (hT : ¬T i.id) (hn : F.fresh ≤ np)
    (hxs : ∀ x ∈ xs, F.fresh ≤ x.id ∧ x.op ≠ .inttoptr) (hentry : E₁.entry = E.entry) (hsubst : E₁.subst = E.subst)
    (hself : E₁.new i = xs ++ [i]) (hother : ∀ j ∈ F.instrs, j.id ≠ i.id → E₁.new j = E.new j)
    (hnext : R.next ≤ R'.next) (hobjs : R'.objs = R.objs)
    (heq : R'.F = ((F.edit E₁).replaceAllUsesWith i.id (.inst np)).eraseFromParent i.id) :
    Frame F (fun d => T d ∨ d = i.id) R' (E₁.replace i.id np) ∧
      Ext F T R E R' (E₁.replace i.id np) ∧ (E₁.replace i.id np).new i = xs ∧
      (E₁.replace i.id np).subst (.inst i.id) = .inst np := by
  have hlt := lt_fresh (mem_ids hi)
  have hnew : (E₁.replace i.id np).new i = xs := by
    show (E₁.new i).filter _ = xs
    rw [hself, List.filter_append]
    have hall : xs.filter (·.id ≠ i.id) = xs := List.filter_eq_self.mpr fun x hx => by
      have := (hxs x hx).1
      simp only [ne_eq, decide_eq_true_eq]
      omega
    rw [hall, List.filter_singleton]
    simp
  have hkeep : ∀ j ∈ F.instrs, j.id ≠ i.id → (E₁.replace i.id np).new j = E.new j := by
    intro j hj hne
    show (E₁.new j).filter _ = _
    rw [hother j hj hne]
    exact filter_new h hj (mem_ids hi) hne
  have hsub : ∀ v, (E₁.replace i.id np).subst v = Val.subst i.id (.inst np) (E.subst v) := by
    intro v
    show (Val.subst _ _ ∘ E₁.subst) v = _
    rw [hsubst]
    rfl
  have hnotT : ∀ id, T id → id ≠ i.id := fun id hid heq => hT (heq ▸ hid)
  have hsubT : ∀ id, T id → (E₁.replace i.id np).subst (.inst id) = E.subst (.inst id) := by
    intro id hid
    obtain ⟨n, hsn, hfresh⟩ := h.range id hid
    rw [hsub, hsn]
    refine Val.subst_ne fun heq => ?_
    cases heq
    omega
  have hsubi : (E₁.replace i.id np).subst (.inst i.id) = .inst np := by
    rw [hsub, h.subst _ fun id hid heq => hnotT id hid (Val.inst.inj heq).symm, Val.subst_self]
  refine ⟨?_, ⟨fun j hj hid => hkeep j hj (hnotT _ hid), hsubT, fun s obj hs => hobjs ▸ hs⟩, hnew, hsubi⟩
  exact
    { eq := by
        rw [heq, replaceAllUsesWith_edit fun a ha => (h.entry a (hentry ▸ ha)).1, eraseFromParent_edit]
        · rfl
        · intro a ha
          have := (h.entry a (hentry ▸ ha)).2
          omega
      fresh := Nat.le_trans h.fresh hnext
      entry := fun a ha => h.entry a (hentry ▸ ha)
      objs := fun s obj hs => by
        show _ ∈ E₁.entry
        rw [hentry]
        exact h.objs s obj (hobjs ▸ hs)
      new := by
        intro j hj x hx
        by_cases hne : j.id = i.id
        · obtain rfl := hF.inj hj hi hne
          rw [hnew] at hx
          exact Or.inr (hxs x hx)
        · rw [hkeep j hj hne] at hx
          exact h.new j hj x hx
      keep := by
        intro j hj hnot
        have hne : j.id ≠ i.id := fun heq => hnot (Or.inr heq)
        rw [hkeep j hj hne]
        exact h.keep j hj fun hid => hnot (Or.inl hid)
      subst := by
        intro v hv
        rw [hsub, h.subst v fun id hid => hv id (Or.inl hid)]
        exact Val.subst_ne (hv i.id (Or.inr rfl))
      range := by
        rintro id (hid | rfl)
        · rw [hsubT id hid]
          exact h.range id hid
        · exact ⟨np, hsubi, hn⟩
      touched := by
        rintro id (hid | rfl)
        · exact h.touched id hid
        · exact ⟨i, hi, rfl⟩
      gone := by
        rintro j hj hid x hx
        by_cases hne : j.id = i.id
        · obtain rfl := hF.inj hj hi hne
          rw [hnew] at hx
          exact (hxs x hx).1
        · rw [hkeep j hj hne] at hx
          exact h.gone j hj (hid.resolve_right hne) x hx }

/-- The edits after new instructions are put before `g`. -/
def Edits.insert (E : Edits) (g : Nat) (xs : List Instr) : Edits :=
  { E with new := fun i => (E.new i).flatMap fun j => if j.id = g then xs ++ [j] else [j] }

theorem insert_self {xs : List Instr} (h : E.new i = [i]) : (E.insert i.id xs).new i = xs ++ [i] := by
  show (E.new i).flatMap _ = _
  rw [h]
  simp

theorem insert_other {xs : List Instr} (h : Frame F T R E) (hj : j ∈ F.instrs) (hg : g ∈ F.ids)
    (hne : j.id ≠ g) : (E.insert g xs).new j = E.new j :=
  flatMap_eq_self fun x hx => if_neg (not_mem_new h hj hg hne x hx)

theorem newGep_map {rel : BitVec 64} {varIdx : Option Val} (h : Frame F T R E) (hnp : F.fresh ≤ np)
    (hobj : F.fresh ≤ obj) (hvar : ∀ var, varIdx = some var → E.subst var = var)
    (hint : ∀ w (c : BitVec w), E.subst (.int w c) = .int w c) :
    ∀ x ∈ newGep np obj rel varIdx, x.map E.subst = x := by
  intro x hx
  refine Instr.map_eq_self fun v hv => ?_
  cases varIdx with
  | none =>
    obtain rfl := List.mem_singleton.mp hx
    rcases List.mem_pair.mp hv with rfl | rfl
    · exact h.subst_fresh hobj
    · exact hint _ _
  | some var =>
    rcases List.mem_pair.mp hx with rfl | rfl
    · rcases List.mem_pair.mp hv with rfl | rfl
      · exact hvar _ rfl
      · exact hint _ _
    · rcases List.mem_pair.mp hv with rfl | rfl
      · exact h.subst_fresh hobj
      · exact h.subst_fresh (Nat.le_succ_of_le hnp)

theorem newGep_fresh {rel : BitVec 64} {varIdx : Option Val} (hnp : F.fresh ≤ np) :
    ∀ x ∈ newGep np obj rel varIdx, F.fresh ≤ x.id ∧ x.op ≠ .inttoptr := by
  intro x hx
  cases varIdx with
  | none =>
    obtain rfl := List.mem_singleton.mp hx
    exact ⟨hnp, by simp [gepI8]⟩
  | some var =>
    rcases List.mem_pair.mp hx with rfl | rfl
    · exact ⟨Nat.le_succ_of_le hnp, by simp⟩
    · exact ⟨hnp, by simp [gepI8]⟩

theorem Frame.subst_int (h : Frame F T R E) (w : Nat) (c : BitVec w) : E.subst (.int w c) = .int w c :=
  h.subst _ fun _ _ => Val.noConfusion

/-- To replace an instruction again changes nothing. -/
theorem replace_touched (np : Nat) (h : Frame F T R E) (hT : T g) :
    (∀ i ∈ F.instrs, (E.replace g np).new i = E.new i) ∧ (E.replace g np).subst = E.subst := by
  obtain ⟨k, hk, rfl⟩ := h.touched g hT
  have hlt := lt_fresh (mem_ids hk)
  refine ⟨fun i hi => ?_, ?_⟩
  · refine List.filter_eq_self.mpr fun j hj => ?_
    by_cases hid : T i.id
    · have := h.gone i hi hid j hj
      simp only [ne_eq, decide_eq_true_eq]
      omega
    · rw [h.keep i hi hid, List.mem_singleton] at hj
      subst hj
      simpa using fun heq : j.id = k.id => hid (heq ▸ hT)
  · funext v
    refine Val.subst_ne fun heq => ?_
    by_cases hv : ∃ id, T id ∧ v = .inst id
    · obtain ⟨id, hid, rfl⟩ := hv
      obtain ⟨n, hn, hfresh⟩ := h.range id hid
      rw [hn] at heq
      cases heq
      omega
    · rw [h.subst v fun id hid hvid => hv ⟨id, hid, hvid⟩] at heq
      exact hv ⟨k.id, hT, heq⟩

/-! ## Casts of a sum -/

/-- The instructions of `ids` become `np`. -/
def Edits.cast (np : Nat) (E : Edits) (ids : List Nat) : Edits := ids.foldl (fun E d => E.replace d np) E

theorem cast_new (ids : List Nat) (E : Edits) (i : Instr) :
    (E.cast np ids).new i = (E.new i).filter fun j => j.id ∉ ids := by
  induction ids generalizing E with
  | nil => exact (List.filter_eq_self.mpr fun j _ => by simp).symm
  | cons d ids ih =>
    show ((E.replace d np).cast np ids).new i = _
    rw [ih]
    show ((E.new i).filter _).filter _ = _
    rw [List.filter_filter]
    refine List.filter_congr fun j _ => ?_
    simp only [List.mem_cons, not_or, ne_eq, Bool.decide_and, Bool.and_comm]

theorem cast_entry (ids : List Nat) (E : Edits) : (E.cast np ids).entry = E.entry := by
  induction ids generalizing E with
  | nil => rfl
  | cons d ids ih => exact ih (E.replace d np)

theorem cast_subst (ids : List Nat) {E E' : Edits} (h : E.subst = E'.subst) :
    (E.cast np ids).subst = (E'.cast np ids).subst := by
  induction ids generalizing E E' with
  | nil => exact h
  | cons d ids ih =>
    refine ih ?_
    show Val.subst _ _ ∘ E.subst = Val.subst _ _ ∘ E'.subst
    rw [h]

def castIds (us : List User) : List Nat :=
  us.filterMap fun u =>
    match u with
    | .instr i => if i.op = .inttoptr then some i.id else none
    | _ => none

theorem mem_castIds {us : List User} {d : Nat} :
    d ∈ castIds us ↔ ∃ i, .instr i ∈ us ∧ i.op = .inttoptr ∧ i.id = d := by
  simp only [castIds, List.mem_filterMap]
  constructor
  · rintro ⟨u, hu, hd⟩
    cases u with
    | instr i =>
      simp only [Option.ite_none_right_eq_some, Option.some.injEq] at hd
      exact ⟨i, hu, hd⟩
    | _ => cases hd
  · rintro ⟨i, hi, hop, rfl⟩
    exact ⟨.instr i, hi, by simp [hop]⟩

theorem foldCasts_edit (us : List User) {E : Edits} (hops : ∀ a ∈ E.entry, a.ops = [])
    (hids : ∀ a ∈ E.entry, a.id ∉ castIds us) :
    foldCasts np (F.edit E) us = F.edit (E.cast np (castIds us)) := by
  induction us generalizing E with
  | nil => rfl
  | cons u us ih =>
    cases u with
    | instr i =>
      by_cases hop : i.op = .inttoptr
      · have hcast : castIds (.instr i :: us) = i.id :: castIds us := by simp [castIds, hop]
        rw [hcast] at hids ⊢
        simp only [foldCasts, hop, if_true]
        rw [replaceAllUsesWith_edit hops, eraseFromParent_edit]
        · exact ih hops fun a ha hmem => hids a ha (List.mem_cons_of_mem _ hmem)
        · exact fun a ha heq => hids a ha (heq ▸ List.mem_cons_self ..)
      · have hcast : castIds (.instr i :: us) = castIds us := by simp [castIds, hop]
        rw [hcast] at hids ⊢
        simp only [foldCasts, hop, if_false]
        exact ih hops hids
    | phi p => exact ih hops hids
    | term t => exact ih hops hids

theorem Frame.congr (h : Frame F T R E) (hentry : E'.entry = E.entry)
    (hnew : ∀ i ∈ F.instrs, E'.new i = E.new i) (hsubst : E'.subst = E.subst) :
    Frame F T { R with F := F.edit E' } E' where
  eq := rfl
  fresh := h.fresh
  entry a ha := h.entry a (hentry ▸ ha)
  objs s obj hs := by
    rw [hentry]
    exact h.objs s obj hs
  new i hi j hj := h.new i hi j (hnew i hi ▸ hj)
  keep i hi hid := (hnew i hi).trans (h.keep i hi hid)
  subst v hv := (congrFun hsubst v).trans (h.subst v hv)
  range id hid := by
    rw [hsubst]
    exact h.range id hid
  touched := h.touched
  gone i hi hid j hj := h.gone i hi hid j (hnew i hi ▸ hj)

/-- The casts of `ids` become `np`. -/
structure Cast (F : Fn) (np : Nat) (E : Edits) (i : Instr) : Prop where
  new : E.new i = []
  subst : E.subst (.inst i.id) = .inst np

theorem cast_frame (hF : F.WellTyped) (hnp : F.fresh ≤ np) (ids : List Nat)
    (hids : ∀ d ∈ ids, ∃ i ∈ F.instrs, i.id = d) (h : Frame F T R E)
    (hdone : ∀ i ∈ F.instrs, i.id ∈ ids → T i.id → Cast F np E i) :
    Frame F (fun d => T d ∨ d ∈ ids) { R with F := F.edit (E.cast np ids) } (E.cast np ids) ∧
      Ext F T R E R (E.cast np ids) ∧ ∀ i ∈ F.instrs, i.id ∈ ids → Cast F np (E.cast np ids) i := by
  induction ids generalizing T R E with
  | nil =>
    refine ⟨?_, ⟨fun _ _ _ => rfl, fun _ _ => rfl, fun _ _ h => h⟩, fun i _ hi => by cases hi⟩
    have hpred : (fun d => T d ∨ d ∈ ([] : List Nat)) = T := by
      funext d
      simp
    rw [hpred]
    exact h.congr rfl (fun _ _ => rfl) rfl
  | cons d ids ih =>
    -- the step for `d`, whether or not it has been cast before
    obtain ⟨hstep, hext, hcast⟩ : Frame F (fun e => T e ∨ e = d) { R with F := F.edit (E.replace d np) }
        (E.replace d np) ∧ Ext F T R E R (E.replace d np) ∧
        ∀ i ∈ F.instrs, i.id = d → Cast F np (E.replace d np) i := by
      by_cases hT : T d
      · obtain ⟨hnew, hsubst⟩ := replace_touched np h hT
        have hpred : (fun e => T e ∨ e = d) = T := by
          funext e
          exact propext ⟨fun he => he.elim id fun heq => heq ▸ hT, Or.inl⟩
        rw [hpred]
        refine ⟨h.congr rfl hnew hsubst, ⟨fun i hi _ => hnew i hi, fun _ _ => by rw [hsubst], fun _ _ h => h⟩,
          fun i hi hid => ?_⟩
        obtain ⟨hold, holds⟩ := hdone i hi (hid ▸ List.mem_cons_self ..) (hid ▸ hT)
        exact ⟨(hnew i hi).trans hold, by rw [hsubst, holds]⟩
      · obtain ⟨k, hk, rfl⟩ := hids d (List.mem_cons_self ..)
        have hnone : ∀ x ∈ ([] : List Instr), F.fresh ≤ x.id ∧ x.op ≠ .inttoptr := by simp
        obtain ⟨hframe, hext, hnew, hsubst⟩ := replace_frame { R with F := F.edit (E.replace k.id np) } E hF h
          hk hT hnp hnone rfl rfl (h.keep k hk hT) (fun _ _ _ => rfl) (Nat.le_refl _) rfl (by
            rw [replaceAllUsesWith_edit fun a ha => (h.entry a ha).1, eraseFromParent_edit fun a ha heq => ?_]
            · rfl
            · have := (h.entry a ha).2
              have := lt_fresh (mem_ids hk)
              omega)
        refine ⟨hframe, ⟨hext.new, hext.subst, hext.objs⟩, fun i hi hid => ?_⟩
        obtain rfl := hF.inj hi hk hid
        exact ⟨hnew, hsubst⟩
    obtain ⟨hrest, hext', hcasts⟩ := ih (fun e he => hids e (List.mem_cons_of_mem _ he)) hstep
      fun i hi hmem hid => by
        rcases hid with hid | hid
        · obtain ⟨hold, holds⟩ := hdone i hi (List.mem_cons_of_mem _ hmem) hid
          exact ⟨(hext.new i hi hid).trans hold, (hext.subst i.id hid).trans holds⟩
        · exact hcast i hi hid
    have hpred : (fun e => T e ∨ e ∈ d :: ids) = fun e => (T e ∨ e = d) ∨ e ∈ ids := by
      funext e
      rw [List.mem_cons, or_assoc]
    have hall : Ext F (fun e => T e ∨ e = d) R (E.replace d np) R (E.cast np (d :: ids)) :=
      ⟨hext'.new, hext'.subst, hext'.objs⟩
    refine ⟨?_, hext.trans hall fun _ => Or.inl, fun i hi hid => ?_⟩
    · rw [hpred]
      exact hrest
    · rcases List.mem_cons.mp hid with heq | hmem
      · obtain ⟨hold, holds⟩ := hcast i hi heq
        exact ⟨(hext'.new i hi (Or.inr heq)).trans hold, (hext'.subst i.id (Or.inr heq)).trans holds⟩
      · exact hcasts i hi hmem

/-! ## Carrying out one plan -/

/-- The plan has been carried out. -/
def GepDone (F : Fn) (R : Rewrite) (E : Edits) (p : GepPlan) : Prop :=
  ∃ np obj, F.fresh ≤ np ∧ R.objs.lookup p.slot = some obj ∧
    E.new p.gep = newGep np obj p.rel p.varIdx ∧ E.subst (.inst p.gep.id) = .inst np

theorem applyGep_frame {p : GepPlan} (hF : F.WellTyped) (h : Frame F T R E) (hp : p.gep ∈ F.instrs)
    (hT : ¬T p.gep.id) (hvar : ∀ var, p.varIdx = some var → E.subst var = var) :
    ∃ E', Frame F (fun d => T d ∨ d = p.gep.id) (applyGep R p) E' ∧ Ext F T R E (applyGep R p) E' ∧
      GepDone F (applyGep R p) E' p := by
  obtain ⟨E₁, h₁, hnew, hsubst, hext, hlookup, hobj⟩ := objFor_frame h p.slot
  have hmap : ∀ x ∈ newGep (objFor R p.slot).1.next (objFor R p.slot).2 p.rel p.varIdx, x.map E₁.subst = x :=
    newGep_map h₁ h₁.fresh hobj (fun var hv => by rw [hsubst]; exact hvar var hv) h₁.subst_int
  have hfresh : ∀ x ∈ newGep (objFor R p.slot).1.next (objFor R p.slot).2 p.rel p.varIdx,
      F.fresh ≤ x.id ∧ x.op ≠ .inttoptr := newGep_fresh h₁.fresh
  have hentry : ∀ a ∈ E₁.entry, a.id ≠ p.gep.id := fun a ha => by
    have := (h₁.entry a ha).2
    have := lt_fresh (mem_ids hp)
    omega
  have heq : (applyGep R p).F = ((F.edit (E₁.insert p.gep.id
      (newGep (objFor R p.slot).1.next (objFor R p.slot).2 p.rel p.varIdx))).replaceAllUsesWith p.gep.id
      (.inst (objFor R p.slot).1.next)).eraseFromParent p.gep.id := by
    show (((objFor R p.slot).1.F.insertBefore p.gep.id
      (newGep (objFor R p.slot).1.next (objFor R p.slot).2 p.rel p.varIdx)).replaceAllUsesWith p.gep.id
      (.inst (objFor R p.slot).1.next)).eraseFromParent p.gep.id = _
    rw [h₁.eq, insertBefore_edit hentry hmap]
    rfl
  obtain ⟨hframe, hext', hdone, hval⟩ := replace_frame (applyGep R p) (E₁.insert p.gep.id _) hF h₁ hp hT
    h₁.fresh hfresh rfl rfl (insert_self (h₁.keep _ hp hT))
    (fun j hj hne => insert_other h₁ hj (mem_ids hp) hne) (Nat.le_add_right _ 2) rfl heq
  exact ⟨_, hframe, hext.trans hext' fun _ h => h, _, _, h₁.fresh, hlookup, hdone, hval⟩

/-- `j` is a cast of the planned sum. -/
def CastOf (F : Fn) (p : IntPlan) (j : Instr) : Prop :=
  p.inst.op ≠ .inttoptr ∧ j ∈ F.instrs ∧ j.op = .inttoptr ∧ j.ops = [.inst p.inst.id]

/-- `ptrtoint np`. -/
def ptrToInt (np : Nat) : Instr := { id := np + 1, ty := .int 64, op := .ptrtoint, ops := [.inst np] }

/-- The plan has been carried out. -/
structure IntDone (F : Fn) (R : Rewrite) (E : Edits) (p : IntPlan) (np obj : Nat) : Prop where
  fresh : F.fresh ≤ np
  lookup : R.objs.lookup p.slot = some obj
  cast : p.inst.op = .inttoptr →
    E.new p.inst = [gepI8 np obj (.int 64 p.rel)] ∧ E.subst (.inst p.inst.id) = .inst np
  sum : p.inst.op ≠ .inttoptr →
    E.new p.inst = [gepI8 np obj (.int 64 p.rel), ptrToInt np] ∧ E.subst (.inst p.inst.id) = .inst (np + 1)
  casts : ∀ j, CastOf F p j → Cast F np E j

theorem newGep_none {rel : BitVec 64} : newGep np obj rel none = [gepI8 np obj (.int 64 rel)] := rfl

theorem castIds_users (E₁ : Edits) {xs : List Instr} {p : IntPlan} (hF : F.WellTyped) (h : Frame F T R E)
    (hp : p.inst ∈ F.instrs) (hT : ¬T p.inst.id) (hcasts : ∀ j, CastOf F p j → ¬T j.id)
    (hop : p.inst.op ≠ .inttoptr) (hxs : ∀ x ∈ xs, x.op ≠ .inttoptr)
    (hentry : E₁.entry = E.entry) (hsubst : E₁.subst = E.subst) (hself : E₁.new p.inst = xs ++ [p.inst])
    (hother : ∀ j ∈ F.instrs, j.id ≠ p.inst.id → E₁.new j = E.new j) {d : Nat} :
    d ∈ castIds ((U (F.edit E₁)).users (.inst p.inst.id)) ↔ ∃ j, CastOf F p j ∧ j.id = d := by
  have hne : F.blocks ≠ [] := by
    obtain ⟨b, hb, _⟩ := Fn.mem_instrs.mp hp
    exact List.ne_nil_of_mem hb
  have hlt := lt_fresh (mem_ids hp)
  rw [mem_castIds]
  simp only [((U (F.edit E₁)).perm _).mem_iff, Fn.mem_users_instr, mem_edit_instrs hne]
  constructor
  · rintro ⟨x, ⟨hx | ⟨i, hi, y, hy, rfl⟩, hmem⟩, hxop, rfl⟩
    · rw [(h.entry x (hentry ▸ hx)).1] at hmem
      cases hmem
    · -- a cast is one of the function at the start
      have hyi : y = i ∧ i.id ≠ p.inst.id := by
        by_cases hid : i.id = p.inst.id
        · obtain rfl := hF.inj hi hp hid
          rw [hself, List.mem_append, List.mem_singleton] at hy
          rcases hy with hy | rfl
          · exact absurd hxop (hxs y hy)
          · exact absurd hxop hop
        · rw [hother i hi hid] at hy
          rcases h.new i hi y hy with rfl | ⟨_, hyop⟩
          · exact ⟨rfl, hid⟩
          · exact absurd hxop hyop
      obtain ⟨rfl, hid⟩ := hyi
      obtain ⟨v, hops, _⟩ := typed_inttoptr (hF.typed y hi) hxop
      refine ⟨y, ⟨hop, hi, hxop, ?_⟩, rfl⟩
      rw [Instr.map_ops, hops, List.map_singleton, List.mem_singleton, hsubst] at hmem
      rw [hops]
      by_cases hv : ∃ id, T id ∧ v = .inst id
      · obtain ⟨id, hidT, rfl⟩ := hv
        obtain ⟨n, hn, hfresh⟩ := h.range id hidT
        rw [hn] at hmem
        cases hmem
        omega
      · rw [h.subst v fun id hidT heq => hv ⟨id, hidT, heq⟩] at hmem
        rw [hmem]
  · rintro ⟨j, hj, rfl⟩
    have hjid : j.id ≠ p.inst.id := fun heq => hj.1 (hF.inj hj.2.1 hp heq ▸ hj.2.2.1)
    refine ⟨j.map E₁.subst, ⟨Or.inr ⟨j, hj.2.1, j, ?_, rfl⟩, ?_⟩, hj.2.2.1, rfl⟩
    · rw [hother j hj.2.1 hjid, h.keep j hj.2.1 (hcasts j hj)]
      exact List.mem_singleton_self _
    · rw [Instr.map_ops, hj.2.2.2, hsubst, List.map_singleton,
        h.subst (.inst p.inst.id) fun id hid heq => hT (by cases heq; exact hid)]
      exact List.mem_singleton_self _

theorem applyInt_cast {p : IntPlan} (hF : F.WellTyped) (h : Frame F T R E) (hp : p.inst ∈ F.instrs)
    (hT : ¬T p.inst.id) (hop : p.inst.op = .inttoptr) :
    ∃ E' np obj, Frame F (fun d => T d ∨ d = p.inst.id) (applyInt U R p) E' ∧
      Ext F T R E (applyInt U R p) E' ∧ IntDone F (applyInt U R p) E' p np obj := by
  obtain ⟨E₁, h₁, hnew, hsubst, hext, hlookup, hobj⟩ := objFor_frame h p.slot
  have hmap : ∀ x ∈ newGep (objFor R p.slot).1.next (objFor R p.slot).2 p.rel none, x.map E₁.subst = x :=
    newGep_map h₁ h₁.fresh hobj (fun _ h => by cases h) h₁.subst_int
  have hfresh : ∀ x ∈ newGep (objFor R p.slot).1.next (objFor R p.slot).2 p.rel none,
      F.fresh ≤ x.id ∧ x.op ≠ .inttoptr := newGep_fresh h₁.fresh
  have hentry : ∀ a ∈ E₁.entry, a.id ≠ p.inst.id := fun a ha => by
    have := (h₁.entry a ha).2
    have := lt_fresh (mem_ids hp)
    omega
  have happly : applyInt U R p = { (objFor R p.slot).1 with
      F := ((((objFor R p.slot).1.F.insertBefore p.inst.id
        (newGep (objFor R p.slot).1.next (objFor R p.slot).2 p.rel none)).replaceAllUsesWith p.inst.id
        (.inst (objFor R p.slot).1.next)).eraseFromParent p.inst.id)
      next := (objFor R p.slot).1.next + 2 } := by
    simp only [applyInt, hop, if_true, newGep]
  have heq : (applyInt U R p).F = ((F.edit (E₁.insert p.inst.id
      (newGep (objFor R p.slot).1.next (objFor R p.slot).2 p.rel none))).replaceAllUsesWith p.inst.id
      (.inst (objFor R p.slot).1.next)).eraseFromParent p.inst.id := by
    rw [happly, h₁.eq]
    show (((F.edit E₁).insertBefore _ _).replaceAllUsesWith _ _).eraseFromParent _ = _
    rw [insertBefore_edit hentry hmap]
    rfl
  obtain ⟨hframe, hext', hdone, hval⟩ := replace_frame (applyInt U R p) (E₁.insert p.inst.id _) hF h₁ hp hT
    h₁.fresh hfresh rfl rfl (insert_self (h₁.keep _ hp hT))
    (fun j hj hne => insert_other h₁ hj (mem_ids hp) hne) (by rw [happly]; exact Nat.le_add_right _ 2)
    (by rw [happly]) heq
  exact ⟨_, _, _, hframe, hext.trans hext' fun _ h => h,
    { fresh := h₁.fresh
      lookup := by rw [happly]; exact hlookup
      cast := fun _ => ⟨hdone, hval⟩
      sum := fun hne => absurd hop hne
      casts := fun j hj => absurd hop hj.1 }⟩

/-- The edits after the two new instructions for a sum are put before it. -/
def Edits.insertSum (E : Edits) (g np obj : Nat) (rel : BitVec 64) : Edits :=
  (E.insert g (newGep np obj rel none)).insert g [ptrToInt np]

theorem insertSum_edit {rel : BitVec 64} (h : Frame F T R E) (hi : i ∈ F.instrs) (hnp : F.fresh ≤ np)
    (hobj : F.fresh ≤ obj) : (R.F.insertBefore i.id (newGep np obj rel none)).insertBefore i.id [ptrToInt np] =
      F.edit (E.insertSum i.id np obj rel) := by
  have hentry : ∀ a ∈ E.entry, a.id ≠ i.id := fun a ha => by
    have := (h.entry a ha).2
    have := lt_fresh (mem_ids hi)
    omega
  have hgep : ∀ x ∈ newGep np obj rel none, x.map E.subst = x :=
    newGep_map h hnp hobj (fun _ h => by cases h) h.subst_int
  have hpti : ∀ x ∈ [ptrToInt np], x.map E.subst = x := by
    intro x hx
    obtain rfl := List.mem_singleton.mp hx
    refine Instr.map_eq_self fun v hv => ?_
    obtain rfl := List.mem_singleton.mp hv
    exact h.subst_fresh hnp
  rw [h.eq, insertBefore_edit hentry hgep]
  exact insertBefore_edit hentry hpti

theorem insertSum_self {rel : BitVec 64} (h : Frame F T R E) (hi : i ∈ F.instrs) (hT : ¬T i.id)
    (hnp : F.fresh ≤ np) : (E.insertSum i.id np obj rel).new i =
      [gepI8 np obj (.int 64 rel), ptrToInt np] ++ [i] := by
  show ((E.insert _ _).new i).flatMap _ = _
  rw [insert_self (h.keep _ hi hT), newGep_none]
  have hne : np ≠ i.id := by
    have := lt_fresh (mem_ids hi)
    omega
  simp [gepI8, hne]

theorem insertSum_other {rel : BitVec 64} (h : Frame F T R E) (hi : i ∈ F.instrs) (hj : j ∈ F.instrs)
    (hne : j.id ≠ i.id) : (E.insertSum i.id np obj rel).new j = E.new j := by
  show ((E.insert _ _).new j).flatMap _ = _
  rw [insert_other h hj (mem_ids hi) hne]
  exact insert_other h hj (mem_ids hi) hne

theorem sum_fresh {rel : BitVec 64} (hnp : F.fresh ≤ np) :
    ∀ x ∈ [gepI8 np obj (.int 64 rel), ptrToInt np], F.fresh ≤ x.id ∧ x.op ≠ .inttoptr := by
  intro x hx
  rcases List.mem_pair.mp hx with rfl | rfl
  · exact ⟨hnp, by simp [gepI8]⟩
  · exact ⟨Nat.le_succ_of_le hnp, by simp [ptrToInt]⟩

theorem applyInt_sum {p : IntPlan} (hF : F.WellTyped) (h : Frame F T R E) (hp : p.inst ∈ F.instrs)
    (hT : ¬T p.inst.id) (hcasts : ∀ j, CastOf F p j → ¬T j.id) (hop : p.inst.op ≠ .inttoptr) :
    ∃ E' np obj,
      Frame F (fun d => T d ∨ (∃ j, CastOf F p j ∧ j.id = d) ∨ d = p.inst.id) (applyInt U R p) E' ∧
      Ext F T R E (applyInt U R p) E' ∧ IntDone F (applyInt U R p) E' p np obj := by
  obtain ⟨E₁, h₁, hnew, hsubst, hext, hlookup, hobj⟩ := objFor_frame h p.slot
  -- the two new instructions before the sum
  let E₂ := E₁.insertSum p.inst.id (objFor R p.slot).1.next (objFor R p.slot).2 p.rel
  have hE₂ : ((objFor R p.slot).1.F.insertBefore p.inst.id
      (newGep (objFor R p.slot).1.next (objFor R p.slot).2 p.rel none)).insertBefore p.inst.id
      [ptrToInt (objFor R p.slot).1.next] = F.edit E₂ := insertSum_edit h₁ hp h₁.fresh hobj
  have hself : E₂.new p.inst = [gepI8 (objFor R p.slot).1.next (objFor R p.slot).2 (.int 64 p.rel),
      ptrToInt (objFor R p.slot).1.next] ++ [p.inst] := insertSum_self h₁ hp hT h₁.fresh
  have hother : ∀ j ∈ F.instrs, j.id ≠ p.inst.id → E₂.new j = E₁.new j := fun j hj hne =>
    insertSum_other h₁ hp hj hne
  have hxs : ∀ x ∈ [gepI8 (objFor R p.slot).1.next (objFor R p.slot).2 (.int 64 p.rel),
      ptrToInt (objFor R p.slot).1.next], F.fresh ≤ x.id ∧ x.op ≠ .inttoptr := sum_fresh h₁.fresh
  -- its casts
  have hids : ∀ {d}, d ∈ castIds ((U (F.edit E₂)).users (.inst p.inst.id)) ↔ ∃ j, CastOf F p j ∧ j.id = d :=
    castIds_users E₂ hF h₁ hp hT hcasts hop (fun x hx => (hxs x hx).2) rfl rfl hself hother
  have hnotid : p.inst.id ∉ castIds ((U (F.edit E₂)).users (.inst p.inst.id)) := by
    intro hmem
    obtain ⟨j, hj, hjid⟩ := hids.mp hmem
    exact hop (hF.inj hj.2.1 hp hjid ▸ hj.2.2.1)
  have hbelow : ∀ d ∈ castIds ((U (F.edit E₂)).users (.inst p.inst.id)), d < F.fresh := by
    intro d hd
    obtain ⟨j, hj, rfl⟩ := hids.mp hd
    exact lt_fresh (mem_ids hj.2.1)
  obtain ⟨hcframe, hcext, hcdone⟩ := cast_frame hF h₁.fresh (castIds ((U (F.edit E₂)).users (.inst p.inst.id)))
    (fun d hd => by
      obtain ⟨j, hj, hjid⟩ := hids.mp hd
      exact ⟨j, hj.2.1, hjid⟩) h₁
    (fun i hi hmem hid => by
      obtain ⟨j, hj, hjid⟩ := hids.mp hmem
      exact absurd (hjid ▸ hid) (hcasts j hj))
  -- and the sum itself
  have happly : applyInt U R p = { (objFor R p.slot).1 with
      F := ((foldCasts (objFor R p.slot).1.next (F.edit E₂) ((U (F.edit E₂)).users (.inst p.inst.id))
        ).replaceAllUsesWith p.inst.id (.inst ((objFor R p.slot).1.next + 1))).eraseFromParent p.inst.id
      next := (objFor R p.slot).1.next + 2 } := by
    rw [← hE₂]
    simp only [applyInt, hop, if_false, newGep, ptrToInt]
  have heq : (applyInt U R p).F = ((F.edit (E₂.cast (objFor R p.slot).1.next
      (castIds ((U (F.edit E₂)).users (.inst p.inst.id))))).replaceAllUsesWith p.inst.id
      (.inst ((objFor R p.slot).1.next + 1))).eraseFromParent p.inst.id := by
    rw [happly, foldCasts_edit]
    · exact fun a ha => (h₁.entry a ha).1
    · intro a ha hmem
      have := hbelow _ hmem
      have := (h₁.entry a ha).2
      omega
  have hfilter : (E₂.cast (objFor R p.slot).1.next (castIds ((U (F.edit E₂)).users (.inst p.inst.id)))).new p.inst =
      [gepI8 (objFor R p.slot).1.next (objFor R p.slot).2 (.int 64 p.rel),
        ptrToInt (objFor R p.slot).1.next] ++ [p.inst] := by
    rw [cast_new, hself]
    refine List.filter_eq_self.mpr fun x hx => ?_
    simp only [decide_eq_true_eq]
    intro hmem
    have := hbelow _ hmem
    rcases List.mem_append.mp hx with hx | hx
    · have := (hxs x hx).1
      omega
    · rw [List.mem_singleton.mp hx] at hmem
      exact hnotid hmem
  obtain ⟨hframe, hext', hdone, hval⟩ := replace_frame (applyInt U R p) (E₂.cast _ _) hF hcframe hp
    (fun hid => hid.elim hT hnotid) (Nat.le_succ_of_le h₁.fresh) hxs
    ((cast_entry _ E₂).trans (cast_entry _ E₁).symm) (cast_subst _ rfl) hfilter
    (fun j hj hne => by rw [cast_new, cast_new, hother j hj hne])
    (by rw [happly]; exact Nat.le_add_right _ 2) (by rw [happly]) heq
  have hpred : (fun d => (T d ∨ d ∈ castIds ((U (F.edit E₂)).users (.inst p.inst.id))) ∨ d = p.inst.id) =
      fun d => T d ∨ (∃ j, CastOf F p j ∧ j.id = d) ∨ d = p.inst.id := by
    funext d
    rw [hids, or_assoc]
  rw [hpred] at hframe
  have hcasted : Ext F T (objFor R p.slot).1 E₁ { (objFor R p.slot).1 with
      F := F.edit (E₁.cast (objFor R p.slot).1.next (castIds ((U (F.edit E₂)).users (.inst p.inst.id)))) }
      (E₁.cast (objFor R p.slot).1.next (castIds ((U (F.edit E₂)).users (.inst p.inst.id)))) :=
    ⟨hcext.new, hcext.subst, hcext.objs⟩
  have hcall := hcasted.trans hext' fun _ => Or.inl
  refine ⟨_, _, _, hframe, hext.trans hcall fun _ h => h,
    { fresh := h₁.fresh
      lookup := by rw [happly]; exact hlookup
      cast := fun h => absurd h hop
      sum := fun _ => ⟨hdone, hval⟩
      casts := fun j hj => ?_ }⟩
  have hjid : j.id ∈ castIds ((U (F.edit E₂)).users (.inst p.inst.id)) := hids.mpr ⟨j, hj, rfl⟩
  obtain ⟨hold, holds⟩ := hcdone j hj.2.1 hjid
  exact ⟨(hext'.new j hj.2.1 (Or.inr hjid)).trans hold, (hext'.subst j.id (Or.inr hjid)).trans holds⟩

/-! ## Carrying out all plans -/

theorem GepDone.ext {p : GepPlan} (h : GepDone F R E p) (hp : p.gep ∈ F.instrs) (hT : T p.gep.id)
    (hext : Ext F T R E R' E') : GepDone F R' E' p := by
  obtain ⟨np, obj, hfresh, hlookup, hnew, hsubst⟩ := h
  exact ⟨np, obj, hfresh, hext.objs _ _ hlookup, (hext.new _ hp hT).trans hnew, (hext.subst _ hT).trans hsubst⟩

/-- The instructions that a plan for an integer replaces. -/
def IntPlan.Touches (F : Fn) (p : IntPlan) (d : Nat) : Prop := d = p.inst.id ∨ ∃ j, CastOf F p j ∧ j.id = d

theorem IntDone.ext {p : IntPlan} (h : IntDone F R E p np obj) (hp : p.inst ∈ F.instrs)
    (hT : ∀ d, p.Touches F d → T d) (hext : Ext F T R E R' E') : IntDone F R' E' p np obj where
  fresh := h.fresh
  lookup := hext.objs _ _ h.lookup
  cast hop := by
    obtain ⟨hnew, hsubst⟩ := h.cast hop
    exact ⟨(hext.new _ hp (hT _ (Or.inl rfl))).trans hnew, (hext.subst _ (hT _ (Or.inl rfl))).trans hsubst⟩
  sum hop := by
    obtain ⟨hnew, hsubst⟩ := h.sum hop
    exact ⟨(hext.new _ hp (hT _ (Or.inl rfl))).trans hnew, (hext.subst _ (hT _ (Or.inl rfl))).trans hsubst⟩
  casts j hj := by
    have hTj := hT j.id (Or.inr ⟨j, hj, rfl⟩)
    obtain ⟨hnew, hsubst⟩ := h.casts j hj
    exact ⟨(hext.new _ hj.2.1 hTj).trans hnew, (hext.subst _ hTj).trans hsubst⟩

theorem applyInt_frame {p : IntPlan} (hF : F.WellTyped) (h : Frame F T R E) (hp : p.inst ∈ F.instrs)
    (hT : ∀ d, p.Touches F d → ¬T d) :
    ∃ E' np obj, Frame F (fun d => T d ∨ p.Touches F d) (applyInt U R p) E' ∧ Ext F T R E (applyInt U R p) E' ∧
      IntDone F (applyInt U R p) E' p np obj := by
  by_cases hop : p.inst.op = .inttoptr
  · obtain ⟨E', np, obj, hframe, hext, hdone⟩ := applyInt_cast hF h hp (hT _ (Or.inl rfl)) hop
    have hpred : (fun d => T d ∨ d = p.inst.id) = fun d => T d ∨ p.Touches F d := by
      funext d
      refine propext (or_congr_right ⟨Or.inl, fun h => h.resolve_right ?_⟩)
      rintro ⟨j, hj, _⟩
      exact hj.1 hop
    exact ⟨E', np, obj, hpred ▸ hframe, hext, hdone⟩
  · obtain ⟨E', np, obj, hframe, hext, hdone⟩ := applyInt_sum hF h hp (hT _ (Or.inl rfl))
      (fun j hj => hT _ (Or.inr ⟨j, hj, rfl⟩)) hop
    have hpred : (fun d => T d ∨ (∃ j, CastOf F p j ∧ j.id = d) ∨ d = p.inst.id) =
        fun d => T d ∨ p.Touches F d := by
      funext d
      exact propext (or_congr_right or_comm)
    exact ⟨E', np, obj, hpred ▸ hframe, hext, hdone⟩

theorem applyGeps_frame (hF : F.WellTyped) (ps : List GepPlan) (h : Frame F T R E)
    (hps : ∀ p ∈ ps, p.gep ∈ F.instrs ∧ ¬T p.gep.id) (hnodup : (ps.map (·.gep.id)).Nodup)
    (hvar : ∀ p ∈ ps, ∀ var, p.varIdx = some var → (∀ id, T id → var ≠ .inst id) ∧
      ∀ q ∈ ps, var ≠ .inst q.gep.id) :
    ∃ E', Frame F (fun d => T d ∨ d ∈ ps.map (·.gep.id)) (ps.foldl applyGep R) E' ∧
      Ext F T R E (ps.foldl applyGep R) E' ∧ ∀ p ∈ ps, GepDone F (ps.foldl applyGep R) E' p := by
  induction ps generalizing T R E with
  | nil =>
    have hpred : (fun d => T d ∨ d ∈ ([] : List GepPlan).map (·.gep.id)) = T := by
      funext d
      simp
    rw [hpred]
    exact ⟨E, h, ⟨fun _ _ _ => rfl, fun _ _ => rfl, fun _ _ h => h⟩, by simp⟩
  | cons p ps ih =>
    obtain ⟨hp, hT⟩ := hps p (List.mem_cons_self ..)
    obtain ⟨hnot, hnodup⟩ := List.nodup_cons.mp hnodup
    obtain ⟨E₁, h₁, hext, hdone⟩ := applyGep_frame hF h hp hT fun var hv =>
      h.subst _ (hvar p (List.mem_cons_self ..) var hv).1
    obtain ⟨E', h', hext', hdones⟩ := ih h₁
      (fun q hq => ⟨(hps q (List.mem_cons_of_mem _ hq)).1, fun hin => by
        rcases hin with hin | hin
        · exact (hps q (List.mem_cons_of_mem _ hq)).2 hin
        · exact hnot (List.mem_map.mpr ⟨q, hq, hin⟩)⟩)
      hnodup fun q hq var hv => by
        obtain ⟨hold, hnew⟩ := hvar q (List.mem_cons_of_mem _ hq) var hv
        refine ⟨fun id hid => ?_, fun q' hq' => hnew q' (List.mem_cons_of_mem _ hq')⟩
        rcases hid with hid | rfl
        · exact hold id hid
        · exact hnew p (List.mem_cons_self ..)
    have hpred : (fun d => (T d ∨ d = p.gep.id) ∨ d ∈ ps.map (·.gep.id)) =
        fun d => T d ∨ d ∈ (p :: ps).map (·.gep.id) := by
      funext d
      rw [List.map_cons, List.mem_cons, or_assoc]
    rw [hpred] at h'
    refine ⟨E', h', hext.trans hext' fun _ => Or.inl, fun q hq => ?_⟩
    rcases List.mem_cons.mp hq with rfl | hq
    · exact hdone.ext hp (Or.inr rfl) hext'
    · exact hdones q hq

theorem applyInts_frame (hF : F.WellTyped) (ps : List IntPlan) (h : Frame F T R E)
    (hps : ∀ p ∈ ps, p.inst ∈ F.instrs ∧ ∀ d, p.Touches F d → ¬T d)
    (hdisj : ps.Pairwise fun p q => ∀ d, p.Touches F d → ¬q.Touches F d) :
    ∃ E', Frame F (fun d => T d ∨ ∃ p ∈ ps, p.Touches F d) (ps.foldl (applyInt U) R) E' ∧
      Ext F T R E (ps.foldl (applyInt U) R) E' ∧
      ∀ p ∈ ps, ∃ np obj, IntDone F (ps.foldl (applyInt U) R) E' p np obj := by
  induction ps generalizing T R E with
  | nil =>
    have hpred : (fun d => T d ∨ ∃ p ∈ ([] : List IntPlan), p.Touches F d) = T := by
      funext d
      simp
    rw [hpred]
    exact ⟨E, h, ⟨fun _ _ _ => rfl, fun _ _ => rfl, fun _ _ h => h⟩, by simp⟩
  | cons p ps ih =>
    obtain ⟨hp, hT⟩ := hps p (List.mem_cons_self ..)
    obtain ⟨hhead, hdisj⟩ := List.pairwise_cons.mp hdisj
    obtain ⟨E₁, np, obj, h₁, hext, hdone⟩ := applyInt_frame hF h hp hT
    obtain ⟨E', h', hext', hdones⟩ := ih h₁
      (fun q hq => ⟨(hps q (List.mem_cons_of_mem _ hq)).1, fun d hd hin => by
        rcases hin with hin | hin
        · exact (hps q (List.mem_cons_of_mem _ hq)).2 d hd hin
        · exact hhead q hq d hin hd⟩) hdisj
    have hpred : (fun d => (T d ∨ p.Touches F d) ∨ ∃ q ∈ ps, q.Touches F d) =
        fun d => T d ∨ ∃ q ∈ p :: ps, q.Touches F d := by
      funext d
      simp only [List.exists_mem_cons_iff, or_assoc]
    rw [hpred] at h'
    refine ⟨E', h', hext.trans hext' fun _ => Or.inl, fun q hq => ?_⟩
    rcases List.mem_cons.mp hq with rfl | hq
    · exact ⟨np, obj, hdone.ext hp (fun _ => Or.inr) hext'⟩
    · exact hdones q hq

end BpfTv.Ssa
