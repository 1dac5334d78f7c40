import BpfTv.Driver.InlineAsm

/-!
# Stripped inline asm

After `stripEmptyInlineAsm` and `replaceIdentityInlineAsm` the function is the one before, without
calls of empty inline asm and fields of their values, and with copies in the place of these (`stripped`).
What is erased has no effect, and nothing that is read has been lost (`Stripping.erasable`).
-/

namespace BpfTv.Ssa

open Control

variable {V W : Type} {F G : Fn} {U : ∀ F : Fn, F.UseLists} {D R : List Nat} {σ : Val → Val} {i j : Instr}
  {u : User} {v w : Val} {a id : Nat}

/-! ## Edits of an edited function -/

theorem erasing_start (F : Fn) : F = F.edit (.erasing [] fun v => v) := by
  have hnone : Edits.erasing [] (fun v => v) = {} := by
    unfold Edits.erasing
    congr 1
  rw [hnone, edit_none]

theorem erasing_erase : (F.edit (.erasing D σ)).eraseFromParent id = F.edit (.erasing (D ++ [id]) σ) := by
  rw [eraseFromParent_edit (by simp [Edits.erasing])]
  congr 1
  unfold Edits.erasing
  congr 1
  funext i
  by_cases hD : i.id ∈ D
  · simp [hD]
  · by_cases hid : i.id = id
    · simp [hid]
    · simp [hD, hid]

theorem erasing_replace : (F.edit (.erasing D σ)).replaceAllUsesWith id w =
    F.edit (.erasing D (Val.subst id w ∘ σ)) := by
  rw [replaceAllUsesWith_edit (by simp [Edits.erasing])]
  rfl

theorem erasing_congr {D' : List Nat} (h : ∀ a, a ∈ D ↔ a ∈ D') :
    F.edit (.erasing D σ) = F.edit (.erasing D' σ) := by
  have hnew : (Edits.erasing D σ).new = (Edits.erasing D' σ).new := by
    funext i
    show (if i.id ∈ D then [] else [i]) = if i.id ∈ D' then [] else [i]
    simp only [h]
  have hedits : Edits.erasing D σ = .erasing D' σ := by
    unfold Edits.erasing at hnew ⊢
    simp only [Edits.mk.injEq, and_true]
    exact hnew
  rw [hedits]

theorem mem_erasing : j ∈ (F.edit (.erasing D σ)).instrs ↔ ∃ i ∈ F.instrs, i.id ∉ D ∧ j = i.map σ := by
  rw [mem_instrs_edit rfl]
  constructor
  · rintro ⟨i, hi, x, hx, rfl⟩
    by_cases hD : i.id ∈ D
    · simp [Edits.erasing, hD] at hx
    · obtain rfl : x = i := by simpa [Edits.erasing, hD] using hx
      exact ⟨x, hi, hD, rfl⟩
  · rintro ⟨i, hi, hD, rfl⟩
    exact ⟨i, hi, i, by simp [Edits.erasing, hD], rfl⟩

theorem erasing_inst? (h : (F.edit (.erasing D σ)).inst? id = some j) :
    ∃ i ∈ F.instrs, i.id = id ∧ id ∉ D ∧ j = i.map σ := by
  have hmem := List.mem_of_find?_eq_some h
  have hid : j.id = id := by simpa using List.find?_some h
  obtain ⟨i, hi, hD, rfl⟩ := mem_erasing.mp hmem
  subst hid
  exact ⟨i, hi, rfl, hD, rfl⟩

theorem erasing_tyOf (hF : F.SsaForm) {ty : Ty} (h : (F.edit (.erasing D σ)).tyOf v = some ty) :
    F.tyOf v = some ty := by
  cases v with
  | inst a =>
    refine Fn.lookup_of_mem (by rw [Fn.map_typed_ids]; exact hF.nodup) ?_
    have hmem : (a, ty) ∈ (F.edit (.erasing D σ)).blocks.flatMap fun b =>
        b.phis.map (fun p => (p.id, p.ty)) ++ b.body.map fun i => (i.id, i.ty) := Fn.mem_of_lookup h
    rw [edit_blocks rfl, List.flatMap_map] at hmem
    obtain ⟨b, hb, hmem⟩ := List.mem_flatMap.mp hmem
    refine List.mem_flatMap.mpr ⟨b, hb, ?_⟩
    rcases List.mem_append.mp hmem with hphi | hbody
    · obtain ⟨p', hp', heq'⟩ := List.mem_map.mp hphi
      obtain ⟨p, hp, rfl⟩ := List.mem_map.mp hp'
      exact List.mem_append_left _ (List.mem_map.mpr ⟨p, hp, heq'⟩)
    · obtain ⟨j, hj, heq⟩ := List.mem_map.mp hbody
      obtain ⟨i, hi, hj⟩ := List.mem_flatMap.mp hj
      obtain ⟨x, hx, rfl⟩ := List.mem_map.mp hj
      have hxi : x = i := by
        unfold Edits.erasing at hx
        simp only at hx
        split at hx
        · cases hx
        · exact List.mem_singleton.mp hx
      subst hxi
      exact List.mem_append_right _ (List.mem_map.mpr ⟨x, hi, heq⟩)
  | _ => exact h

/-! ## Uses -/

theorem usedBy_erase (h : (G.eraseFromParent id).UsedBy v u) :
    G.UsedBy v u ∧ ∀ i, u = .instr i → i.id ≠ id := by
  cases h with
  | @instr i hi hv =>
    obtain ⟨b', hb', hi⟩ := Fn.mem_instrs.mp hi
    obtain ⟨b, hb, rfl⟩ := List.mem_map.mp hb'
    obtain ⟨x, hx, hi⟩ := List.mem_flatMap.mp hi
    split at hi
    · cases hi
    · rename_i hne
      obtain rfl := List.mem_singleton.mp hi
      refine ⟨.instr (Fn.mem_instrs.mpr ⟨b, hb, hx⟩) hv, fun j hj => ?_⟩
      obtain rfl := User.instr.inj hj
      exact hne
  | phi hb' hp hv =>
    obtain ⟨b, hb, rfl⟩ := List.mem_map.mp hb'
    exact ⟨.phi hb hp hv, nofun⟩
  | term hb' hv =>
    obtain ⟨b, hb, rfl⟩ := List.mem_map.mp hb'
    have huse : G.UsedBy v (.term b.term) := .term hb hv
    exact ⟨huse, nofun⟩

theorem usedBy_replace (h : (G.replaceAllUsesWith id w).UsedBy v u) :
    ∃ v₀ u₀, G.UsedBy v₀ u₀ ∧ Val.subst id w v₀ = v ∧
      ∀ i₀, u₀ = .instr i₀ → ∃ i, u = .instr i ∧ i.id = i₀.id := by
  cases h with
  | @instr i hi hv =>
    obtain ⟨b', hb', hi⟩ := Fn.mem_instrs.mp hi
    obtain ⟨b, hb, rfl⟩ := List.mem_map.mp hb'
    obtain ⟨x, hx, rfl⟩ := List.mem_map.mp hi
    obtain ⟨v₀, hv₀, rfl⟩ := List.mem_map.mp hv
    refine ⟨v₀, _, .instr (Fn.mem_instrs.mpr ⟨b, hb, hx⟩) hv₀, rfl, fun i₀ hi₀ => ⟨_, rfl, ?_⟩⟩
    obtain rfl := User.instr.inj hi₀
    rfl
  | phi hb' hp' hv =>
    obtain ⟨b, hb, rfl⟩ := List.mem_map.mp hb'
    obtain ⟨p, hp, rfl⟩ := List.mem_map.mp hp'
    obtain ⟨e, he, rfl⟩ := List.mem_map.mp hv
    obtain ⟨e₀, he₀, rfl⟩ := List.mem_map.mp he
    exact ⟨e₀.2, _, .phi hb hp (List.mem_map_of_mem he₀), rfl, nofun⟩
  | term hb' hv =>
    obtain ⟨b, hb, rfl⟩ := List.mem_map.mp hb'
    obtain ⟨v₀, hv₀, rfl⟩ := List.mem_map.mp hv
    exact ⟨v₀, _, .term hb hv₀, rfl, nofun⟩

theorem reads_used {c : SsaCfg V W} {M : Semantics V W} {world : W} (hc : F.Reaches M world c)
    (hnode : ∀ a ∈ D, c.node ≠ .body a) (h : c.Reads F v) : ∃ u, (F.edit (.erasing D σ)).UsedBy (σ v) u := by
  have hblock : ∀ {k : Nat} {b : Block}, F.blocks[k]? = some b →
      b.edit (.erasing D σ) ∈ (F.edit (.erasing D σ)).blocks := by
    intro k b hb
    rw [edit_blocks rfl]
    exact List.mem_map_of_mem (List.mem_of_getElem? hb)
  unfold SsaCfg.Reads at h
  split at h
  · obtain ⟨b, hb, p, hp, hin⟩ := h
    refine ⟨_, .phi (hblock hb) (List.mem_map_of_mem hp) ?_⟩
    exact List.mem_map.mpr ⟨(c.pred, σ v), List.mem_map.mpr ⟨_, hin, rfl⟩, rfl⟩
  · rename_i i rest hrest
    have hi := (fits_reaches hc).mem hrest (List.mem_cons_self ..)
    have hD : i.id ∉ D := fun hin => hnode _ hin (by rw [SsaCfg.node, hrest])
    exact ⟨_, .instr (mem_erasing.mpr ⟨i, hi, hD, rfl⟩) (List.mem_map_of_mem h)⟩
  · obtain ⟨b, hb, hv⟩ := h
    exact ⟨_, .term (hblock hb) (List.mem_map_of_mem hv)⟩

/-! ## The invariant -/

/-- An empty inline asm without a value. -/
def Instr.Barrier (i : Instr) : Prop := i.emptyAsm.isSome = true ∧ i.ty = .void

/-- The calls of inline asm that stay; the uses of an aggregate are looked at in `F₁`. -/
inductive Fn.Leaves (F F₁ : Fn) (ci : Instr) : Prop
  /-- The template has instructions. -/
  | template {ia : InlineAsm} (op : ci.op = .call (.asm ia)) (h : ia.asmString.isEmpty = false)
  /-- An output is indirect, or not tied to an input. -/
  | output {ia : InlineAsm} (op : ci.op = .call (.asm ia)) (ty : ci.ty ≠ .void)
      (h : tiedInputs ia.constraints ci.ops = none)
  /-- The only output has another type. -/
  | scalar {ia : InlineAsm} {outs : List Val} (op : ci.op = .call (.asm ia)) (ty : ci.ty ≠ .void)
      (struct : ci.ty.isStruct = false) (tied : tiedInputs ia.constraints ci.ops = some outs)
      (h : ∀ v, outs = [v] → F.tyOf v ≠ some ci.ty)
  /-- A use is not the extraction of an output, with its type. -/
  | aggregate {ia : InlineAsm} {outs : List Val} {u : User} (op : ci.op = .call (.asm ia))
      (struct : ci.ty.isStruct = true) (tied : tiedInputs ia.constraints ci.ops = some outs)
      (hu : u ∈ F₁.users (.inst ci.id)) (h : extracts F outs u = none)

/-- The function so far: `R` has been replaced or is dead, and `D` has been erased. What is dead has only
the uses `P`, given as pairs of value and user, unless it can never be available. -/
structure Stripping (F F₁ G : Fn) (D R : List Nat) (σ : Val → Val) (P : List (Nat × Nat)) : Prop where
  eq : G = F.edit (.erasing D σ)
  copies : ∀ v, Copies F v (σ v)
  instrs : ∀ a ∈ R, ∃ i ∈ F.instrs, i.id = a
  silent : ∀ i ∈ F.instrs, i.id ∈ R → Silent F i
  erased : ∀ a ∈ D, a ∈ R
  used : ∀ a ∈ R, ∀ u, G.UsedBy (.inst a) u → Relation.TransGen (Needs F) (.inst a) (.inst a) ∨
    ∃ i, u = .instr i ∧ (a, i.id) ∈ P
  types : ∀ v, F.tyOf (σ v) = F.tyOf v
  fixed : ∀ v, (∀ a ∈ R, v ≠ .inst a) → σ v = v
  operand : ∀ i ∈ F.instrs, i.id ∈ R → ∀ ks, i.op = .extractvalue ks → ∃ a ∈ R, i.ops = [.inst a]
  kinds : ∀ i ∈ F.instrs, i.id ∈ D → i.Barrier ∨ ∃ ks, i.op = .extractvalue ks
  left : ∀ i ∈ F.instrs, F.Leaves F₁ i → i.id ∉ R

variable {F₁ : Fn} {P : List (Nat × Nat)}

theorem Stripping.erase (h : Stripping F F₁ G D R σ P) (hid : id ∈ R)
    (hkind : ∀ i ∈ F.instrs, i.id = id → i.Barrier ∨ ∃ ks, i.op = .extractvalue ks) :
    Stripping F F₁ (G.eraseFromParent id) (D ++ [id]) R σ (P.filter (·.2 ≠ id)) where
  eq := by rw [h.eq, erasing_erase]
  copies := h.copies
  instrs := h.instrs
  silent := h.silent
  erased a ha := by
    rcases List.mem_append.mp ha with ha | ha
    · exact h.erased a ha
    · rwa [List.mem_singleton.mp ha]
  used a ha u hu := by
    obtain ⟨hu, hne⟩ := usedBy_erase hu
    refine (h.used a ha u hu).imp_right ?_
    rintro ⟨i, rfl, hP⟩
    exact ⟨i, rfl, List.mem_filter.mpr ⟨hP, by simpa using hne i rfl⟩⟩
  types := h.types
  fixed := h.fixed
  operand := h.operand
  kinds i hi ha := by
    rcases List.mem_append.mp ha with ha | ha
    · exact h.kinds i hi ha
    · exact hkind i hi (List.mem_singleton.mp ha)
  left := h.left

theorem Stripping.replace (h : Stripping F F₁ G D R σ P) (hF : F.SsaForm) (hi : i ∈ F.instrs)
    (hsilent : Silent F i) (hcopy : Copies F (.inst i.id) w) (hty : F.tyOf w = F.tyOf (.inst i.id))
    (hcyc : ∀ a, w = .inst a → a ∈ R ∨ a = i.id → Relation.TransGen (Needs F) (.inst a) (.inst a))
    (hop : ∀ ks, i.op = .extractvalue ks → ∃ a ∈ R, i.ops = [.inst a]) (hleft : ¬F.Leaves F₁ i) :
    Stripping F F₁ (G.replaceAllUsesWith i.id w) D (R ++ [i.id]) (Val.subst i.id w ∘ σ) P where
  eq := by rw [h.eq, erasing_replace]
  copies v := by
    show Copies F v (Val.subst i.id w (σ v))
    by_cases hv : σ v = .inst i.id
    · rw [hv, Val.subst_self]
      exact (hv ▸ h.copies v).trans hcopy
    · rw [Val.subst_ne hv]
      exact h.copies v
  instrs a ha := by
    rcases List.mem_append.mp ha with ha | ha
    · exact h.instrs a ha
    · exact ⟨i, hi, (List.mem_singleton.mp ha).symm⟩
  silent j hj ha := by
    rcases List.mem_append.mp ha with ha | ha
    · exact h.silent j hj ha
    · rw [hF.inj hj hi (List.mem_singleton.mp ha)]
      exact hsilent
  erased a ha := List.mem_append_left _ (h.erased a ha)
  used a ha u hu := by
    obtain ⟨v₀, u₀, hu₀, hsubst, huser⟩ := usedBy_replace hu
    by_cases hv₀ : v₀ = .inst i.id
    · rw [hv₀, Val.subst_self] at hsubst
      refine Or.inl (hcyc a hsubst ?_)
      exact (List.mem_append.mp ha).imp_right List.mem_singleton.mp
    · rw [Val.subst_ne hv₀] at hsubst
      subst hsubst
      have hne : a ≠ i.id := fun heq => hv₀ (heq ▸ rfl)
      have haR : a ∈ R := (List.mem_append.mp ha).resolve_right fun hin => hne (List.mem_singleton.mp hin)
      refine (h.used a haR u₀ hu₀).imp_right ?_
      rintro ⟨i₀, hi₀, hP⟩
      obtain ⟨i', rfl, hid⟩ := huser i₀ hi₀
      exact ⟨i', rfl, hid ▸ hP⟩
  types v := by
    show F.tyOf (Val.subst i.id w (σ v)) = _
    by_cases hv : σ v = .inst i.id
    · rw [hv, Val.subst_self, hty, ← hv, h.types]
    · rw [Val.subst_ne hv, h.types]
  fixed v hv := by
    have hσ := h.fixed v fun a ha => hv a (List.mem_append_left _ ha)
    show Val.subst i.id w (σ v) = v
    rw [hσ, Val.subst_ne (hv i.id (List.mem_append_right _ (List.mem_singleton_self _)))]
  operand j hj ha ks hks := by
    have hmem : ∃ b ∈ R, j.ops = [.inst b] := by
      rcases List.mem_append.mp ha with ha | ha
      · exact h.operand j hj ha ks hks
      · obtain rfl := hF.inj hj hi (List.mem_singleton.mp ha)
        exact hop ks hks
    obtain ⟨b, hb, hops⟩ := hmem
    exact ⟨b, List.mem_append_left _ hb, hops⟩
  kinds := h.kinds
  left j hj hleaves ha := by
    rcases List.mem_append.mp ha with ha | ha
    · exact h.left j hj hleaves ha
    · obtain rfl := hF.inj hj hi (List.mem_singleton.mp ha)
      exact hleft hleaves

/-- A field of the aggregate `agg`, with the input that takes its place; `A` is what has been replaced
when all fields have been. -/
structure FieldOf (F F₁ : Fn) (agg : Nat) (R A : List Nat) (e : Instr × Val) (ev : Instr) : Prop where
  mem : ev ∈ F.instrs
  id : ev.id = e.1.id
  silent : Silent F ev
  copies : Copies F (.inst ev.id) e.2
  types : F.tyOf e.2 = F.tyOf (.inst ev.id)
  cyclic : ∀ a, e.2 = .inst a → a ∈ A → Relation.TransGen (Needs F) (.inst a) (.inst a)
  op : ∃ ks, ev.op = .extractvalue ks
  operand : ∃ a ∈ R, ev.ops = [.inst a]
  left : ¬F.Leaves F₁ ev
  needs : Relation.ReflTransGen (Needs F) (.inst ev.id) (.inst agg)

theorem FieldOf.mono {agg : Nat} {R' A : List Nat} {e : Instr × Val} {ev : Instr}
    (h : FieldOf F F₁ agg R A e ev) (hR : ∀ a ∈ R, a ∈ R') : FieldOf F F₁ agg R' A e ev :=
  { h with operand := h.operand.imp fun _ ha => ⟨hR _ ha.1, ha.2⟩ }

theorem Stripping.extracts (hF : F.SsaForm) {agg : Nat} {A : List Nat} :
    ∀ (es : List (Instr × Val)) (S : Source) (D R : List Nat) (σ : Val → Val) (P : List (Nat × Nat)),
      Stripping F F₁ S.fn D R σ P → (∀ a ∈ R, a ∈ A) → (∀ e ∈ es, e.1.id ∈ A) →
      (∀ e ∈ es, ∃ ev, FieldOf F F₁ agg R A e ev) →
      ∃ D' R' σ', Stripping F F₁ (es.foldl Source.replaceExtract S).fn D' R' σ'
          (P.filter fun p => p.2 ∉ es.map (·.1.id)) ∧
        (∀ a ∈ R, a ∈ R') ∧ (∀ a ∈ D, a ∈ D') ∧ ∀ a ∈ R', a ∈ R ∨ a ∈ D' := by
  intro es
  induction es with
  | nil =>
    intro S D R σ P h _ _ _
    refine ⟨D, R, σ, ?_, fun _ ha => ha, fun _ ha => ha, fun _ ha => Or.inl ha⟩
    simpa using h
  | cons e es ih =>
    intro S D R σ P h hRA hA hes
    obtain ⟨ev, hev⟩ := hes e (List.mem_cons_self ..)
    have heA := hA e (List.mem_cons_self ..)
    have hrep := h.replace hF hev.mem hev.silent hev.copies hev.types
      (fun a ha hin => hev.cyclic a ha (hin.elim (hRA a) fun heq => by rw [heq, hev.id]; exact heA))
      (fun _ _ => hev.operand) hev.left
    have her := hrep.erase (show ev.id ∈ R ++ [ev.id] from List.mem_append_right _ (List.mem_singleton_self _))
      fun i hi hid => Or.inr (hF.inj hi hev.mem hid ▸ hev.op)
    have hfn : (S.replaceExtract e).fn = (S.fn.replaceAllUsesWith ev.id e.2).eraseFromParent ev.id := by
      rw [hev.id]
      rfl
    rw [← hfn] at her
    obtain ⟨D', R', σ', hS, hR, hD, hnew⟩ := ih (S.replaceExtract e) _ _ _ _ her
      (fun a ha => (List.mem_append.mp ha).elim (hRA a) fun hin => by
        rw [List.mem_singleton.mp hin, hev.id]
        exact heA)
      (fun e' he' => hA e' (List.mem_cons_of_mem _ he'))
      fun e' he' => (hes e' (List.mem_cons_of_mem _ he')).imp fun _ h =>
        h.mono fun a ha => List.mem_append_left _ ha
    refine ⟨D', R', σ', ?_, fun a ha => hR a (List.mem_append_left _ ha),
      fun a ha => hD a (List.mem_append_left _ ha), fun a ha => ?_⟩
    · rw [List.filter_filter] at hS
      have hP : (P.filter fun p => p.2 ∉ (e :: es).map (·.1.id)) =
          P.filter fun p => (p.2 ∉ es.map (·.1.id)) && (p.2 ≠ ev.id) := by
        refine List.filter_congr fun p _ => ?_
        rw [Bool.eq_iff_iff, hev.id]
        simp only [List.map_cons, List.mem_cons, not_or, decide_eq_true_eq, Bool.and_eq_true, ne_eq]
        exact and_comm
      rw [hP, List.foldl_cons]
      exact hS
    · rcases hnew a ha with ha | ha
      · rcases List.mem_append.mp ha with ha | ha
        · exact Or.inl ha
        · exact Or.inr (hD a (List.mem_append_right _ ha))
      · exact Or.inr ha

/-! ## One call -/

theorem extracts_iff {outs : List Val} {ev e : Instr} :
    Ssa.extracts F outs (.instr ev) = some (e, v) ↔
      e = ev ∧ ∃ k, ev.op = .extractvalue [k] ∧ outs[k]? = some v ∧ F.tyOf v = some ev.ty := by
  unfold Ssa.extracts
  constructor
  · intro h
    simp only at h
    split at h
    · rename_i k hop
      simp only [Option.bind_eq_bind, Option.bind_eq_some_iff, Option.guard_eq_some'] at h
      obtain ⟨x, hx, _, hty, h⟩ := h
      cases h
      exact ⟨rfl, k, hop, hx, hty⟩
    · cases h
  · rintro ⟨rfl, k, hop, hv, hty⟩
    simp [hop, hv, hty]

theorem identityCall_some {S S' : Source} {dead dead' : List Nat}
    (h : S.identityCall U dead id = some (S', dead')) :
    ∃ ci ia outs, S.fn.inst? id = some ci ∧ ci.emptyAsm = some ia ∧ ci.ty ≠ .void ∧
      tiedInputs ia.constraints ci.ops = some outs ∧ dead' = dead ++ [id] ∧
      ((ci.ty.isStruct = true ∧ ∃ evs, ((U S.fn).users (.inst id)).mapM (extracts S.fn outs) = some evs ∧
          S' = evs.foldl Source.replaceExtract S) ∨
        ci.ty.isStruct = false ∧ ∃ v, outs = [v] ∧ S.fn.tyOf v = some ci.ty ∧
          S' = S.replaceAllUsesWith id v) := by
  unfold Source.identityCall at h
  simp only [Option.bind_eq_bind, Option.bind_eq_some_iff, Option.guard_eq_some'] at h
  obtain ⟨ci, hci, ia, hasm, _, hty, outs, houts, h⟩ := h
  rw [outVal_eq] at houts
  split at h
  · rename_i hstruct
    simp only [Option.bind_eq_some_iff, Option.guard_eq_some'] at h
    obtain ⟨_, _, evs, hevs, h⟩ := h
    cases h
    exact ⟨ci, ia, outs, hci, hasm, hty, houts, rfl, Or.inl ⟨hstruct, evs, hevs, rfl⟩⟩
  · rename_i hstruct
    split at h
    · rename_i v
      simp only [Option.bind_eq_some_iff, Option.guard_eq_some'] at h
      obtain ⟨_, hv, h⟩ := h
      cases h
      exact ⟨ci, ia, [v], hci, hasm, hty, houts, rfl, Or.inr ⟨by simpa using hstruct, v, rfl, hv, rfl⟩⟩
    · cases h

theorem mapM_some_mem {α β : Type} {f : α → Option β} {xs : List α} {ys : List β} (h : xs.mapM f = some ys)
    {x : α} (hx : x ∈ xs) : ∃ y ∈ ys, f x = some y := by
  induction xs generalizing ys with
  | nil => cases hx
  | cons x' xs ih =>
    simp only [List.mapM_cons, Option.bind_eq_bind, Option.bind_eq_some_iff] at h
    obtain ⟨y, hy, ys, hys, h⟩ := h
    cases h
    rcases List.mem_cons.mp hx with rfl | hx
    · exact ⟨y, List.mem_cons_self .., hy⟩
    · obtain ⟨z, hz, hxz⟩ := ih hys hx
      exact ⟨z, List.mem_cons_of_mem _ hz, hxz⟩

/-- What strips the barriers. -/
structure Unbarred (F F₁ : Fn) (B : List Nat) : Prop where
  eq : F₁ = F.edit (.erasing B fun v => v)
  barrier : ∀ i ∈ F.instrs, i.Barrier → i.id ∈ B

theorem Stripping.user {B : List Nat} {ci : Instr} {outs : List Val} (h : Stripping F F₁ G D R σ [])
    (hF₁ : Unbarred F F₁ B) (hci : ci.id ∉ R) (hu : u ∈ F₁.users (.inst ci.id))
    (hnone : Ssa.extracts F outs u = none) (hF : F.SsaForm) :
    ∃ u' ∈ G.users (.inst ci.id), Ssa.extracts G (outs.map σ) u' = none := by
  have hfixed : σ (.inst ci.id) = .inst ci.id := h.fixed _ fun a ha heq => hci (Val.inst.inj heq ▸ ha)
  have hblock : ∀ {b : Block}, b ∈ F.blocks → b.edit (.erasing D σ) ∈ G.blocks := by
    intro b hb
    rw [h.eq, edit_blocks rfl]
    exact List.mem_map_of_mem hb
  have huse := mem_users.mp hu
  rw [hF₁.eq] at huse
  cases huse with
  | phi hb' hp' hv =>
    rw [edit_blocks rfl] at hb'
    obtain ⟨b, hb, rfl⟩ := List.mem_map.mp hb'
    obtain ⟨p, hp, rfl⟩ := List.mem_map.mp hp'
    obtain ⟨e', he', hev⟩ := List.mem_map.mp hv
    obtain ⟨e, he, rfl⟩ := List.mem_map.mp he'
    refine ⟨_, mem_users.mpr (.phi (hblock hb) (List.mem_map_of_mem hp) ?_), rfl⟩
    have hev' : e.2 = .inst ci.id := hev
    refine List.mem_map.mpr ⟨(e.1, σ e.2), List.mem_map.mpr ⟨e, he, rfl⟩, ?_⟩
    rw [hev', hfixed]
  | term hb' hv =>
    rw [edit_blocks rfl] at hb'
    obtain ⟨b, hb, rfl⟩ := List.mem_map.mp hb'
    obtain ⟨v₀, hv₀, hev⟩ := List.mem_map.mp hv
    refine ⟨_, mem_users.mpr (.term (hblock hb) ?_), rfl⟩
    have hev' : v₀ = .inst ci.id := hev
    exact List.mem_map.mpr ⟨v₀, hv₀, by rw [hev']; exact hfixed⟩
  | @instr i' hi' hv =>
    obtain ⟨i, hi, hB, rfl⟩ := mem_erasing.mp hi'
    rw [Instr.map_self] at hv hnone
    -- it has not been erased: it is no barrier, and no field of another aggregate
    have hD : i.id ∉ D := by
      intro hin
      rcases h.kinds i hi hin with hbar | ⟨ks, hop⟩
      · exact hB (hF₁.barrier i hi hbar)
      · obtain ⟨a, ha, hops⟩ := h.operand i hi (h.erased _ hin) ks hop
        rw [hops] at hv
        exact hci (Val.inst.inj (List.mem_singleton.mp hv) ▸ ha)
    have hmem : i.map σ ∈ G.instrs := by
      rw [h.eq]
      exact mem_erasing.mpr ⟨i, hi, hD, rfl⟩
    refine ⟨.instr (i.map σ), mem_users.mpr (.instr hmem ?_), ?_⟩
    · exact List.mem_map.mpr ⟨_, hv, hfixed⟩
    · cases hext : Ssa.extracts G (outs.map σ) (.instr (i.map σ)) with
      | none => rfl
      | some e =>
        obtain ⟨_, k, hop, hk, hty⟩ := extracts_iff.mp (show _ = some (e.1, e.2) from hext)
        rw [List.getElem?_map, Option.map_eq_some_iff] at hk
        obtain ⟨v, hk, hv'⟩ := hk
        rw [← hv', h.eq] at hty
        have hty' := erasing_tyOf hF hty
        rw [h.types] at hty'
        have hsome : Ssa.extracts F outs (.instr i) = some (i, v) :=
          extracts_iff.mpr ⟨rfl, k, hop, hk, hty'⟩
        rw [hsome] at hnone
        cases hnone

theorem Stripping.not_leaves {B : List Nat} {ci : Instr} {ia : InlineAsm} {outs : List Val}
    (h : Stripping F F₁ G D R σ []) (hF₁ : Unbarred F F₁ B) (hF : F.SsaForm) (hci : ci ∈ F.instrs)
    (hasm : ci.emptyAsm = some ia) (tied : tiedInputs ia.constraints ci.ops = some outs)
    (hcase : ci.ty.isStruct = true ∧
        (∀ u ∈ G.users (.inst ci.id), Ssa.extracts G (outs.map σ) u ≠ none) ∨
      ci.ty.isStruct = false ∧ ∃ v, outs = [v] ∧ F.tyOf v = some ci.ty) :
    ¬F.Leaves F₁ ci := by
  obtain ⟨hop, hempty⟩ := emptyAsm_some hasm
  intro hleaves
  have hnotin := h.left ci hci hleaves
  have hcallee : ∀ {ja : InlineAsm}, ci.op = .call (.asm ja) → ja = ia := by
    intro ja hop'
    rw [hop] at hop'
    exact (Callee.asm.inj (Op.call.inj hop')).symm
  cases hleaves with
  | template op hne =>
    rw [hcallee op, hempty] at hne
    cases hne
  | output op _ hnone =>
    rw [hcallee op, tied] at hnone
    cases hnone
  | scalar op _ hstruct tied' hne =>
    rw [hcallee op, tied] at tied'
    cases tied'
    rcases hcase with ⟨hstruct', _⟩ | ⟨_, v, rfl, hty⟩
    · rw [hstruct] at hstruct'
      cases hstruct'
    · exact hne v rfl hty
  | aggregate op hstruct tied' hu hnone =>
    rw [hcallee op, tied] at tied'
    cases tied'
    rcases hcase with ⟨_, hall⟩ | ⟨hstruct', _⟩
    · obtain ⟨u', hu', hnone'⟩ := h.user hF₁ hnotin hu hnone hF
      exact hall u' hu' hnone'
    · rw [hstruct] at hstruct'
      cases hstruct'

/-- What is dead has no uses left but those by the fields. -/
theorem Stripping.retire {ci : Instr} (h : Stripping F F₁ G D R σ []) (hF : F.SsaForm)
    (hci : ci ∈ F.instrs) (hsilent : Silent F ci) (hop : ∀ ks, ci.op ≠ .extractvalue ks)
    (hleft : ¬F.Leaves F₁ ci)
    (hused : ∀ u, G.UsedBy (.inst ci.id) u → ∃ i, u = .instr i ∧ (ci.id, i.id) ∈ P) :
    Stripping F F₁ G D (R ++ [ci.id]) σ P where
  eq := h.eq
  copies := h.copies
  instrs a ha := by
    rcases List.mem_append.mp ha with ha | ha
    · exact h.instrs a ha
    · exact ⟨ci, hci, (List.mem_singleton.mp ha).symm⟩
  silent j hj ha := by
    rcases List.mem_append.mp ha with ha | ha
    · exact h.silent j hj ha
    · rw [hF.inj hj hci (List.mem_singleton.mp ha)]
      exact hsilent
  erased a ha := List.mem_append_left _ (h.erased a ha)
  used a ha u hu := by
    rcases List.mem_append.mp ha with ha | ha
    · exact (h.used a ha u hu).imp_right fun ⟨_, _, hP⟩ => nomatch hP
    · rw [List.mem_singleton.mp ha] at hu ⊢
      exact Or.inr (hused u hu)
  types := h.types
  fixed v hv := h.fixed v fun a ha => hv a (List.mem_append_left _ ha)
  operand j hj ha ks hks := by
    rcases List.mem_append.mp ha with ha | ha
    · obtain ⟨b, hb, hops⟩ := h.operand j hj ha ks hks
      exact ⟨b, List.mem_append_left _ hb, hops⟩
    · obtain rfl := hF.inj hj hci (List.mem_singleton.mp ha)
      exact absurd hks (hop ks)
  kinds := h.kinds
  left j hj hleaves ha := by
    rcases List.mem_append.mp ha with ha | ha
    · exact h.left j hj hleaves ha
    · obtain rfl := hF.inj hj hci (List.mem_singleton.mp ha)
      exact hleft hleaves

theorem Stripping.fieldOf {ci : Instr} {ia : InlineAsm} {outs : List Val} {e : Instr × Val}
    {A : List Nat} (h : Stripping F F₁ G D R σ []) (hF : F.Verified) (hci : ci ∈ F.instrs)
    (hasm : ci.emptyAsm = some ia) (hstruct : ci.ty.isStruct = true)
    (tied : tiedInputs ia.constraints ci.ops = some outs) (hu : u ∈ G.users (.inst ci.id))
    (he : Ssa.extracts G (outs.map σ) u = some e)
    (hcyc : ∀ w₀ ∈ outs, ∀ a, σ w₀ = .inst a → a ∈ A → Relation.TransGen (Needs F) (.inst a) (.inst a)) :
    ∃ ev, FieldOf F F₁ ci.id (R ++ [ci.id]) A e ev := by
  obtain rfl := extracts_some he
  obtain ⟨_, k, hop, hk, hty⟩ := extracts_iff.mp (show _ = some (e.1, e.2) from he)
  obtain ⟨hin, hcall⟩ := Fn.mem_users_instr.mp hu
  rw [h.eq] at hin hty
  obtain ⟨ev, hev, _, hmap⟩ := mem_erasing.mp hin
  rw [hmap] at hop hcall hty
  obtain ⟨u₀, hops⟩ := hF.extractvalue ev hev [k] hop
  rw [Instr.map_ops, hops, List.map_singleton, List.mem_singleton] at hcall
  rw [List.getElem?_map, Option.map_eq_some_iff] at hk
  obtain ⟨w₀, hk, hw₀⟩ := hk
  have hu₀ : Copies F u₀ (.inst ci.id) := hcall ▸ h.copies u₀
  refine ⟨ev, hev, by rw [hmap, Instr.map_id], .field hev hop hops hu₀ hci hasm hstruct tied hk, ?_, ?_, ?_,
    ⟨_, hop⟩, ?_, ?_, ?_⟩
  · rw [← hw₀]
    exact .field hev hop hops hu₀ hci hasm hstruct tied hk (h.copies w₀)
  · rw [Fn.tyOf_inst hF.nodup hev]
    exact erasing_tyOf hF.toSsaForm hty
  · exact fun a ha hin => hcyc w₀ (List.mem_of_getElem? hk) a (hw₀.trans ha) hin
  · by_cases hfix : ∃ a ∈ R, u₀ = .inst a
    · obtain ⟨a, ha, rfl⟩ := hfix
      exact ⟨a, List.mem_append_left _ ha, hops⟩
    · have hσ := h.fixed u₀ fun a ha heq => hfix ⟨a, ha, heq⟩
      rw [hσ] at hcall
      exact ⟨ci.id, List.mem_append_right _ (List.mem_singleton_self _), by rw [hops, hcall]⟩
  · intro hleaves
    have hop' : ev.op = .extractvalue [k] := hop
    cases hleaves <;> simp_all
  · have hneeds : Needs F (.inst ev.id) u₀ := ⟨ev, hev, rfl, by rw [hops]; exact List.mem_singleton_self _⟩
    exact Relation.ReflTransGen.head hneeds hu₀.needs

theorem Stripping.call {B dead dead' : List Nat} {S S' : Source} (hF : F.Verified) (hF₁ : Unbarred F F₁ B)
    (h : Stripping F F₁ S.fn D R σ []) (hcall : S.identityCall U dead id = some (S', dead')) :
    dead' = dead ++ [id] ∧ ∃ D' R' σ', Stripping F F₁ S'.fn D' R' σ' [] ∧ id ∈ R' ∧
      (∀ a ∈ R, a ∈ R') ∧ (∀ a ∈ D, a ∈ D') ∧ ∀ a ∈ R', a ∈ R ∨ a = id ∨ a ∈ D' := by
  obtain ⟨ci', ia, outs', hci', hasm', hty', tied', rfl, hcase⟩ := identityCall_some hcall
  refine ⟨rfl, ?_⟩
  rw [h.eq] at hci'
  obtain ⟨ci, hci, rfl, hD, rfl⟩ := erasing_inst? hci'
  have hasm : ci.emptyAsm = some ia := hasm'
  obtain ⟨hop, hempty⟩ := emptyAsm_some hasm
  have hnotev : ∀ ks, ci.op ≠ .extractvalue ks := fun ks => by rw [hop]; nofun
  rw [Instr.map_ops, tiedInputs_map, Option.map_eq_some_iff] at tied'
  obtain ⟨outs, tied, rfl⟩ := tied'
  have hmem : ci.map σ ∈ S.fn.instrs := by
    rw [h.eq]
    exact mem_erasing.mpr ⟨ci, hci, hD, rfl⟩
  -- an input that is dead itself can never be available
  have hcyc : ∀ w₀ ∈ outs, ∀ a, σ w₀ = .inst a → a ∈ R →
      Relation.TransGen (Needs F) (.inst a) (.inst a) := by
    intro w₀ hw₀ a ha hin
    refine (h.used a hin (.instr (ci.map σ)) (.instr hmem ?_)).resolve_right fun ⟨_, _, hP⟩ => nomatch hP
    rw [← ha]
    exact List.mem_map_of_mem (mem_tiedInputs tied hw₀)
  have hself : ∀ w₀ ∈ outs, σ w₀ = .inst ci.id → Relation.TransGen (Needs F) (.inst ci.id) (.inst ci.id) := by
    intro w₀ hw₀ heq
    have hneeds : Needs F (.inst ci.id) w₀ := ⟨ci, hci, rfl, mem_tiedInputs tied hw₀⟩
    exact Relation.TransGen.head' hneeds (heq ▸ (h.copies w₀).needs)
  rcases hcase with ⟨hstruct, evs, hevs, rfl⟩ | ⟨hstruct, v, houts, hv, rfl⟩
  · have hall : ∀ u ∈ S.fn.users (.inst ci.id), ∃ e ∈ evs, Ssa.extracts S.fn (outs.map σ) u = some e :=
      fun u hu => mapM_some_mem hevs (((U S.fn).perm _).mem_iff.mpr hu)
    have hleft := h.not_leaves hF₁ hF.toSsaForm hci hasm tied (Or.inl ⟨hstruct, fun u hu hnone => by
      obtain ⟨e, _, he⟩ := hall u hu
      rw [hnone] at he
      cases he⟩)
    have hfield : ∀ {A : List Nat}, (∀ w₀ ∈ outs, ∀ a, σ w₀ = .inst a → a ∈ A →
        Relation.TransGen (Needs F) (.inst a) (.inst a)) → ∀ e ∈ evs,
        ∃ ev, FieldOf F F₁ ci.id (R ++ [ci.id]) A e ev := by
      intro A hA e he
      obtain ⟨u, hu, hue⟩ := mem_mapM_some hevs e he
      exact h.fieldOf hF hci hasm hstruct tied (((U S.fn).perm _).mem_iff.mp hu) hue hA
    -- a field is computed from the aggregate, and so is what its input may be a copy of
    have hcycA : ∀ w₀ ∈ outs, ∀ a, σ w₀ = .inst a → a ∈ R ++ [ci.id] ++ evs.map (·.1.id) →
        Relation.TransGen (Needs F) (.inst a) (.inst a) := by
      intro w₀ hw₀ a ha hin
      rcases List.mem_append.mp hin with hin | hin
      · rcases List.mem_append.mp hin with hin | hin
        · exact hcyc w₀ hw₀ a ha hin
        · rw [List.mem_singleton.mp hin] at ha ⊢
          exact hself w₀ hw₀ ha
      · obtain ⟨e, he, rfl⟩ := List.mem_map.mp hin
        obtain ⟨ev, hev⟩ := hfield (A := []) (fun _ _ _ _ hin => nomatch hin) e he
        have hneeds : Needs F (.inst ci.id) w₀ := ⟨ci, hci, rfl, mem_tiedInputs tied hw₀⟩
        have hback : Relation.ReflTransGen (Needs F) w₀ (.inst ev.id) := by
          rw [hev.id, ← ha]
          exact (h.copies w₀).needs
        rw [← hev.id]
        exact Relation.TransGen.trans_right hev.needs (Relation.TransGen.head' hneeds hback)
    have hretire := h.retire (P := evs.map fun e => (ci.id, e.1.id)) hF.toSsaForm hci
      (.struct hasm hstruct tied) hnotev hleft fun u hu => by
        obtain ⟨e, he, hue⟩ := hall u (mem_users.mpr hu)
        exact ⟨e.1, extracts_some hue, List.mem_map.mpr ⟨e, he, rfl⟩⟩
    obtain ⟨D', R', σ', hS, hR, hD', hnew⟩ := Stripping.extracts hF.toSsaForm evs S _ _ _ _ hretire
      (A := R ++ [ci.id] ++ evs.map (·.1.id)) (fun a ha => List.mem_append_left _ ha)
      (fun e he => List.mem_append_right _ (List.mem_map_of_mem he)) (hfield hcycA)
    have hP : ((evs.map fun e => (ci.id, e.1.id)).filter fun p => p.2 ∉ evs.map (·.1.id)) = [] := by
      refine List.filter_eq_nil_iff.mpr fun p hp => ?_
      obtain ⟨e, he, rfl⟩ := List.mem_map.mp hp
      simp only [decide_eq_true_eq, not_not]
      exact List.mem_map_of_mem he
    rw [hP] at hS
    refine ⟨D', R', σ', hS, hR _ (List.mem_append_right _ (List.mem_singleton_self _)),
      fun a ha => hR a (List.mem_append_left _ ha), hD', fun a ha => ?_⟩
    rcases hnew a ha with ha | ha
    · exact (List.mem_append.mp ha).imp_right fun hin => Or.inl (List.mem_singleton.mp hin)
    · exact Or.inr (Or.inr ha)
  · obtain ⟨w₀, rfl, rfl⟩ := List.map_eq_singleton_iff.mp houts
    have hw₀ : F.tyOf w₀ = some ci.ty := by
      rw [← h.types]
      rw [h.eq] at hv
      exact erasing_tyOf hF.toSsaForm hv
    have hleft := h.not_leaves hF₁ hF.toSsaForm hci hasm tied (Or.inr ⟨hstruct, w₀, rfl, hw₀⟩)
    refine ⟨D, R ++ [ci.id], _, h.replace hF.toSsaForm hci (.call hasm ⟨hty', hstruct⟩ tied)
      (.call hci hasm ⟨hty', hstruct⟩ tied (h.copies w₀)) ?_ ?_ (fun ks hks => absurd hks (hnotev ks)) hleft,
      List.mem_append_right _ (List.mem_singleton_self _), fun a ha => List.mem_append_left _ ha,
      fun a ha => ha, fun a ha => ?_⟩
    · rw [h.types, hw₀, Fn.tyOf_inst hF.nodup hci]
    · rintro a ha (hin | rfl)
      · exact hcyc w₀ (List.mem_singleton_self _) a ha hin
      · exact hself w₀ (List.mem_singleton_self _) ha
    · exact (List.mem_append.mp ha).imp_right fun hin => Or.inl (List.mem_singleton.mp hin)

/-! ## The two rewrites -/

/-- The barriers of a function. -/
def Fn.barriers (F : Fn) : List Nat :=
  (F.instrs.filter fun i => i.emptyAsm.isSome && i.ty = .void).map (·.id)

theorem foldl_erase {S : Source} (h : S.fn = F.edit (.erasing D σ)) (dead : List Nat) :
    (dead.foldl Source.erase S).fn = F.edit (.erasing (D ++ dead) σ) := by
  induction dead generalizing S D with
  | nil => rwa [List.append_nil]
  | cons d dead ih =>
    have hfn : (S.erase d).fn = F.edit (.erasing (D ++ [d]) σ) := by
      show S.fn.eraseFromParent d = _
      rw [h, erasing_erase]
    rw [List.foldl_cons, ih hfn, List.append_assoc]
    rfl

theorem strip_unbarred (S : Source) : Unbarred S.fn S.stripEmptyInlineAsm.fn S.fn.barriers where
  eq := by
    have h := foldl_erase (erasing_start S.fn) S.fn.barriers
    rw [List.nil_append, Fn.barriers, List.foldl_map] at h
    exact h
  barrier i hi hbar :=
    List.mem_map.mpr ⟨i, List.mem_filter.mpr ⟨hi, by simpa [Instr.Barrier] using hbar⟩, rfl⟩

theorem strip_stripping (hF : F.Verified) (h : Unbarred F F₁ F.barriers) :
    Stripping F F₁ F₁ F.barriers F.barriers (fun v => v) [] := by
  have hbarrier : ∀ a ∈ F.barriers, ∃ i ∈ F.instrs, i.id = a ∧ i.Barrier := by
    intro a ha
    obtain ⟨i, hi, rfl⟩ := List.mem_map.mp ha
    obtain ⟨hi, hbar⟩ := List.mem_filter.mp hi
    exact ⟨i, hi, rfl, by simpa [Instr.Barrier] using hbar⟩
  have hmem : ∀ i ∈ F.instrs, i.id ∈ F.barriers → i.Barrier := by
    intro i hi hin
    obtain ⟨j, hj, hid, hbar⟩ := hbarrier _ hin
    rwa [hF.inj hi hj hid.symm]
  have hsilent : ∀ i : Instr, i.Barrier → ∃ ia, i.emptyAsm = some ia := fun i hbar =>
    Option.isSome_iff_exists.mp hbar.1
  have hcall : ∀ i : Instr, i.Barrier → ∃ ia, i.op = .call (.asm ia) ∧ ia.asmString.isEmpty = true := by
    intro i hbar
    obtain ⟨ia, hia⟩ := hsilent i hbar
    exact ⟨ia, emptyAsm_some hia⟩
  exact
    { eq := h.eq
      copies := Copies.refl
      instrs := fun a ha => by
        obtain ⟨i, hi, hid, _⟩ := hbarrier a ha
        exact ⟨i, hi, hid⟩
      silent := fun i hi hin => by
        obtain ⟨ia, hia⟩ := hsilent i (hmem i hi hin)
        exact .void hia (hmem i hi hin).2
      erased := fun _ ha => ha
      used := fun a ha u hu => by
        obtain ⟨i, hi, rfl, hbar⟩ := hbarrier a ha
        rw [h.eq] at hu
        obtain ⟨v₀, hv₀, hcase⟩ := usedBy_edit (List.forall_mem_nil _) hu
        have huse : ∃ u₀, F.UsedBy (.inst i.id) u₀ := by
          have hv₀' : v₀ = .inst i.id := hv₀
          subst hv₀'
          rcases hcase with ⟨j, hj, x, hx, hv⟩ | ⟨u₀, hu₀, _⟩
          · have hxj : x = j := by
              unfold Edits.erasing at hx
              simp only at hx
              split at hx
              · cases hx
              · exact List.mem_singleton.mp hx
            exact ⟨_, .instr hj (hxj ▸ hv)⟩
          · exact ⟨u₀, hu₀⟩
        obtain ⟨u₀, hu₀⟩ := huse
        exact absurd hu₀ (hF.void i hi hbar.2 u₀)
      types := fun _ => rfl
      fixed := fun _ _ => rfl
      operand := fun i hi hin ks hks => by
        obtain ⟨ia, hop, _⟩ := hcall i (hmem i hi hin)
        rw [hks] at hop
        cases hop
      kinds := fun i hi hin => Or.inl (hmem i hi hin)
      left := fun i hi hleaves hin => by
        have hbar := hmem i hi hin
        obtain ⟨ia, hop, hempty⟩ := hcall i hbar
        cases hleaves with
        | template op hne =>
          rw [hop] at op
          cases op
          rw [hempty] at hne
          cases hne
        | output _ ty _ => exact ty hbar.2
        | scalar _ ty _ _ _ => exact ty hbar.2
        | aggregate _ struct _ _ _ =>
          rw [hbar.2] at struct
          cases struct }

/-- The loop over the calls. -/
theorem loop_stripping (hF : F.Verified) {B : List Nat} (hF₁ : Unbarred F F₁ B) :
    ∀ (ids : List Nat) (s : Source × List Nat) (D R : List Nat) (σ : Val → Val),
      Stripping F F₁ s.1.fn D R σ [] → (∀ a, a ∈ R ↔ a ∈ D ∨ a ∈ s.2) →
      ∃ D' R' σ', Stripping F F₁ (ids.foldl (Source.replaceIdentityCall U) s).1.fn D' R' σ' [] ∧
        ∀ a, a ∈ R' ↔ a ∈ D' ∨ a ∈ (ids.foldl (Source.replaceIdentityCall U) s).2 := by
  intro ids
  induction ids with
  | nil => exact fun s D R σ h hR => ⟨D, R, σ, h, hR⟩
  | cons id ids ih =>
    intro s D R σ h hR
    rw [List.foldl_cons]
    cases hcall : s.1.identityCall U s.2 id with
    | none =>
      have hs : Source.replaceIdentityCall U s id = s := by
        rw [Source.replaceIdentityCall, hcall]
        rfl
      rw [hs]
      exact ih s D R σ h hR
    | some s' =>
      have hs : Source.replaceIdentityCall U s id = s' := by
        rw [Source.replaceIdentityCall, hcall]
        rfl
      rw [hs]
      obtain ⟨hdead, D', R', σ', hS, hid, hRR', hDD', hnew⟩ := h.call hF hF₁ hcall
      refine ih s' D' R' σ' hS fun a => ⟨fun ha => ?_, fun ha => ?_⟩
      · rw [hdead]
        rcases hnew a ha with ha | rfl | ha
        · rcases (hR a).mp ha with ha | ha
          · exact Or.inl (hDD' a ha)
          · exact Or.inr (List.mem_append_left _ ha)
        · exact Or.inr (List.mem_append_right _ (List.mem_singleton_self _))
        · exact Or.inl ha
      · rw [hdead] at ha
        rcases ha with ha | ha
        · exact hS.erased a ha
        · rcases List.mem_append.mp ha with ha | ha
          · exact hRR' a ((hR a).mpr (Or.inr ha))
          · rw [List.mem_singleton.mp ha]
            exact hid

theorem stripped (S : Source) (hF : S.fn.Verified) :
    ∃ G D R σ, Stripping S.fn S.stripEmptyInlineAsm.fn G D R σ [] ∧
      (S.stripEmptyInlineAsm.replaceIdentityInlineAsm U).fn = S.fn.edit (.erasing R σ) := by
  have hF₁ := strip_unbarred S
  obtain ⟨D, R, σ, h, hR⟩ := loop_stripping hF hF₁ (S.stripEmptyInlineAsm.fn.instrs.map (·.id))
    (S.stripEmptyInlineAsm, []) S.fn.barriers S.fn.barriers (fun v => v) (strip_stripping hF hF₁) (by simp)
  refine ⟨_, D, R, σ, h, ?_⟩
  have hfold := foldl_erase h.eq ((S.stripEmptyInlineAsm.fn.instrs.map (·.id)).foldl
    (Source.replaceIdentityCall U) (S.stripEmptyInlineAsm, [])).2
  rw [erasing_congr fun a => (List.mem_append.trans (hR a).symm)] at hfold
  exact hfold

/-- What is erased in the end has no effect, and nothing that is read has been lost. -/
theorem Stripping.erasable {M : Semantics V W} (h : Stripping F F₁ G D R σ []) (hF : F.Verified)
    (hM : AsmIdentity M) (world : W) : Erasable F M world R σ where
  silent c i hc hi hnode hin := silent_run hF.toSsaForm hM (h.silent i hi hin) hc hnode
  reads c v hc hnode hreads := by
    obtain ⟨c₀, hc₀, henv, hav⟩ := hF.reads hc hreads
    refine ⟨fun a ha heq => ?_, ?_⟩
    · obtain ⟨u, hu⟩ := reads_used (D := D) (σ := σ) hc (fun b hb => hnode b (h.erased b hb)) hreads
      rw [← h.eq, heq] at hu
      have hcyc := (h.used a ha u hu).resolve_right fun ⟨_, _, hP⟩ => nomatch hP
      have hav' := (h.copies v).available hF.toSsaForm hav
      rw [heq] at hav'
      exact not_cyclic hF.toSsaForm ((stepsAlong F M world).reaches hc₀) hav' hcyc
    · rw [← henv]
      exact (copies_eval hF.toSsaForm hM (h.copies v) hc₀ hav).symm

end BpfTv.Ssa
