import BpfTv.Driver.SourceRewrites
import Mathlib.Data.Option.Basic

/-!
# The line map

The map of `addDebugInfo` points into a function that is rewritten before the streamer reads the map.
The rewrites of inline asm erase the entries of what they erase. `adjustSrc` does not: when it widens
the return value, the entries of the return instructions dangle (`line_map_liveness`).
-/

namespace BpfTv.Ssa

variable {F : Fn} {U : ∀ F : Fn, F.UseLists} {S S₀ S' S'' : Source} {id : Nat} {dead ids : List Nat}

/-- The instructions that are neither phis nor terminators. -/
def Fn.bodyIds (F : Fn) : List Nat := F.instrs.map (·.id)

/-- What an edit of the bodies leaves in place: the phis and the terminators. -/
def Fn.frame (F : Fn) : List (List Nat × Nat × TermOp) :=
  F.blocks.map fun b => (b.phis.map (·.id), b.term.id, b.term.op)

theorem mem_bodyIds : id ∈ F.bodyIds ↔ ∃ b ∈ F.blocks, id ∈ b.body.map (·.id) := by
  simp only [Fn.bodyIds, Fn.instrs, List.map_flatMap, List.mem_flatMap]

theorem bodyIds_subset (h : id ∈ F.bodyIds) : id ∈ F.members := by
  obtain ⟨b, hb, hid⟩ := mem_bodyIds.mp h
  exact List.mem_flatMap.mpr ⟨b, hb, List.mem_append_left _ (List.mem_append_right _ hid)⟩

/-! ## Edits of the bodies -/

theorem filter_body {xs : List Instr} :
    (xs.flatMap fun i => if i.id = id then [] else [i]).map (·.id) = (xs.map (·.id)).filter (· ≠ id) := by
  induction xs with
  | nil => rfl
  | cons x xs ih =>
    by_cases hx : x.id = id
    · simp [hx, ih]
    · simp [hx, ih]

theorem members_eraseFromParent (h : ∀ e ∈ F.frame, id ∉ e.1 ∧ e.2.1 ≠ id) :
    (F.eraseFromParent id).members = F.members.filter (· ≠ id) := by
  simp only [Fn.members, Fn.eraseFromParent, Fn.expand, List.flatMap_map, List.filter_flatMap]
  refine List.flatMap_congr fun b hb => ?_
  obtain ⟨hphis, hterm⟩ := h _ (List.mem_map_of_mem hb)
  have hkeep : (b.phis.map (·.id)).filter (· ≠ id) = b.phis.map (·.id) := by
    refine List.filter_eq_self.mpr fun x hx => ?_
    simp only [ne_eq, decide_not, Bool.not_eq_true', decide_eq_false_iff_not]
    rintro rfl
    exact hphis hx
  simp only [Block.members, List.filter_append, filter_body, hkeep]
  simp [hterm]

theorem frame_expand (f : Instr → List Instr) : (F.expand f).frame = F.frame := by
  simp [Fn.frame, Fn.expand, List.map_map, Function.comp_def]

theorem frame_map (f : Val → Val) : (F.map f).frame = F.frame := by
  simp [Fn.frame, Fn.map, Function.comp_def, Phi.map, Terminator.map]

theorem members_map (f : Val → Val) : (F.map f).members = F.members := by
  have hblock : ∀ b : Block, Block.members
      { phis := b.phis.map (·.map f), body := b.body.map (·.map f), term := b.term.map f } =
      b.members := by
    intro b
    simp [Block.members, Function.comp_def, Phi.map, Instr.map, Terminator.map]
  simp only [Fn.members, Fn.map, List.flatMap_map, hblock]

theorem bodyIds_map (f : Val → Val) : (F.map f).bodyIds = F.bodyIds := by
  simp [Fn.bodyIds, Fn.instrs, Fn.map, List.flatMap_map, List.map_flatMap, Function.comp_def, Instr.map]

theorem bodyIds_eraseFromParent : (F.eraseFromParent id).bodyIds = F.bodyIds.filter (· ≠ id) := by
  simp only [Fn.bodyIds, Fn.instrs, Fn.eraseFromParent, Fn.expand, List.flatMap_map]
  rw [List.map_flatMap, List.map_flatMap, List.filter_flatMap]
  exact List.flatMap_congr fun b _ => filter_body

theorem members_perm (F : Fn) :
    F.members.Perm ((F.blocks.flatMap fun b => b.phis.map (·.id) ++ [b.term.id]) ++ F.bodyIds) := by
  have hblock : ∀ b ∈ F.blocks,
      b.members.Perm ((b.phis.map (·.id) ++ [b.term.id]) ++ b.body.map (·.id)) := by
    intro b _
    rw [Block.members, List.append_assoc, List.append_assoc]
    exact List.perm_append_comm.append_left _
  have hperm := List.Perm.flatMap_left F.blocks hblock
  rw [Fn.bodyIds, Fn.instrs, List.map_flatMap]
  exact hperm.trans (List.flatMap_append_perm _ _ _).symm

theorem frame_of_body (h : F.members.Nodup) (hid : id ∈ F.bodyIds) :
    ∀ e ∈ F.frame, id ∉ e.1 ∧ e.2.1 ≠ id := by
  intro e he
  obtain ⟨b, hb, rfl⟩ := List.mem_map.mp he
  have hdisj := (List.nodup_append.mp ((members_perm F).nodup_iff.mp h)).2.2
  have hne : ∀ x ∈ b.phis.map (·.id) ++ [b.term.id], x ≠ id := fun x hx =>
    hdisj x (List.mem_flatMap.mpr ⟨b, hb, hx⟩) id hid
  exact ⟨fun hphi => hne id (List.mem_append_left _ hphi) rfl,
    hne _ (List.mem_append_right _ (List.mem_singleton_self _))⟩

/-! ## The rewrites of inline asm -/

/-- The instructions `dead` of the bodies of `S` have been erased, with their entries. -/
structure Erases (S : Source) (dead : List Nat) (S' : Source) : Prop where
  mem : ∀ id ∈ dead, id ∈ S.fn.bodyIds
  body : ∀ id ∈ S'.fn.bodyIds, id ∈ S.fn.bodyIds
  frame : S'.fn.frame = S.fn.frame
  members : S'.fn.members = S.fn.members.filter (· ∉ dead)
  lineMap : ∀ line, S'.lineMap line = (S.lineMap line).filter (· ∉ dead)
  next : S'.next = S.next
  retTy : S'.retTy = S.retTy
  widens : S'.widens = S.widens

theorem Erases.refl (S : Source) : Erases S [] S where
  mem := by simp
  body _ h := h
  frame := rfl
  members := by simp
  lineMap line := by
    cases S.lineMap line with
    | none => rfl
    | some x => rfl
  next := rfl
  retTy := rfl
  widens := rfl

theorem Erases.erase (h : Erases S dead S') (hS : S.fn.members.Nodup) (hid : id ∈ S.fn.bodyIds) :
    Erases S (dead ++ [id]) (S'.erase id) where
  mem x hx := by
    rcases List.mem_append.mp hx with hx | hx
    · exact h.mem x hx
    · rwa [List.mem_singleton.mp hx]
  body x hx := by
    rw [Source.erase, bodyIds_eraseFromParent] at hx
    exact h.body x (List.mem_of_mem_filter hx)
  frame := (frame_expand _).trans h.frame
  members := by
    have hframe := frame_of_body hS hid
    rw [← h.frame] at hframe
    rw [Source.erase, members_eraseFromParent hframe, h.members, List.filter_filter]
    refine List.filter_congr fun x _ => ?_
    simp [and_comm]
  lineMap line := by
    show Option.filter _ (S'.lineMap line) = _
    rw [h.lineMap]
    cases S.lineMap line with
    | none => rfl
    | some x => simp [Option.filter]; grind
  next := h.next
  retTy := h.retTy
  widens := h.widens

theorem Erases.replaceAllUsesWith (h : Erases S dead S') (old : Nat) (new : Val) :
    Erases S dead (S'.replaceAllUsesWith old new) where
  mem := h.mem
  body := by rw [Source.replaceAllUsesWith, Fn.replaceAllUsesWith, bodyIds_map]; exact h.body
  frame := (frame_map _).trans h.frame
  members := (members_map _).trans h.members
  lineMap := h.lineMap
  next := h.next
  retTy := h.retTy
  widens := h.widens

theorem Erases.foldl_erase (hS : S.fn.members.Nodup) {xs : List Nat} (hxs : ∀ id ∈ xs, id ∈ S.fn.bodyIds)
    (h : Erases S dead S') : Erases S (dead ++ xs) (xs.foldl Source.erase S') := by
  induction xs generalizing dead S' with
  | nil => rwa [List.append_nil]
  | cons x xs ih =>
    have h' := h.erase hS (hxs x (List.mem_cons_self ..))
    have hrest := ih (fun y hy => hxs y (List.mem_cons_of_mem _ hy)) h'
    rwa [List.append_assoc] at hrest

theorem stripEmptyInlineAsm_erases (hS : S.fn.members.Nodup) :
    ∃ dead, Erases S dead S.stripEmptyInlineAsm := by
  have hdead : ∀ id ∈ (S.fn.instrs.filter fun i => i.emptyAsm.isSome && i.ty = .void).map (·.id),
      id ∈ S.fn.bodyIds := by
    intro id hid
    obtain ⟨i, hi, rfl⟩ := List.mem_map.mp hid
    exact List.mem_map_of_mem (List.mem_of_mem_filter hi)
  have hfold := (Erases.refl S).foldl_erase hS hdead
  rw [List.foldl_map] at hfold
  exact ⟨_, hfold⟩

/-! ### The identities -/

theorem foldl_replaceExtract (hS : S.fn.members.Nodup) {es : List (Instr × Val)}
    (hes : ∀ e ∈ es, e.1.id ∈ S.fn.bodyIds) (h : Erases S dead S') :
    Erases S (dead ++ es.map (·.1.id)) (es.foldl Source.replaceExtract S') := by
  induction es generalizing dead S' with
  | nil => rwa [List.map_nil, List.append_nil]
  | cons e es ih =>
    have h' := (h.replaceAllUsesWith e.1.id e.2).erase hS (hes e (List.mem_cons_self ..))
    have hrest := ih (fun x hx => hes x (List.mem_cons_of_mem _ hx)) h'
    rwa [List.append_assoc] at hrest

theorem identityCall_erases (hS : S.fn.members.Nodup) {T T' : Source} {xs xs' : List Nat}
    (h : Erases S dead T) (hstep : T.identityCall U xs id = some (T', xs')) :
    (∃ dead', Erases S dead' T') ∧ xs' = xs ++ [id] := by
  unfold Source.identityCall at hstep
  simp only [Option.bind_eq_bind, Option.bind_eq_some_iff, Option.guard_eq_some'] at hstep
  obtain ⟨ci, _, ia, _, _, _, O, _, hstep⟩ := hstep
  split at hstep
  · simp only [Option.bind_eq_some_iff, Option.guard_eq_some'] at hstep
    obtain ⟨_, _, evs, hevs, hstep⟩ := hstep
    cases hstep
    -- each of them is a user of the call
    have hes : ∀ e ∈ evs, e.1.id ∈ S.fn.bodyIds := by
      intro e he
      obtain ⟨u, hu, hue⟩ := mem_mapM_some hevs e he
      rw [extracts_some hue] at hu
      exact h.body _ (List.mem_map_of_mem (Fn.mem_users_instr.mp (((U T.fn).perm _).mem_iff.mp hu)).1)
    exact ⟨⟨_, foldl_replaceExtract hS hes h⟩, rfl⟩
  · split at hstep
    · simp only [Option.bind_eq_some_iff, Option.guard_eq_some'] at hstep
      obtain ⟨_, _, hstep⟩ := hstep
      cases hstep
      exact ⟨⟨_, h.replaceAllUsesWith _ _⟩, rfl⟩
    · cases hstep

theorem replaceIdentityInlineAsm_erases (hS : S.fn.members.Nodup) :
    ∃ dead, Erases S dead (S.replaceIdentityInlineAsm U) := by
  have hloop : ∀ (xs : List Nat) (s : Source × List Nat), (∀ id ∈ xs, id ∈ S.fn.bodyIds) →
      (∀ id ∈ s.2, id ∈ S.fn.bodyIds) → (∃ dead, Erases S dead s.1) →
      (∀ id ∈ (xs.foldl (Source.replaceIdentityCall U) s).2, id ∈ S.fn.bodyIds) ∧
        ∃ dead, Erases S dead (xs.foldl (Source.replaceIdentityCall U) s).1 := by
    intro xs
    induction xs with
    | nil => exact fun s _ hs h => ⟨hs, h⟩
    | cons x xs ih =>
      intro s hxs hs ⟨dead, h⟩
      have hx := hxs x (List.mem_cons_self ..)
      refine ih _ (fun y hy => hxs y (List.mem_cons_of_mem _ hy)) ?_ ?_
      · intro id hid
        rw [Source.replaceIdentityCall] at hid
        cases hstep : s.1.identityCall U s.2 x with
        | none =>
          rw [hstep] at hid
          exact hs id hid
        | some s' =>
          rw [hstep] at hid
          have hmem : id ∈ s'.2 := hid
          rw [(identityCall_erases hS h hstep).2] at hmem
          rcases List.mem_append.mp hmem with hmem | hmem
          · exact hs id hmem
          · rwa [List.mem_singleton.mp hmem]
      · rw [Source.replaceIdentityCall]
        cases hstep : s.1.identityCall U s.2 x with
        | none => exact ⟨dead, h⟩
        | some s' => exact (identityCall_erases hS h hstep).1
  obtain ⟨hdead, _, h⟩ := hloop S.fn.bodyIds (S, []) (fun _ h => h) (by simp) ⟨_, Erases.refl S⟩
  exact ⟨_, h.foldl_erase hS hdead⟩

theorem rewriteHelperCall_id (i : Instr) : i.rewriteHelperCall.id = i.id := by
  unfold Instr.rewriteHelperCall
  split
  · split
    · rfl
    · rfl
  · rfl

theorem rewriteHelperCallsByNumber_erases : Erases S [] S.rewriteHelperCallsByNumber := by
  have hmap : ∀ xs : List Instr, (xs.flatMap fun i => [i.rewriteHelperCall]).map (·.id) = xs.map (·.id) := by
    intro xs
    induction xs with
    | nil => rfl
    | cons x xs ih => rw [List.flatMap_cons, List.map_append, ih, List.map_singleton, rewriteHelperCall_id]; rfl
  have hmembers : S.rewriteHelperCallsByNumber.fn.members = S.fn.members := by
    simp only [Source.rewriteHelperCallsByNumber, Fn.members, Fn.expand, List.flatMap_map]
    exact List.flatMap_congr fun b _ => by simp only [Block.members, hmap]
  have hbody : S.rewriteHelperCallsByNumber.fn.bodyIds = S.fn.bodyIds := by
    simp only [Source.rewriteHelperCallsByNumber, Fn.bodyIds, Fn.instrs, Fn.expand, List.flatMap_map]
    rw [List.map_flatMap, List.map_flatMap]
    exact List.flatMap_congr fun b _ => hmap b.body
  refine { Erases.refl S with body := ?_, frame := frame_expand _, members := ?_ }
  · rw [hbody]
    exact fun _ h => h
  · rw [hmembers]
    exact (Erases.refl S).members

/-! ## The return instructions -/

def retIds (bs : List Block) : List Nat := (bs.filter (·.term.op = .ret)).map (·.term.id)

def Fn.rets (F : Fn) : List Nat := retIds F.blocks

theorem rets_frame (F : Fn) : F.rets = (F.frame.filter (·.2.2 = .ret)).map (·.2.1) := by
  rw [Fn.rets, retIds, Fn.frame, List.filter_map, List.map_map]
  rfl

theorem retIds_subset {bs : List Block} (h : id ∈ retIds bs) : id ∈ bs.flatMap Block.members := by
  obtain ⟨b, hb, rfl⟩ := List.mem_map.mp h
  exact List.mem_flatMap.mpr ⟨b, List.mem_of_mem_filter hb,
    List.mem_append_right _ (List.mem_singleton_self _)⟩

theorem Erases.rets (h : Erases S dead S') : S'.fn.rets = S.fn.rets := by
  rw [rets_frame, rets_frame, h.frame]

theorem castChain_ids (n : Nat) (v : Val) (cs : List (RetCast × Ty)) :
    (Source.castChain n v cs).1.map (·.id) = List.range' n cs.length := by
  induction cs generalizing n v with
  | nil => rfl
  | cons c cs ih =>
    obtain ⟨c, ty⟩ := c
    rw [Source.castChain, List.map_cons, ih, List.length_cons, List.range'_succ]

theorem widenBlock_members {b b' : Block} {n n' : Nat} (h : S.widenBlock b n = .ok (b', n')) :
    n ≤ n' ∧ (b.term.op ≠ .ret ∧ b' = b ∨
      b.term.op = .ret ∧ b'.members = b.phis.map (·.id) ++ b.body.map (·.id) ++ List.range' n (n' - n)) := by
  unfold Source.widenBlock at h
  split at h
  · rename_i hret
    split at h
    · rename_i v _
      cases h
      refine ⟨by omega, Or.inr ⟨hret, ?_⟩⟩
      have hlen : n + S.casts.length + 1 - n = S.casts.length + 1 := by omega
      rw [hlen, List.range'_concat]
      simp [Block.members, castChain_ids]
    · cases h
  · rename_i hret
    cases h
    exact ⟨Nat.le_refl _, Or.inl ⟨hret, rfl⟩⟩

/-- The instructions of the widened function: those of the original one other than its return
instructions, and new ones. -/
theorem widenBlocks_members {bs bs' : List Block} {n n' : Nat} (h : S.widenBlocks bs n = .ok (bs', n'))
    (hlt : ∀ id ∈ bs.flatMap Block.members, id < n) (hnodup : (bs.flatMap Block.members).Nodup) :
    n ≤ n' ∧ (bs'.flatMap Block.members).Nodup ∧
      ∀ id ∈ bs'.flatMap Block.members,
        id ∈ bs.flatMap Block.members ∧ id ∉ retIds bs ∨ n ≤ id ∧ id < n' := by
  induction bs generalizing bs' n with
  | nil =>
    cases h
    exact ⟨Nat.le_refl _, hnodup, fun id hid => absurd hid List.not_mem_nil⟩
  | cons b bs ih =>
    obtain ⟨⟨b₁, n₁⟩, hb, h⟩ := except_bind_ok h
    obtain ⟨⟨bs₁, n₂⟩, hbs, h⟩ := except_bind_ok h
    cases h
    rw [List.flatMap_cons] at hlt hnodup
    obtain ⟨hnb, hnbs, hdisj⟩ := List.nodup_append.mp hnodup
    obtain ⟨hle, hblock⟩ := widenBlock_members hb
    obtain ⟨hle', hrest, hold⟩ := ih hbs (fun id hid =>
      Nat.lt_of_lt_of_le (hlt id (List.mem_append_right _ hid)) hle) hnbs
    have hret : ∀ id, id ∈ retIds (b :: bs) ↔ b.term.op = .ret ∧ id = b.term.id ∨ id ∈ retIds bs := by
      intro id
      by_cases hop : b.term.op = .ret
      · simp [retIds, hop]
      · simp [retIds, hop]
    -- the block is as it was, or its return instruction has made way for new instructions
    have hhead : b₁.members.Nodup ∧ ∀ id ∈ b₁.members,
        (id ∈ b.members ∧ ¬(b.term.op = .ret ∧ id = b.term.id)) ∨ n ≤ id ∧ id < n₁ := by
      rcases hblock with ⟨hop, rfl⟩ | ⟨hop, hmem⟩
      · exact ⟨hnb, fun id hid => Or.inl ⟨hid, fun h => hop h.1⟩⟩
      · rw [Block.members] at hnb
        obtain ⟨hbody, _, hterm⟩ := List.nodup_append.mp hnb
        rw [hmem]
        refine ⟨List.nodup_append.mpr ⟨hbody, List.nodup_range', fun x hx y hy => ?_⟩, fun id hid => ?_⟩
        · have hx' := hlt x (List.mem_append_left _ (List.mem_append_left _ hx))
          have hy' := (List.mem_range'_1.mp hy).1
          omega
        · rcases List.mem_append.mp hid with hid | hid
          · exact Or.inl ⟨List.mem_append_left _ hid,
              fun h => hterm id hid _ (List.mem_singleton_self _) h.2⟩
          · have hrange := List.mem_range'_1.mp hid
            exact Or.inr ⟨hrange.1, by omega⟩
    refine ⟨Nat.le_trans hle hle', ?_, fun id hid => ?_⟩
    · rw [List.flatMap_cons]
      refine List.nodup_append.mpr ⟨hhead.1, hrest, fun x hx y hy => ?_⟩
      rcases hhead.2 x hx with ⟨hx, _⟩ | hx
      · rcases hold y hy with ⟨hy, _⟩ | hy
        · exact hdisj x hx y hy
        · have hxn := hlt x (List.mem_append_left _ hx)
          omega
      · rcases hold y hy with ⟨hy, _⟩ | hy
        · have hyn := hlt y (List.mem_append_right _ hy)
          omega
        · omega
    · rw [List.flatMap_cons] at hid
      rw [List.flatMap_cons, hret]
      rcases List.mem_append.mp hid with hid | hid
      · rcases hhead.2 id hid with ⟨hid, hne⟩ | hid
        · refine Or.inl ⟨List.mem_append_left _ hid, not_or.mpr ⟨hne, fun hin => ?_⟩⟩
          exact hdisj id hid id (retIds_subset hin) rfl
        · exact Or.inr (by omega)
      · rcases hold id hid with ⟨hid, hne⟩ | hid
        · refine Or.inl ⟨List.mem_append_right _ hid, not_or.mpr ⟨?_, hne⟩⟩
          rintro ⟨_, rfl⟩
          exact hdisj _ (List.mem_append_right _ (List.mem_singleton_self _)) _ hid rfl
        · exact Or.inr (by omega)

theorem widenBlocks_eq {bs : List Block} (h : retIds bs = []) (n : Nat) :
    S.widenBlocks bs n = .ok (bs, n) := by
  induction bs with
  | nil => rfl
  | cons b bs ih =>
    have hop : b.term.op ≠ .ret := fun hop => by simp [retIds, hop] at h
    have hbs : retIds bs = [] := by
      have hmem : ∀ id ∈ retIds bs, id ∈ retIds (b :: bs) := by
        intro id hid
        simpa [retIds, hop] using hid
      rw [h] at hmem
      exact List.eq_nil_iff_forall_not_mem.mpr fun id hid => List.not_mem_nil (hmem id hid)
    rw [Source.widenBlocks, Source.widenBlock, if_neg hop]
    show (S.widenBlocks bs n >>= _) = _
    rw [ih hbs]
    rfl

/-! ## Sequences of rewrites -/

/-- No two instructions have one number, and the numbers from `next` on are free. -/
structure Source.Numbered (S : Source) : Prop where
  nodup : S.fn.members.Nodup
  lt : ∀ id ∈ S.fn.members, id < S.next

/-- The entries are those of `addDebugInfo` for the instructions that there are still. -/
structure Tracks (ids : List Nat) (S : Source) : Prop extends S.Numbered where
  lineMap : ∀ line id, S.lineMap line = some id ↔ ids[line]? = some id ∧ id ∈ S.fn.members

/-- An entry points to an instruction that has been erased. -/
structure Dangles (id : Nat) (S : Source) : Prop extends S.Numbered where
  entry : ∃ line, S.lineMap line = some id
  gone : id ∉ S.fn.members
  used : id < S.next

theorem Erases.numbered (h : Erases S dead S') (hS : S.Numbered) : S'.Numbered where
  nodup := by
    rw [h.members]
    exact hS.nodup.filter _
  lt id hid := by
    rw [h.members] at hid
    rw [h.next]
    exact hS.lt id (List.mem_of_mem_filter hid)

theorem Erases.lineMap_iff (h : Erases S dead S') (line id : Nat) :
    S'.lineMap line = some id ↔ S.lineMap line = some id ∧ id ∉ dead := by
  rw [h.lineMap, Option.filter_eq_some_iff]
  simp

theorem Erases.mem_members (h : Erases S dead S') (id : Nat) :
    id ∈ S'.fn.members ↔ id ∈ S.fn.members ∧ id ∉ dead := by
  rw [h.members, List.mem_filter]
  simp

theorem Erases.tracks (h : Erases S dead S') (ht : Tracks ids S) : Tracks ids S' where
  toNumbered := h.numbered ht.toNumbered
  lineMap line id := by
    rw [h.lineMap_iff, h.mem_members, ht.lineMap]
    tauto

theorem Erases.dangles (h : Erases S dead S') (hd : Dangles id S) : Dangles id S' where
  toNumbered := h.numbered hd.toNumbered
  entry := by
    obtain ⟨line, hline⟩ := hd.entry
    exact ⟨line, (h.lineMap_iff line id).mpr ⟨hline, fun hin => hd.gone (bodyIds_subset (h.mem id hin))⟩⟩
  gone hin := hd.gone ((h.mem_members id).mp hin).1
  used := h.next ▸ hd.used

theorem apply_cases {r : SourceRewrite} (hS : S.Numbered) (h : S.apply U r = .ok S') :
    (r ≠ .adjustSrc ∧ ∃ dead, Erases S dead S') ∨ r = .adjustSrc ∧ S.adjustSrc = .ok S' := by
  cases r with
  | stripEmptyInlineAsm =>
    cases h
    exact Or.inl ⟨nofun, stripEmptyInlineAsm_erases hS.nodup⟩
  | replaceIdentityInlineAsm =>
    cases h
    exact Or.inl ⟨nofun, replaceIdentityInlineAsm_erases hS.nodup⟩
  | rewriteHelperCallsByNumber =>
    cases h
    exact Or.inl ⟨nofun, _, rewriteHelperCallsByNumber_erases⟩
  | adjustSrc => exact Or.inr ⟨rfl, h⟩

theorem adjustSrc_ok (h : S.adjustSrc = .ok S') : S.widens = false ∧ S' = S ∨
    S.widens = true ∧ S'.widens = false ∧ S'.lineMap = S.lineMap ∧
      S.widenBlocks S.fn.blocks S.next = .ok (S'.fn.blocks, S'.next) := by
  have hret : S.widenReturns = .ok S' := by
    unfold Source.adjustSrc at h
    split at h
    · cases h
    · split at h
      · cases h
      · exact h
    · split at h
      · cases h
      · exact h
  unfold Source.widenReturns at hret
  by_cases hw : S.widens = true
  · rw [if_pos hw] at hret
    obtain ⟨⟨bs, n⟩, hbs, hret⟩ := except_bind_ok hret
    cases hret
    exact Or.inr ⟨hw, by simp [Source.widens, RetTy.bits], rfl, hbs⟩
  · rw [if_neg hw] at hret
    cases hret
    exact Or.inl ⟨by simpa using hw, rfl⟩

theorem adjustSrc_dangles (ht : Tracks ids S) (h : S.adjustSrc = .ok S') (hw : S.widens = true)
    (hret : id ∈ S.fn.rets) (hid : id ∈ ids) : Dangles id S' := by
  rcases adjustSrc_ok h with ⟨hw', _⟩ | ⟨_, _, hmap, hbs⟩
  · rw [hw] at hw'
    cases hw'
  · obtain ⟨hle, hnodup, hmem⟩ := widenBlocks_members hbs ht.lt ht.nodup
    have hin := retIds_subset hret
    have hused := ht.lt id hin
    refine ⟨⟨hnodup, fun x hx => ?_⟩, ?_, fun hgone => ?_, Nat.lt_of_lt_of_le hused hle⟩
    · rcases hmem x hx with ⟨hx, _⟩ | hx
      · exact Nat.lt_of_lt_of_le (ht.lt x hx) hle
      · exact hx.2
    · obtain ⟨line, hline⟩ := List.mem_iff_getElem?.mp hid
      rw [hmap]
      exact ⟨line, (ht.lineMap line id).mpr ⟨hline, hin⟩⟩
    · rcases hmem id hgone with ⟨_, hne⟩ | hnew
      · exact hne hret
      · omega

theorem run_cons {r : SourceRewrite} {rs : List SourceRewrite} (h : S.run U (r :: rs) = .ok S') :
    ∃ T, S.apply U r = .ok T ∧ T.run U rs = .ok S' := by
  rw [Source.run, List.foldlM_cons] at h
  exact except_bind_ok h

/-- A dangling entry stays. -/
theorem run_dangles {rs : List SourceRewrite} (hd : Dangles id S) (h : S.run U rs = .ok S') : Dangles id S' := by
  induction rs generalizing S with
  | nil =>
    cases h
    exact hd
  | cons r rs ih =>
    obtain ⟨T, hr, hrun⟩ := run_cons h
    refine ih ?_ hrun
    rcases apply_cases hd.toNumbered hr with ⟨_, dead, he⟩ | ⟨_, hadj⟩
    · exact he.dangles hd
    · rcases adjustSrc_ok hadj with ⟨_, rfl⟩ | ⟨_, _, hmap, hbs⟩
      · exact hd
      · obtain ⟨hle, hnodup, hmem⟩ := widenBlocks_members hbs hd.lt hd.nodup
        refine ⟨⟨hnodup, fun x hx => ?_⟩, ?_, fun hgone => ?_, Nat.lt_of_lt_of_le hd.used hle⟩
        · rcases hmem x hx with ⟨hx, _⟩ | hx
          · exact Nat.lt_of_lt_of_le (hd.lt x hx) hle
          · exact hx.2
        · rw [hmap]
          exact hd.entry
        · rcases hmem id hgone with ⟨hin, _⟩ | hnew
          · exact hd.gone hin
          · have hused := hd.used
            omega

/-- As long as `adjustSrc` has no return instruction to replace, the entries are those of the
instructions that there are. -/
theorem run_tracks {rs : List SourceRewrite} (ht : Tracks ids S)
    (hadj : .adjustSrc ∈ rs → S.widens = true → S.fn.rets = []) (h : S.run U rs = .ok S') : Tracks ids S' := by
  induction rs generalizing S with
  | nil =>
    cases h
    exact ht
  | cons r rs ih =>
    obtain ⟨T, hr, hrun⟩ := run_cons h
    rcases apply_cases ht.toNumbered hr with ⟨_, dead, he⟩ | ⟨rfl, hok⟩
    · refine ih (he.tracks ht) (fun hin hw => ?_) hrun
      rw [he.rets]
      exact hadj (List.mem_cons_of_mem _ hin) (he.widens ▸ hw)
    · rcases adjustSrc_ok hok with ⟨hw, rfl⟩ | ⟨hw, hw', hmap, hbs⟩
      · refine ih ht (fun _ hw' => ?_) hrun
        rw [hw] at hw'
        cases hw'
      · -- nothing is replaced
        rw [widenBlocks_eq (hadj (List.mem_cons_self ..) hw)] at hbs
        simp only [Except.ok.injEq, Prod.mk.injEq] at hbs
        have hmembers : T.fn.members = S.fn.members := by rw [Fn.members, Fn.members, hbs.1]
        refine ih ⟨⟨?_, ?_⟩, ?_⟩ (fun _ hw => ?_) hrun
        · rw [hmembers]
          exact ht.nodup
        · rw [hmembers, ← hbs.2]
          exact ht.lt
        · rw [hmembers, hmap]
          exact ht.lineMap
        · rw [hw'] at hw
          cases hw

/-- Otherwise an entry dangles from `adjustSrc` on. -/
theorem run_adjust {rs : List SourceRewrite} (ht : Tracks ids S) (hin : .adjustSrc ∈ rs) (hw : S.widens = true)
    (hret : id ∈ S.fn.rets) (hid : id ∈ ids) (h : S.run U rs = .ok S') : Dangles id S' := by
  induction rs generalizing S with
  | nil => cases hin
  | cons r rs ih =>
    obtain ⟨T, hr, hrun⟩ := run_cons h
    rcases apply_cases ht.toNumbered hr with ⟨hne, dead, he⟩ | ⟨rfl, hok⟩
    · refine ih (he.tracks ht) ?_ (he.widens.trans hw) (he.rets ▸ hret) hrun
      exact (List.mem_cons.mp hin).resolve_left fun heq => hne heq.symm
    · exact run_dangles (adjustSrc_dangles ht hok hw hret hid) hrun

/-! ## The map of `addDebugInfo` -/

/-- Every entry is null or an instruction of the function, and every instruction of the original
function that there still is has the line that `addDebugInfo` gave it. -/
structure LineMapLive (S₀ S : Source) : Prop where
  live : ∀ line id, S.lineMap line = some id → id ∈ S.fn.members
  keeps : ∀ line id, S₀.addDebugInfo.lineMap line = some id → id ∈ S.fn.members → S.lineMap line = some id

theorem addDebugInfo_lineMap (S : Source) (line : Nat) :
    S.addDebugInfo.lineMap line = S.fn.members[line]? := by
  show (BpfTv.addDebugInfo _).lineMap line = _
  rw [addDebugInfo_eq, (foldl_add _).2.2, ← List.flatMap_def]
  rfl

theorem addDebugInfo_tracks (hS : S.Numbered) : Tracks S.fn.members S.addDebugInfo where
  nodup := hS.nodup
  lt := hS.lt
  lineMap line id := by
    rw [addDebugInfo_lineMap]
    exact ⟨fun h => ⟨h, List.mem_of_getElem? h⟩, fun h => h.1⟩

/-- **Line-map liveness.** Whatever rewrites are applied, the line map is live if and only if the return
value is not widened by `adjustSrc` or the function does not return. -/
theorem line_map_liveness (S₀ : Source) (hS : S₀.Numbered) (rs : List SourceRewrite) (S : Source)
    (h : S₀.addDebugInfo.run U rs = .ok S) :
    LineMapLive S₀ S ↔ (.adjustSrc ∈ rs → S₀.widens = true → S₀.fn.rets = []) := by
  have ht := addDebugInfo_tracks hS
  constructor
  · intro hlive hin hw
    refine List.eq_nil_iff_forall_not_mem.mpr fun id hid => ?_
    have hd := run_adjust ht hin hw hid (retIds_subset hid) h
    obtain ⟨line, hline⟩ := hd.entry
    exact hd.gone (hlive.live line id hline)
  · intro hadj
    have ht' := run_tracks ht hadj h
    refine ⟨fun line id hline => ((ht'.lineMap line id).mp hline).2, fun line id hline hin => ?_⟩
    rw [addDebugInfo_lineMap] at hline
    exact (ht'.lineMap line id).mpr ⟨hline, hin⟩

/-- A `zeroext` function that passes its argument through a `barrier_var` and a barrier. -/
def barrierSource (w : Nat) : Source where
  fn :=
    { args := [.int w]
      blocks := [{
        body := [
          { id := 0, ty := .int w, ops := [.arg 0],
            op := .call (.asm ⟨"", [{ type := .isOutput, MatchingInput := 1 }, { type := .isInput }]⟩) },
          { id := 1, ty := .void, op := .call (.asm ⟨"", [{ type := .isClobber }]⟩), ops := [] }]
        term := { id := 2, op := .ret, ops := [.inst 0], succs := [] } }] }
  retTy := .int w
  zext := true
  next := 3

/-- The rewrites in the order of the driver. -/
def allRewrites : List SourceRewrite :=
  [.stripEmptyInlineAsm, .replaceIdentityInlineAsm, .rewriteHelperCallsByNumber, .adjustSrc]

theorem barrierSource_numbered (w : Nat) : (barrierSource w).Numbered where
  nodup := by
    show [0, 1, 2].Nodup
    decide
  lt := by
    show ∀ id ∈ [0, 1, 2], id < 3
    decide

example : ((barrierSource 32).addDebugInfo.run Fn.useLists allRewrites).toOption.map (·.fn.members) = some [2] := by
  decide

theorem line_map_liveness_zext32 :
    ∃ S, (barrierSource 32).addDebugInfo.run Fn.useLists allRewrites = .ok S ∧ LineMapLive (barrierSource 32) S := by
  obtain ⟨S, hS⟩ := ok_of_isSome (x := (barrierSource 32).addDebugInfo.run Fn.useLists allRewrites) (by decide)
  exact ⟨S, hS, (line_map_liveness _ (barrierSource_numbered 32) _ S hS).mpr
    fun _ hw => absurd hw (by decide)⟩

/-- The return instruction of a `zeroext i8` function is replaced, and its entry stays. -/
theorem line_map_liveness_fails :
    ∃ S, (barrierSource 8).addDebugInfo.run Fn.useLists allRewrites = .ok S ∧ S.lineMap 2 = some 2 ∧
      2 ∉ S.fn.members ∧ ¬LineMapLive (barrierSource 8) S := by
  obtain ⟨S, hS⟩ := ok_of_isSome (x := (barrierSource 8).addDebugInfo.run Fn.useLists allRewrites) (by decide)
  have hview : ((barrierSource 8).addDebugInfo.run Fn.useLists allRewrites).toOption.map
      (fun S => (S.lineMap 2, S.fn.members)) = some (some 2, [3, 4]) := by decide
  rw [hS] at hview
  simp only [Except.toOption, Option.map_some, Option.some.injEq, Prod.mk.injEq] at hview
  have hgone : 2 ∉ S.fn.members := by
    rw [hview.2]
    decide
  exact ⟨S, hS, hview.1, hgone, fun hlive => hgone (hlive.live 2 2 hview.1)⟩

end BpfTv.Ssa
