import BpfTv.Driver.LineMap
import BpfTv.Driver.StrippedRuns
import BpfTv.Llvm.Extend

/-!
# Runs of the rewritten source function

The function that the verifier takes for the source is the source function after its inline asm has been
stripped, its helpers have got names and `adjustSrc` has widened what it returns. It has the runs of the source
function, and it returns what that returns, extended as the attributes say (`source_rewrites`).
-/

namespace BpfTv.Ssa

variable {V W : Type} {F G : Fn} {U : ∀ F : Fn, F.UseLists} {M : Semantics V W} {S S' : Source}
  {cast : RetCast → Ty → Datum V → Datum V} {next n n' : Nat} {v w : Val}

/-! ## What the rewrites rely on -/

/-- A call of a number is a call of the external function that stands for the helper. -/
def HelperNumbers (M : Semantics V W) : Prop :=
  ∀ (w : Nat) (id : BitVec w) (ty : Ty) xs world, id.msb = false →
    M.exec (.call (.number w id)) ty xs world =
      M.exec (.call (.function ("__bpf_helper_" ++ toString id.toNat))) ty xs world

/-- What the casts make of a value. -/
structure Casts (M : Semantics V W) (cast : RetCast → Ty → Datum V → Datum V) : Prop where
  exec : ∀ c ty x world, M.exec c.op ty [x] world = some (cast c ty x, world)
  zext : ∀ w w' (x : BitVec w), w < w' → cast .zext (.int w') (.int w x) = .int w' (x.setWidth w')
  sext : ∀ w w' (x : BitVec w), w < w' → cast .sext (.int w') (.int w x) = .int w' (x.signExtend w')

/-- What is returned in the place of `x`. -/
def Source.returned (S : Source) (cast : RetCast → Ty → Datum V → Datum V) (x : Datum V) : Datum V :=
  if S.widens then S.casts.foldl (fun y c => cast c.1 c.2 y) x else x

/-- An integer of `n` bits as the attributes want it in a register: extended to 64 bits, by way of 32 bits when
it has a sign and is narrower. -/
def widened (zext : Bool) {n : Nat} (x : BitVec n) : BitVec 64 :=
  if zext then x.setWidth 64 else if n < 32 then (x.signExtend 32).setWidth 64 else x.signExtend 64

theorem returned_int (hC : Casts M cast) {n : Nat} (hret : S.retTy = .int n) (hn : n ≤ 64) (hw : S.widens = true)
    (x : BitVec n) : S.returned cast (.int n x) = .int 64 (widened S.zext x) := by
  have hne : n ≠ 64 := by
    rintro rfl
    simp [Source.widens, hret, RetTy.bits] at hw
  rw [Source.returned, if_pos hw, Source.casts, hret, widened]
  show (if S.zext = true then _ else if n < 32 then _ else _ : List (RetCast × Ty)).foldl _ _ = _
  by_cases hz : S.zext = true
  · rw [if_pos hz, if_pos hz]
    exact hC.zext n 64 x (by omega)
  · rw [if_neg hz, if_neg hz]
    by_cases hlt : n < 32
    · rw [if_pos hlt, if_pos hlt]
      show cast .zext (.int 64) (cast .sext (.int 32) (.int n x)) = _
      rw [hC.sext n 32 x hlt, hC.zext 32 64 _ (by decide)]
    · rw [if_neg hlt, if_neg hlt]
      exact hC.sext n 64 x (by omega)

/-! ## Helpers -/

theorem rewriteHelperCall_ops (i : Instr) : i.rewriteHelperCall.ops = i.ops := by
  unfold Instr.rewriteHelperCall
  split
  · split <;> rfl
  · rfl

theorem rewriteHelper_relabels (hM : HelperNumbers M) (F : Fn) : F.Relabels M Instr.rewriteHelperCall where
  id i _ := rewriteHelperCall_id i
  ops i _ := rewriteHelperCall_ops i
  run i _ xs world := by
    unfold Instr.rewriteHelperCall
    split
    · rename_i w id hop
      split
      · rfl
      · rename_i hmsb
        show M.run (.call (.function _)) i.ty xs world = _
        rw [hop, run_exec rfl, run_exec rfl, hM w id i.ty xs world (by simpa using hmsb)]
    · rfl

/-! ## Casts -/

theorem castChain_silently (hC : Casts M cast) (cs : List (RetCast × Ty)) (n : Nat) (hn : next ≤ n) (v : Val)
    (ρ : SsaEnv V) : ∃ ρ', Silently M next (Source.castChain n v cs).1 ρ ρ' ∧
      (Source.castChain n v cs).2.eval M ρ' = cs.foldl (fun y c => cast c.1 c.2 y) (v.eval M ρ) := by
  induction cs generalizing n v ρ with
  | nil => exact ⟨ρ, .nil ρ, rfl⟩
  | cons c cs ih =>
    obtain ⟨c, ty⟩ := c
    obtain ⟨ρ', hsil, heval⟩ := ih (n + 1) (by omega) (.inst n)
      (Function.update ρ n (cast c ty (v.eval M ρ)))
    refine ⟨ρ', .cons hn (fun world => ?_) hsil, ?_⟩
    · have haddr : c.op.isAddress ty = false := by cases c <;> rfl
      show M.run c.op ty [v.eval M ρ] world = _
      rw [run_exec haddr]
      exact hC.exec c ty _ world
    · refine heval.trans ?_
      show cs.foldl _ (Function.update ρ n (cast c ty (v.eval M ρ)) n) = _
      rw [Function.update_self]
      rfl

theorem widenBlock_extended (hC : Casts M cast) (hw : S.widens = true) {b b' : Block}
    (h : S.widenBlock b n = .ok (b', n')) (hn : next ≤ n) (hsuccs : b.term.op = .ret → b.term.succs = []) :
    n ≤ n' ∧ b.Extended M next (S.returned cast) b' := by
  unfold Source.widenBlock at h
  split at h
  · rename_i hop
    split at h
    · rename_i retVal hops
      cases h
      refine ⟨by omega, rfl, rfl, fun hne => absurd hop hne, fun _ => ⟨hsuccs hop, _, rfl, fun ρ => ?_⟩⟩
      obtain ⟨ρ', hsil, heval⟩ := castChain_silently hC S.casts n hn retVal ρ
      refine ⟨ρ', hsil, ?_⟩
      rw [hops]
      show [(Source.castChain n retVal S.casts).2.eval M ρ'] = [S.returned cast (retVal.eval M ρ)]
      rw [heval, Source.returned, if_pos hw]
    · cases h
  · rename_i hop
    cases h
    exact ⟨Nat.le_refl _, rfl, rfl, fun _ => rfl, fun h => absurd h hop⟩

theorem widenBlocks_extended (hC : Casts M cast) (hw : S.widens = true) {bs bs' : List Block}
    (h : S.widenBlocks bs n = .ok (bs', n')) (hn : next ≤ n)
    (hsuccs : ∀ b ∈ bs, b.term.op = .ret → b.term.succs = []) :
    List.Forall₂ (Block.Extended M next (S.returned cast)) bs bs' := by
  induction bs generalizing bs' n with
  | nil =>
    cases h
    exact .nil
  | cons b bs ih =>
    obtain ⟨⟨b₁, n₁⟩, hb, h⟩ := except_bind_ok h
    obtain ⟨⟨bs₁, n₂⟩, hbs, h⟩ := except_bind_ok h
    cases h
    obtain ⟨hle, hext⟩ := widenBlock_extended hC hw hb hn (hsuccs b (List.mem_cons_self ..))
    exact .cons hext (ih hbs (by omega) fun b hb => hsuccs b (List.mem_cons_of_mem _ hb))

/-! ## What stripping leaves -/

theorem foldl_zext {α : Type} (f : Source → α → Source) (hf : ∀ S a, (f S a).zext = S.zext) (xs : List α)
    (S : Source) : (xs.foldl f S).zext = S.zext := by
  induction xs generalizing S with
  | nil => rfl
  | cons x xs ih => rw [List.foldl_cons, ih, hf]

theorem identityCall_zext {dead dead' : List Nat} {id : Nat} (h : S.identityCall U dead id = some (S', dead')) :
    S'.zext = S.zext := by
  simp only [Source.identityCall, Option.bind_eq_bind, Option.bind_eq_some_iff] at h
  obtain ⟨ci, _, ia, _, _, _, outs, _, h⟩ := h
  split at h
  · simp only [Option.bind_eq_some_iff] at h
    obtain ⟨_, _, evs, _, h⟩ := h
    cases h
    exact foldl_zext Source.replaceExtract (fun _ _ => rfl) evs S
  · split at h
    · simp only [Option.bind_eq_some_iff] at h
      obtain ⟨_, _, h⟩ := h
      cases h
      rfl
    · cases h

theorem stripped_zext (S : Source) : (S.stripEmptyInlineAsm.replaceIdentityInlineAsm U).zext = S.zext := by
  have hloop : ∀ (ids : List Nat) (s : Source × List Nat),
      (ids.foldl (Source.replaceIdentityCall U) s).1.zext = s.1.zext := by
    intro ids
    induction ids with
    | nil => exact fun _ => rfl
    | cons id ids ih =>
      intro s
      rw [List.foldl_cons, ih, Source.replaceIdentityCall]
      cases h : s.1.identityCall U s.2 id with
      | none => rfl
      | some r => exact identityCall_zext h
  rw [Source.replaceIdentityInlineAsm]
  show (List.foldl Source.erase _ _).zext = _
  rw [foldl_zext Source.erase fun _ _ => rfl, hloop]
  exact foldl_zext (fun (S : Source) (ci : Instr) => S.erase ci.id) (fun _ _ => rfl) _ S

theorem Copies.used (h : Copies F v w) {u : User} (hu : F.UsedBy v u) : ∃ u', F.UsedBy w u' := by
  induction h generalizing u with
  | refl => exact ⟨u, hu⟩
  | call hci _ _ tied _ ih => exact ih (.instr hci (mem_tiedInputs tied (List.mem_singleton_self _)))
  | field _ _ _ _ hci _ _ tied hk _ _ ih => exact ih (.instr hci (mem_tiedInputs tied (List.mem_of_getElem? hk)))

theorem erasing_closed (hF : F.SsaForm) {D : List Nat} {σ : Val → Val} (hσ : ∀ v, Copies F v (σ v)) {a : Nat}
    {u : User} (h : (F.edit (.erasing D σ)).UsedBy (.inst a) u) : a ∈ F.ids := by
  obtain ⟨v₀, hv₀, huse⟩ := usedBy_edit (List.forall_mem_nil _) h
  have hused : ∃ u₀, F.UsedBy v₀ u₀ := by
    rcases huse with ⟨i, hi, x, hx, hv⟩ | ⟨u₀, hu₀, _⟩
    · have hxi : x = i := by
        unfold Edits.erasing at hx
        simp only at hx
        split at hx
        · cases hx
        · exact List.mem_singleton.mp hx
      exact ⟨_, .instr hi (hxi ▸ hv)⟩
    · exact ⟨u₀, hu₀⟩
  obtain ⟨u₀, hu₀⟩ := hused
  obtain ⟨u', hu'⟩ := (hσ v₀).used hu₀
  have hv : σ v₀ = .inst a := hv₀
  exact hF.closed a u' (hv ▸ hu')

theorem usedBy_relabel {f : Instr → Instr} (hf : ∀ i, (f i).ops = i.ops) {u : User}
    (h : (F.relabel f).UsedBy v u) : ∃ u', F.UsedBy v u' := by
  cases h with
  | instr hi hv =>
    rw [Fn.relabel, Fn.instrs_expand] at hi
    obtain ⟨i, hi, hmem⟩ := List.mem_flatMap.mp hi
    rw [List.mem_singleton.mp hmem, hf] at hv
    exact ⟨_, .instr hi hv⟩
  | phi hb hp hv =>
    obtain ⟨b, hmem, rfl⟩ := List.mem_map.mp hb
    exact ⟨_, .phi hmem hp hv⟩
  | term hb hv =>
    obtain ⟨b, hmem, rfl⟩ := List.mem_map.mp hb
    exact ⟨_, .term hmem hv⟩

theorem Fn.ids_subset_members {a : Nat} (h : a ∈ F.ids) : a ∈ F.members := by
  obtain ⟨b, hb, hmem⟩ := List.mem_flatMap.mp h
  exact List.mem_flatMap.mpr ⟨b, hb, List.mem_append_left _ hmem⟩

/-! ## The rewritten function -/

/-- `S'` stands for `S`: it has the runs of `S`, as far as the values go that stripping has left, and it
returns what `S` returns, extended. -/
structure Source.StandsFor (U : ∀ F : Fn, F.UseLists) (S' S : Source) : Prop where
  runs : ∀ (V W : Type) (M : Semantics V W) (cast : RetCast → Ty → Datum V → Datum V), AsmIdentity M →
    HelperNumbers M → Casts M cast →
      S.fn.SimulatesIn M S'.fn (S.stripEmptyInlineAsm.replaceIdentityInlineAsm U).fn.ids ∧
      S'.fn.SimulatesIn M S.fn (S.stripEmptyInlineAsm.replaceIdentityInlineAsm U).fn.ids
  returns : ∀ (V W : Type) (M : Semantics V W) (cast : RetCast → Ty → Datum V → Datum V), AsmIdentity M →
    HelperNumbers M → Casts M cast → ∀ world vals' world', S'.fn.Returns M world vals' world' ↔
      ∃ vals, S.fn.Returns M world vals world' ∧ vals' = vals.map (S.returned cast)
  int : ∀ (V W : Type) (M : Semantics V W) (cast : RetCast → Ty → Datum V → Datum V), Casts M cast →
    ∀ n (x : BitVec n), S.retTy = .int n → S.returned cast (.int n x) =
      if S.widens then .int 64 (widened S.zext x) else .int n x

theorem adjustSrc_bits (h : S.adjustSrc = .ok S') {n : Nat} (hret : S.retTy = .int n) : n ≤ 64 := by
  unfold Source.adjustSrc at h
  rw [hret] at h
  by_contra hlt
  have hbits : (64 : Nat) < (RetTy.int n).bits := by
    show 64 < n
    omega
  simp only [if_pos hbits] at h
  cases h

theorem returned_congr {T : Source} (hw : T.widens = S.widens) (hz : T.zext = S.zext) (hr : T.retTy = S.retTy) :
    T.returned cast = S.returned cast := by
  funext x
  rw [Source.returned, Source.returned, Source.casts, Source.casts, hw, hz, hr]

theorem adjustSrc_extended (hC : Casts M cast) (h : S.adjustSrc = .ok S')
    (hbelow : ∀ a u, S.fn.UsedBy (.inst a) u → a < S.next)
    (hret : ∀ b ∈ S.fn.blocks, b.term.op = .ret → b.term.succs = []) :
    S.widens = false ∧ S' = S ∨ S.fn.Extended M S.next (S.returned cast) S'.fn := by
  rcases adjustSrc_ok h with hkept | ⟨hw, _, _, hbs⟩
  · exact Or.inl hkept
  · exact Or.inr ⟨widenBlocks_extended hC hw hbs (Nat.le_refl _) hret, hbelow, hret⟩

/-- What `adjustSrc` makes of the runs. -/
theorem adjustSrc_runs (hC : Casts M cast) (h : S.adjustSrc = .ok S')
    (hbelow : ∀ a u, S.fn.UsedBy (.inst a) u → a < S.next)
    (hret : ∀ b ∈ S.fn.blocks, b.term.op = .ret → b.term.succs = []) {K : List Nat} (hK : ∀ a ∈ K, a < S.next) :
    (S.fn.SimulatesIn M S'.fn K ∧ S'.fn.SimulatesIn M S.fn K) ∧
      ∀ world vals' world', S'.fn.Returns M world vals' world' ↔
        ∃ vals, S.fn.Returns M world vals world' ∧ vals' = vals.map (S.returned cast) := by
  rcases adjustSrc_extended hC h hbelow hret with ⟨hw, rfl⟩ | hext
  · have hid : S'.returned cast = id := by
      funext x
      rw [Source.returned, hw]
      rfl
    refine ⟨⟨fun _ c hc => ⟨c, hc, .refl c⟩, fun _ c hc => ⟨c, hc, .refl c⟩⟩, fun world vals' world' => ?_⟩
    rw [hid]
    simp only [List.map_id, exists_eq_right']
  · exact ⟨hext.simulates hK, fun world vals' world' => hext.returns⟩

/-- **The rewritten source.** What the verifier takes for the source function has the meaning of the source
function, for every function and whatever the driver rewrites in it. -/
theorem source_rewrites (S S' : Source) (hS : S.Numbered) (hF : S.fn.Verified)
    (hret : ∀ b ∈ S.fn.blocks, b.term.op = .ret → b.term.succs = []) (h : S.run U allRewrites = .ok S') :
    S'.StandsFor U S := by
  obtain ⟨G, D, R, σ, hstrip, hfn⟩ := stripped S hF
  obtain ⟨_, h₁⟩ := stripEmptyInlineAsm_erases hS.nodup
  obtain ⟨_, h₂⟩ := replaceIdentityInlineAsm_erases (h₁.numbered hS).nodup
  have hS₂ := h₂.numbered (h₁.numbered hS)
  generalize hS₂def : S.stripEmptyInlineAsm.replaceIdentityInlineAsm U = S₂ at hfn h₂ hS₂
  have hadj : S₂.rewriteHelperCallsByNumber.adjustSrc = .ok S' := by
    obtain ⟨_, hstep, h⟩ := run_cons h
    cases hstep
    obtain ⟨_, hstep, h⟩ := run_cons h
    cases hstep
    obtain ⟨_, hstep, h⟩ := run_cons h
    cases hstep
    obtain ⟨_, hstep, h⟩ := run_cons h
    cases h
    rw [← hS₂def]
    exact hstep
  have hzext : S₂.zext = S.zext := hS₂def ▸ stripped_zext S
  have hreturned : ∀ {V : Type} (cast : RetCast → Ty → Datum V → Datum V),
      S₂.rewriteHelperCallsByNumber.returned cast = S.returned cast := fun cast =>
    returned_congr (h₂.widens.trans h₁.widens) hzext (h₂.retTy.trans h₁.retTy)
  have hbelow : ∀ a u, S₂.rewriteHelperCallsByNumber.fn.UsedBy (.inst a) u → a < S₂.next := by
    intro a u hu
    obtain ⟨u', hu'⟩ := usedBy_relabel rewriteHelperCall_ops hu
    rw [hfn] at hu'
    rw [h₂.next, h₁.next]
    exact hS.lt a (Fn.ids_subset_members (erasing_closed hF.toSsaForm hstrip.copies hu'))
  have hret₂ : ∀ b ∈ S₂.rewriteHelperCallsByNumber.fn.blocks, b.term.op = .ret → b.term.succs = [] := by
    intro b hb hop
    obtain ⟨b₁, hb₁, rfl⟩ := List.mem_map.mp hb
    rw [hfn, edit_blocks rfl] at hb₁
    obtain ⟨b₀, hb₀, rfl⟩ := List.mem_map.mp hb₁
    exact hret b₀ hb₀ hop
  have hK : ∀ a ∈ S₂.fn.ids, a < S₂.next := fun a ha => hS₂.lt a (Fn.ids_subset_members ha)
  have hR : ∀ a ∈ S₂.fn.ids, a ∉ R := fun a ha => erasing_ids hF.toSsaForm hstrip.instrs (hfn ▸ ha)
  constructor
  · intro V W M cast hM hH hC
    rw [hS₂def]
    obtain ⟨hfwd, hback⟩ := erasing_simulates (fun world => hstrip.erasable hF hM world) hR
    rw [← hfn] at hfwd hback
    obtain ⟨hfwd', hback'⟩ := relabel_simulates (K := S₂.fn.ids) (rewriteHelper_relabels hH S₂.fn)
    obtain ⟨⟨hfwd'', hback''⟩, _⟩ := adjustSrc_runs hC hadj hbelow hret₂ hK
    exact ⟨(hfwd.trans hfwd').trans hfwd'', (hback''.trans hback').trans hback⟩
  · intro V W M cast hM hH hC world vals' world'
    rw [(adjustSrc_runs hC hadj hbelow hret₂ hK).2, hreturned]
    refine exists_congr fun vals => and_congr_left fun _ => ?_
    rw [erasing_returns (hstrip.erasable hF hM world), ← hfn]
    exact (relabel_returns (rewriteHelper_relabels hH S₂.fn)).symm
  · intro V W M cast hC n x hint
    have hn : n ≤ 64 := adjustSrc_bits hadj ((h₂.retTy.trans h₁.retTy).trans hint)
    split
    · rename_i hw
      exact returned_int hC hint hn hw x
    · rename_i hw
      rw [Source.returned, if_neg hw]

/-! ## An example -/

def sourceCast : RetCast → Ty → Datum Aggregate → Datum Aggregate
  | .zext, .int w', .int _ x => .int w' (x.setWidth w')
  | .sext, .int w', .int _ x => .int w' (x.signExtend w')
  | _, _, x => x

/-- A machine that keeps the names of the functions that have been called. -/
def sourceMachine : Semantics Aggregate (List String) where
  arg _ := .int 8 200
  const _ _ := .undef
  exec op ty xs world :=
    match op with
    | .call (.number _ id) => if id.msb then none else some (.undef, world ++ ["__bpf_helper_" ++ toString id.toNat])
    | .call (.function name) => some (.undef, world ++ [name])
    | .other 0 => xs.head?.map fun x => (sourceCast .bitcast ty x, world)
    | .other 1 => xs.head?.map fun x => (sourceCast .zext ty x, world)
    | .other 2 => xs.head?.map fun x => (sourceCast .sext ty x, world)
    | op => (asmMachine.exec op ty xs ()).map fun r => (r.1, world)
  jump _ _ _ := none

theorem sourceMachine_identity : AsmIdentity sourceMachine where
  void _ _ _ _ := ⟨.undef, rfl⟩
  scalar ia ty xs x world hempty hty hstruct tied := by
    show (asmMachine.exec (.call (.asm ia)) ty xs ()).map _ = _
    rw [asmMachine_identity.scalar ia ty xs x () hempty hty hstruct tied]
    rfl
  struct := by
    obtain ⟨fields, hcall, hfield⟩ := asmMachine_identity.struct
    refine ⟨fields, fun ia ty xs outs world hempty hstruct tied => ?_, fun k ty outs x world hk => ?_⟩
    · show (asmMachine.exec (.call (.asm ia)) ty xs ()).map _ = _
      rw [hcall ia ty xs outs () hempty hstruct tied]
      rfl
    · show (asmMachine.exec (.extractvalue [k]) ty [fields outs] ()).map _ = _
      rw [hfield k ty outs x () hk]
      rfl

theorem sourceMachine_helpers : HelperNumbers sourceMachine := by
  intro w id ty xs world hmsb
  show (if id.msb = true then none else _) = _
  rw [hmsb]
  rfl

theorem sourceMachine_casts : Casts sourceMachine sourceCast where
  exec c ty x world := by cases c <;> rfl
  zext _ _ _ _ := rfl
  sext _ _ _ _ := rfl

/-- A `zeroext i8` function that passes its argument through a `barrier_var` and calls a helper by number. -/
def helperSource : Source where
  fn :=
    { args := [.int 8]
      blocks := [{ body := [{ id := 0, ty := .int 8, op := .call (.asm plusR), ops := [.arg 0] },
                            { id := 1, ty := .int 64, op := .call (.number 64 7), ops := [] }]
                   term := { id := 2, op := .ret, ops := [.inst 0], succs := [] } }] }
  retTy := .int 8
  zext := true
  next := 3

theorem helperSource_numbered : helperSource.Numbered where
  nodup := by
    show [0, 1, 2].Nodup
    decide
  lt := by
    show ∀ id ∈ [0, 1, 2], id < 3
    decide

theorem helperSource_verified : helperSource.fn.Verified :=
  Fn.StraightLine.verified (b := _) ⟨rfl, rfl, rfl, by decide, by decide⟩ (by decide) (by simp)

theorem helperSource_returns :
    helperSource.fn.Returns sourceMachine [] [.int 8 200] ["__bpf_helper_" ++ toString (7 : Nat)] := by
  have henter : helperSource.fn.Reaches sourceMachine [] _ := .tail .refl rfl
  have hasm : helperSource.fn.Reaches sourceMachine [] _ := .tail henter rfl
  exact ⟨_, _, .tail hasm rfl, rfl, rfl, rfl, rfl, rfl⟩

theorem source_rewrites_helper :
    ∃ S', helperSource.run Fn.useLists allRewrites = .ok S' ∧ S'.StandsFor Fn.useLists helperSource ∧
      S'.fn.Returns sourceMachine [] [.int 64 200] ["__bpf_helper_" ++ toString (7 : Nat)] := by
  obtain ⟨S', hS'⟩ := ok_of_isSome (x := helperSource.run Fn.useLists allRewrites) (by decide)
  have h := source_rewrites helperSource S' helperSource_numbered helperSource_verified (by decide) hS'
  refine ⟨S', hS', h, (h.returns _ _ _ _ sourceMachine_identity sourceMachine_helpers sourceMachine_casts _ _ _).mpr
    ⟨_, helperSource_returns, ?_⟩⟩
  show _ = [helperSource.returned sourceCast (.int 8 200)]
  rw [h.int _ _ _ _ sourceMachine_casts 8 200 rfl]
  rfl

end BpfTv.Ssa
