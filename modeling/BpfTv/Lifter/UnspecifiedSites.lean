import BpfTv.Lifter.Regions
import BpfTv.Mc.Blocks

/-!
# Sites of unspecified state

A site is a load from `@__bpf_tv_unspecified`. Lifting hands out its bytes from one end to the
other, so the sites of a lifted function share no byte and lie inside the global, and any values
can be given to them at the same time (`unspecified_independent`). The invariant is `Allocated`: it
relates the running offset before and after a part of the run to the sites written in between.
-/

namespace BpfTv

variable {α β : Type} {s s' : LState} {env : Env} {I : MCInst} {r : Region}

/-- A load of `width` bits at offset `off`. -/
structure Site where
  off : Nat
  width : Nat
  deriving DecidableEq, Repr

/-- The bytes that a site reads. -/
def Site.range (x : Site) : Nat × Nat := (x.off, (x.width + 7) / 8)

def Op.site? : Op → Option Site
  | load (.int w) (.unspec off) => some ⟨off, w⟩
  | _ => none

def Region.sites (r : Region) : List Site := r.instrs.filterMap (·.op.site?)

def LFunction.sites (F : LFunction) : List Site := F.regions.flatMap Region.sites

/-! ## The running offset -/

/-- The sites `xs` have been given their bytes while the offset went from `a` to `b`. -/
structure Allocated (a b : Nat) (xs : List Site) : Prop where
  le : a ≤ b
  bound : a ≤ unspecifiedMemBytes → b ≤ unspecifiedMemBytes
  disjoint : xs.Pairwise fun x y => Bytes.Disjoint x.range y.range
  within : ∀ x ∈ xs, a ≤ x.off ∧ x.off + (x.width + 7) / 8 ≤ b

theorem Allocated.refl (a : Nat) : Allocated a a [] :=
  ⟨Nat.le_refl a, id, List.Pairwise.nil, fun _ h => nomatch h⟩

theorem Allocated.append {a b c : Nat} {xs ys : List Site} (h : Allocated a b xs)
    (h' : Allocated b c ys) : Allocated a c (xs ++ ys) := by
  refine ⟨h.le.trans h'.le, h'.bound ∘ h.bound, List.pairwise_append.mpr ⟨h.disjoint, h'.disjoint, ?_⟩, ?_⟩
  · intro x hx y hy
    exact Or.inl ((h.within x hx).2.trans (h'.within y hy).1)
  · intro x hx
    have hab := h.le
    have hbc := h'.le
    rcases List.mem_append.mp hx with hx | hx
    · have := h.within x hx
      omega
    · have := h'.within x hx
      omega

theorem Allocated.perm {a b : Nat} {xs ys : List Site} (h : Allocated a b xs) (hp : ys.Perm xs) :
    Allocated a b ys :=
  ⟨h.le, h.bound, (hp.pairwise_iff fun hxy => hxy.symm).mpr h.disjoint,
    fun x hx => h.within x (hp.mem_iff.mp hx)⟩

theorem Allocated.site {a w : Nat} (h : a + (w + 7) / 8 ≤ unspecifiedMemBytes) :
    Allocated a (a + (w + 7) / 8) [⟨a, w⟩] := by
  refine ⟨Nat.le_add_right .., fun _ => h, List.pairwise_singleton .., fun x hx => ?_⟩
  obtain rfl := List.mem_singleton.mp hx
  exact ⟨Nat.le_refl _, Nat.le_refl _⟩

/-! ## Writing code -/

/-- The sites written between two builder states. Blocks are not filled in order, so the new sites
come anywhere among the old ones. -/
def Bumps (s s' : LState) : Prop :=
  ∃ xs, (Region.sites s'.code).Perm (Region.sites s.code ++ xs) ∧
    Allocated s.unspecifiedOff s'.unspecifiedOff xs

theorem bumps_of_sites (hoff : s'.unspecifiedOff = s.unspecifiedOff)
    (h : Region.sites s'.code = Region.sites s.code) : Bumps s s' :=
  ⟨[], by rw [h, List.append_nil], hoff ▸ Allocated.refl _⟩

theorem Bumps.trans {s₁ s₂ s₃ : LState} (h : Bumps s₁ s₂) (h' : Bumps s₂ s₃) : Bumps s₁ s₃ := by
  obtain ⟨xs, hp, ha⟩ := h
  obtain ⟨ys, hp', ha'⟩ := h'
  refine ⟨xs ++ ys, hp'.trans ?_, ha.append ha'⟩
  rw [← List.append_assoc]
  exact hp.append_right ys

theorem instrs_push (hopen : r.Open) (i : Instr) : (r.push i).instrs.Perm (r.instrs ++ [i]) := by
  obtain ⟨blocks, cur⟩ := r
  have hlt : cur < blocks.length := hopen.cur_lt
  show ((blocks.modify cur _).flatMap _).Perm (blocks.flatMap _ ++ [i])
  rw [List.modify_eq_take_cons_drop hlt]
  conv_rhs => rw [← List.take_append_drop cur blocks, List.drop_eq_getElem_cons hlt]
  simp only [List.flatMap_append, List.flatMap_cons, List.append_assoc]
  refine List.Perm.append_left _ (List.Perm.append_left _ ?_)
  exact List.perm_append_comm

theorem collect_push (f : Op → Option β) (hopen : r.Open) (i : Instr) :
    ((r.push i).instrs.filterMap fun j => f j.op).Perm
      ((r.instrs.filterMap fun j => f j.op) ++ (f i.op).toList) := by
  have h := (instrs_push hopen i).filterMap fun j => f j.op
  rw [List.filterMap_append] at h
  cases hs : f i.op <;> simpa [hs] using h

theorem sites_push (hopen : r.Open) (i : Instr) :
    (Region.sites (r.push i)).Perm (Region.sites r ++ i.op.site?.toList) :=
  collect_push Op.site? hopen i

theorem instrs_close (t : Term) : (r.close t).instrs = r.instrs := by
  have h : (r.close t).blocks.map (·.instrs) = r.blocks.map (·.instrs) := by
    refine List.ext_getElem? fun k => ?_
    simp only [Emit.Code.close, List.getElem?_map, Emit.Code.modify_cur_eq]
    split
    · cases r.blocks[k]? <;> rfl
    · rfl
  simp only [Emit.Code.instrs, List.flatMap_def, h]

theorem sites_close (t : Term) : Region.sites (r.close t) = Region.sites r := by
  rw [Region.sites, Region.sites, instrs_close]

theorem sites_newBlock : Region.sites r.newBlock = Region.sites r := by
  simp [Region.sites, Emit.Code.instrs, Emit.Code.newBlock]

theorem bumps_push {op : Op} (h : op.site? = none) (s : LState) (hopen : s.code.Open) : Bumps s (s.push op) := by
  refine ⟨[], ?_, Allocated.refl _⟩
  have hp := sites_push hopen ⟨s.next, op⟩
  rwa [h] at hp

theorem bumps_emit {op : Op} (h : op.site? = none) (ty : Ty) :
    Sat Bumps .univ (emit op ty) fun _ => True :=
  Sat.emit (bumps_push h) trivial

theorem bumps_close (s : LState) (t : Term) : Bumps s (s.close t) :=
  bumps_of_sites rfl (sites_close t)

theorem site_of_plain {op : Op} (h : op.plain = true) : op.site? = none := by
  cases op with
  | load ty p => cases p <;> first | (cases ty <;> rfl) | cases h
  | _ => rfl

/-- An unspecified value is the one site that a primitive action makes. -/
theorem bumps_moves : Moves Bumps where
  refl _ := bumps_of_sites rfl rfl
  trans _ _ _ h h' := h.trans h'
  push s _ hop hopen := bumps_push (site_of_plain hop) s hopen
  pushUnspec s w hle hopen := ⟨[⟨s.unspecifiedOff, w⟩], sites_push hopen _, Allocated.site hle⟩
  close s t _ := bumps_close s t
  newBlock _ := bumps_of_sites rfl sites_newBlock
  setBlock _ _ := bumps_of_sites rfl rfl

theorem bumps_blockwise : Blockwise Bumps .univ := bumps_moves.blockwise fun _ _ => bumps_of_sites rfl rfl

theorem bumps_compat : Compat Bumps .univ := bumps_blockwise.compat

/-! ## The regions of the lifted function -/

theorem Bumps.region {prev : Option Term}
    (h : Bumps { s with code := ⟨[{ term := prev }], 0⟩ } s') :
    Allocated s.unspecifiedOff s'.unspecifiedOff (Region.sites s'.code) := by
  obtain ⟨xs, hp, ha⟩ := h
  exact ha.perm hp

theorem allocated_lift {prev : Option Term} (h : (region prev (lift env I)).run s = .ok (r, s')) :
    Allocated s.unspecifiedOff s'.unspecifiedOff (Region.sites r) := by
  obtain ⟨h₁, rfl⟩ := region_run h
  by_cases hterm : I.opcode.isTerminator = true
  · exact (lift_sat_terminator bumps_blockwise.toBlocks hterm _ _ _ h₁).1.region
  · have hterm' : I.opcode.isTerminator = false := by simpa using hterm
    exact (lift_sat_call bumps_compat (fun _ _ _ _ _ _ => bumps_emit rfl _) hterm' _ _ _ h₁).1.region

theorem allocated_platformInit (h : (region none (platformInit env)).run s = .ok (r, s')) :
    Allocated s.unspecifiedOff s'.unspecifiedOff (Region.sites r) := by
  obtain ⟨h₁, rfl⟩ := region_run h
  exact (sat_platformInit bumps_compat.toEmits _ _ _ h₁).1.region

theorem allocated_fallThrough (h : (region none (fallThrough env)).run s = .ok (r, s')) :
    Allocated s.unspecifiedOff s'.unspecifiedOff (Region.sites r) := by
  obtain ⟨h₁, rfl⟩ := region_run h
  exact (sat_fallThrough bumps_blockwise.toBlocks _ _ _ h₁).1.region

theorem allocated_insts {Is : List MCInst} {prev last : Option Term} {body : List LInst}
    (h : (liftInsts env Is prev).run s = .ok ((body, last), s')) :
    Allocated s.unspecifiedOff s'.unspecifiedOff ((body.map (·.code)).flatMap Region.sites) := by
  induction Is generalizing s prev body with
  | nil =>
    cases h
    exact Allocated.refl _
  | cons I Is ih =>
    obtain ⟨code, s₁, hcode, h⟩ := run_bind_ok h
    obtain ⟨⟨body', last'⟩, s₂, hrest, h⟩ := run_bind_ok h
    cases h
    exact (allocated_lift hcode).append (ih hrest)

theorem allocated_block {b : MCBasicBlock} {B : LBlock} (h : (liftBlock env b).run s = .ok (B, s')) :
    Allocated s.unspecifiedOff s'.unspecifiedOff (B.regions.flatMap Region.sites) := by
  obtain ⟨⟨body, last⟩, s₁, hbody, h⟩ := run_bind_ok h
  obtain ⟨tail, s₂, htail, h⟩ := run_bind_ok h
  cases h
  have hb := allocated_insts hbody
  unfold liftTail at htail
  simp only [LBlock.regions, List.flatMap_append]
  refine hb.append ?_
  split at htail
  · cases htail
    exact Allocated.refl _
  · obtain ⟨code, s₃, hcode, htail⟩ := run_bind_ok htail
    have hc := allocated_fallThrough hcode
    split at htail
    · cases htail
    · cases htail
      simpa using hc

theorem allocated_blocks {bs : List MCBasicBlock} {Bs : List LBlock}
    (h : (bs.mapM (liftBlock env)).run s = .ok (Bs, s')) :
    Allocated s.unspecifiedOff s'.unspecifiedOff
      ((Bs.flatMap LBlock.regions).flatMap Region.sites) := by
  induction bs generalizing s Bs with
  | nil =>
    cases h
    exact Allocated.refl _
  | cons b bs ih =>
    rw [List.mapM_cons] at h
    obtain ⟨B, s₁, hB, h⟩ := run_bind_ok h
    obtain ⟨Bs', s₂, hBs, h⟩ := run_bind_ok h
    cases h
    rw [List.flatMap_cons, List.flatMap_append]
    exact (allocated_block hB).append (ih hBs)

/-- The sites of a lifted function have been given their bytes one after the other. -/
theorem allocated_function {BBs : List MCBasicBlock} {F : LFunction}
    (h : liftMCFunction env BBs = .ok F) : ∃ b, Allocated 0 b F.sites := by
  unfold liftMCFunction at h
  cases hl : (liftBlocks { env with bbNames := BBs.map (·.name) } BBs).run
      { globals := Globals.init env.module } with
  | error e =>
    simp only [hl, bind, Except.bind] at h
    cases h
  | ok r =>
    obtain ⟨F', s'⟩ := r
    simp only [hl, bind, Except.bind] at h
    cases h
    obtain ⟨init, s₁, hinit, hl⟩ := run_bind_ok hl
    obtain ⟨blocks, s₂, hblocks, hl⟩ := run_bind_ok hl
    cases hl
    exact ⟨_, (allocated_platformInit hinit).append (allocated_blocks hblocks)⟩

/-- **Independence of unspecified state.** In a lifted function no two sites share a byte, every site
lies inside the global, and whatever values are given to the sites, one content of the global makes
every site load its value; the padding bits of a width that is not a number of bytes are zero. -/
theorem unspecified_independent (env : Env) (BBs : List MCBasicBlock) (F : LFunction)
    (hF : liftMCFunction env BBs = .ok F) :
    (F.sites.Pairwise fun x y => Bytes.Disjoint x.range y.range) ∧
      (∀ x ∈ F.sites, x.off + (x.width + 7) / 8 ≤ unspecifiedMemBytes) ∧
      ∀ v : (k : Fin F.sites.length) → BitVec (F.sites.get k).width,
        ∃ content : Fin unspecifiedMemBytes → BitVec 8, ∀ rt : Rt,
          (∀ i : Fin unspecifiedMemBytes, rt.world.unspec i = content i) → ∀ k,
            Bytes.read rt.world.unspec (F.sites.get k).range = (v k).toNat ∧
            rt.load (.int (F.sites.get k).width) (.unspec (F.sites.get k).off) =
              .ok (.int (v k)) := by
  obtain ⟨b, hall⟩ := allocated_function hF
  have hb : b ≤ unspecifiedMemBytes := hall.bound (Nat.zero_le _)
  have hin : ∀ x ∈ F.sites, x.off + (x.width + 7) / 8 ≤ unspecifiedMemBytes := fun x hx =>
    (hall.within x hx).2.trans hb
  refine ⟨hall.disjoint, hin, fun v => ?_⟩
  have hlt : ∀ k : Fin F.sites.length, (v k).toNat < 256 ^ (((F.sites.get k).width + 7) / 8) := by
    intro k
    calc (v k).toNat < 2 ^ (F.sites.get k).width := (v k).isLt
      _ ≤ 2 ^ (8 * (((F.sites.get k).width + 7) / 8)) := Nat.pow_le_pow_right (by omega) (by omega)
      _ = 256 ^ (((F.sites.get k).width + 7) / 8) := by rw [Nat.pow_mul]
  obtain ⟨content, hcontent⟩ := Bytes.exists_content (F.sites.map Site.range)
    (List.pairwise_map.mpr hall.disjoint)
    (fun k => if hk : k < F.sites.length then (v ⟨k, hk⟩).toNat else 0) (by
      intro k hk
      have hk' : k < F.sites.length := by simpa using hk
      rw [dif_pos hk', List.getElem_map]
      exact hlt ⟨k, hk'⟩)
  refine ⟨fun i => content i, fun rt hrt k => ?_⟩
  have hread : Bytes.read rt.world.unspec (F.sites.get k).range = (v k).toNat := by
    have hk := hcontent k (by simp)
    rw [dif_pos k.isLt, List.getElem_map] at hk
    rw [← hk]
    refine Bytes.leNat_congr fun i hi => ?_
    have := hin _ (List.get_mem F.sites k)
    exact hrt ⟨(F.sites.get k).off + i, by simp only [Site.range] at hi; omega⟩
  refine ⟨hread, ?_⟩
  have hrange : ((F.sites.get k).off, ((F.sites.get k).width + 7) / 8) = (F.sites.get k).range := rfl
  simp only [Rt.load, hrange, hread, BitVec.ofNat_toNat, BitVec.setWidth_eq]

/-- A function of one 12-bit argument. -/
def paddedEnv : Env := { srcArgs := [{ ty := .int 12 }], module := .bytes "padded" ⟨.void, [.int 12]⟩ }

def paddedBBs : List MCBasicBlock :=
  [{ name := entryName, instrs := [entryJump], succs := [1] },
    { name := "L0", instrs := [{ opcode := .RET, operands := [] }] }]

/-- The theorem at a function whose sites are the twelve registers and the padding of its argument;
all of them can hold ones. -/
theorem unspecified_independent_padded : ∃ F, liftMCFunction paddedEnv paddedBBs = .ok F ∧
    F.sites.length = 13 ∧ ∃ content : Fin unspecifiedMemBytes → BitVec 8, ∀ rt : Rt,
      (∀ i : Fin unspecifiedMemBytes, rt.world.unspec i = content i) → ∀ k,
        rt.load (.int (F.sites.get k).width) (.unspec (F.sites.get k).off) =
          .ok (.int (BitVec.allOnes (F.sites.get k).width)) := by
  have hlen : (liftMCFunction paddedEnv paddedBBs).toOption.map (·.sites.length) = some 13 := by
    decide +kernel
  obtain ⟨F, hF, hsites⟩ := Option.map_eq_some_iff.mp hlen
  obtain ⟨F', hF'⟩ := ok_of_isSome (x := liftMCFunction paddedEnv paddedBBs) (by rw [hF]; rfl)
  obtain rfl : F' = F := by simpa [hF', Except.toOption] using hF
  obtain ⟨content, hcontent⟩ := (unspecified_independent paddedEnv paddedBBs F' hF').2.2 fun _ =>
    BitVec.allOnes _
  exact ⟨F', hF', hsites, content, fun rt hrt k => (hcontent rt hrt k).2⟩

end BpfTv
