import BpfTv.Driver.Attribution
import BpfTv.Lib.Placement
import BpfTv.Lifter.Lift
import BpfTv.Llvm.Exec

/-!
# Addresses of the frame in runs

An address that is computed from a block is at its offset from wherever the block is in a run
(`derived_value`). So an address of the frame is at its byte of the block before the split, and at that
byte of its owner, the block or the object of a slot, after it (`value_block`, `value_split`).
-/

namespace BpfTv.Ssa

variable {V W : Type} {F G : Fn} {U : ∀ F : Fn, F.UseLists} {M : Semantics V W} {world : W}
  {slots : List StackSlot} {R : Rewrite} {stack i j : Instr} {a b k : BitVec 64} {d root depth : Nat}

/-! ## Addresses in a run -/

/-- The datum is the address `a`, as a pointer or as an integer. -/
def Datum.HasAddr (x : Datum V) (a : BitVec 64) : Prop := x = .ptr a ∨ x = .int 64 a

/-- The datum is the address `a`, when it has been computed. -/
def Datum.IsAddr (x : Datum V) (a : BitVec 64) : Prop := x = .undef ∨ x.HasAddr a

/-- In the runs from `world`, `d` allocates at `a`. -/
def Fn.PlacedAt (G : Fn) (M : Semantics V W) (world : W) (d : Nat) (a : BitVec 64) : Prop :=
  ∀ c c', G.Reaches M world c → G.step M c = some c' → c.node = .body d → c'.env d = .ptr a

/-- Addresses are computed in scalars. -/
def Instr.Scalar (i : Instr) : Prop :=
  ∀ e k, Step e i k → i.op.isAddress i.ty = true ∧ (i.op = .ptrtoint → i.ty = .int 64)

theorem gepAddress_value {ρ : SsaEnv V} {steps : List GepStep} {idxs : List Val}
    (hacc : accumulateConstantOffset steps idxs = some k)
    (h : gepAddress a steps (idxs.map (·.eval M ρ)) = some b) : b = a + k := by
  induction steps generalizing idxs a k with
  | nil =>
    cases idxs with
    | nil =>
      cases h
      cases hacc
      simp
    | cons idx idxs => cases h
  | cons step steps ih =>
    cases idxs with
    | nil => cases step <;> cases h
    | cons idx idxs =>
      cases step with
      | field off =>
        simp only [accumulateConstantOffset, Option.map_eq_some_iff] at hacc
        obtain ⟨k', hk', rfl⟩ := hacc
        rw [ih hk' h]
        bv_omega
      | scale n =>
        cases idx with
        | int w c =>
          simp only [accumulateConstantOffset, Option.map_eq_some_iff] at hacc
          obtain ⟨k', hk', rfl⟩ := hacc
          rw [ih hk' h, BitVec.mul_comm, BitVec.add_assoc]
        | inst id => simp [accumulateConstantOffset] at hacc
        | arg n => simp [accumulateConstantOffset] at hacc
        | const n ty => simp [accumulateConstantOffset] at hacc

theorem add_address {x y : Datum V} {w w' : Nat} {c : BitVec w'} (hx : x.IsAddr a)
    (h : evalAddress (.binop .add) (.int w) [x, .int w' c] = some y ∨
      evalAddress (.binop .add) (.int w) [.int w' c, x] = some y) : y.IsAddr (a + c.signExtend 64) := by
  rcases hx with rfl | rfl | rfl
  · rcases h with h | h <;> cases h
  · rcases h with h | h <;> cases h
  · rcases h with h | h
    · simp only [evalAddress] at h
      split at h
      · rename_i hw
        obtain ⟨rfl, rfl⟩ := hw
        cases h
        exact Or.inr (Or.inr (by simp))
      · cases h
    · simp only [evalAddress] at h
      split at h
      · rename_i hw
        obtain ⟨rfl, rfl⟩ := hw
        cases h
        exact Or.inr (Or.inr (by simp [BitVec.add_comm]))
      · cases h

theorem step_address {ρ : SsaEnv V} {e : Nat} {x : Datum V} (hi : i.Scalar) (hstep : Step e i k)
    (he : (ρ e).IsAddr a) (h : evalAddress i.op i.ty (i.ops.map (·.eval M ρ)) = some x) : x.IsAddr (a + k) := by
  obtain ⟨haddr, hty⟩ := hi e k hstep
  have heval : (Val.inst e).eval M ρ = ρ e := rfl
  cases hstep with
  | @gep i8 steps idxs _ op ops acc =>
    rw [op] at haddr
    rw [op, ops, List.map_cons, heval] at h
    cases hptr : i.ty with
    | ptr =>
      rw [hptr] at h
      rcases he with he | he | he
      · rw [he] at h
        cases h
      · rw [he] at h
        obtain ⟨b, hb, rfl⟩ := Option.map_eq_some_iff.mp h
        rw [gepAddress_value acc hb]
        exact Or.inr (Or.inl rfl)
      · rw [he] at h
        cases h
    | void | int | struct | other =>
      rw [hptr] at haddr
      cases haddr
  | ptrtoint op ops =>
    rw [op, ops, hty op, List.map_singleton, heval] at h
    rcases he with he | he | he
    · rw [he] at h
      cases h
    · rw [he] at h
      cases h
      refine Or.inr (Or.inr ?_)
      simp
    · rw [he] at h
      cases h
  | add op parts =>
    rw [op] at haddr
    rw [op] at h
    cases hint : i.ty with
    | int w =>
      rw [hint] at h
      obtain ⟨w', n, hops | hops, rfl⟩ := addParts_cases parts
      · rw [hops] at h
        exact add_address he (Or.inl h)
      · rw [hops] at h
        exact add_address he (Or.inr h)
    | void | ptr | struct | other =>
      rw [hint] at haddr
      cases haddr
  | inttoptr op ops =>
    rw [op] at haddr
    rw [op, ops, List.map_singleton, heval] at h
    cases hptr : i.ty with
    | ptr =>
      rw [hptr] at h
      rcases he with he | he | he
      · rw [he] at h
        cases h
      · rw [he] at h
        cases h
      · rw [he] at h
        cases h
        refine Or.inr (Or.inl ?_)
        simp
    | void | int | struct | other =>
      rw [hptr] at haddr
      cases haddr

/-- Wherever a run is, an address that is computed from `root` is at its offset from where `root` is. -/
theorem derived_value (hG : G.ids.Nodup) (hscalar : ∀ i ∈ G.instrs, i.Scalar) (hmem : ∃ i ∈ G.instrs, i.id = root)
    (hplace : G.PlacedAt M world root a)
    {c : SsaCfg V W} (hc : G.Reaches M world c) (hd : Derived G root d k) : (c.env d).IsAddr (a + k) := by
  induction hc generalizing d k with
  | refl => exact Or.inl rfl
  | @tail c c' hc hs ih =>
    obtain ⟨i, hi, rfl⟩ : ∃ i ∈ G.instrs, i.id = d := by
      cases hd with
      | base => exact hmem
      | step _ hi => exact ⟨_, hi, rfl⟩
    by_cases hnode : c.node = .body i.id
    · generalize hid : i.id = d at hd hnode
      cases hd with
      | base => exact Or.inr (Or.inl (by simpa using hplace c c' hc hs hnode))
      | @step e k₀ j k hder hj hstep =>
        obtain ⟨world', hrun⟩ := step_value hG hj hc hs hnode
        obtain ⟨haddr, _⟩ := hscalar j hj e k hstep
        rw [Semantics.run, if_pos haddr, Option.map_eq_some_iff] at hrun
        obtain ⟨v, hv, hvw⟩ := hrun
        rw [← (Prod.mk.inj hvw).1, ← BitVec.add_assoc]
        exact step_address (hscalar j hj) hstep (ih hder) hv
    · rw [step_env hc hs fun hdef => hnode (Fn.defines_eq hG hi hdef)]
      exact ih hd

theorem Instr.scalar_of (hgep : ∀ i8 steps, i.op = .gep i8 steps → i.ty = .ptr)
    (hptrtoint : i.op = .ptrtoint → i.ty = .int 64) (hinttoptr : i.op = .inttoptr → i.ty = .ptr)
    (hadd : i.op = .binop .add → ∀ (w : Nat) (n : BitVec w), .int w n ∈ i.ops → ∃ w', i.ty = .int w') :
    i.Scalar := by
  intro e k hstep
  cases hstep with
  | gep op =>
    rw [op, hgep _ _ op]
    exact ⟨rfl, fun h => by cases h⟩
  | ptrtoint op =>
    rw [op, hptrtoint op]
    exact ⟨rfl, fun _ => rfl⟩
  | inttoptr op =>
    rw [op, hinttoptr op]
    exact ⟨rfl, fun h => by cases h⟩
  | add op parts =>
    obtain ⟨w, n, hops, _⟩ := addParts_cases parts
    have hmem : .int w n ∈ i.ops := by rcases hops with hops | hops <;> simp [hops]
    obtain ⟨w', hty⟩ := hadd op w n hmem
    rw [op, hty]
    exact ⟨rfl, fun h => by cases h⟩

theorem typed_add (hF : F.WellTyped) (hi : i ∈ F.instrs) (hop : i.op = .binop .add) {w : Nat} {n : BitVec w}
    (hn : .int w n ∈ i.ops) : ∃ w', i.ty = .int w' := by
  obtain ⟨x, y, hops, hx, hy, _⟩ := typed_binop (hF.typed i hi) hop
  rw [hops] at hn
  rcases List.mem_pair.mp hn with rfl | rfl
  · exact ⟨w, (Option.some.inj hx).symm⟩
  · exact ⟨w, (Option.some.inj hy).symm⟩

theorem typed_scalar_map {f : Val → Val} (hF : F.WellTyped) (hi : i ∈ F.instrs)
    (hint : ∀ (v : Val) (w : Nat) (n : BitVec w), f v = .int w n → v = .int w n) : (i.map f).Scalar := by
  refine Instr.scalar_of (fun i8 steps hop => ?_) (fun hop => ?_) (fun hop => ?_) fun hop w n hn => ?_
  · obtain ⟨_, _, _, _, hty, _⟩ := typed_gep (hF.typed i hi) hop
    exact hty
  · obtain ⟨_, _, _, hty⟩ := typed_ptrtoint (hF.typed i hi) hop
    exact hty
  · obtain ⟨_, _, _, hty⟩ := typed_inttoptr (hF.typed i hi) hop
    exact hty
  · obtain ⟨v, hv, heq⟩ := List.mem_map.mp hn
    exact typed_add (i := i) hF hi hop (hint v w n heq ▸ hv)

theorem typed_scalar (hF : F.WellTyped) (hi : i ∈ F.instrs) : i.Scalar := by
  have hmap := typed_scalar_map (f := id) hF hi fun _ _ _ heq => heq
  rwa [Instr.map, List.map_id] at hmap

variable {Q : Plans} {E : Edits} {c : BitVec 64} {o : Option StackSlot} {s : StackSlot}

theorem Applied.subst_eq_int (h : Applied F slots stack Q R E) {v : Val} {w : Nat} {n : BitVec w}
    (hv : E.subst v = .int w n) : v = .int w n := by
  by_cases hT : ∃ id, Q.Touches F id ∧ v = .inst id
  · obtain ⟨id, hid, rfl⟩ := hT
    obtain ⟨m, hm, _⟩ := h.frame.range id hid
    rw [hm] at hv
    cases hv
  · rwa [h.frame.subst v fun id hid heq => hT ⟨id, hid, heq⟩] at hv

/-- The instructions of the split function compute addresses in scalars. -/
theorem Applied.scalar (h : Applied F slots stack Q R E) (hj : j ∈ R.F.instrs) : j.Scalar := by
  have hne : F.blocks ≠ [] := by
    obtain ⟨b, hb, _⟩ := Fn.mem_instrs.mp (stackMem_spec h.typed h.block).1
    exact List.ne_nil_of_mem hb
  rw [h.frame.eq] at hj
  rcases (mem_edit_instrs hne).mp hj with hentry | ⟨i, hi, x, hx, rfl⟩
  · have hops := (h.frame.entry j hentry).1
    intro e k hstep
    cases hstep with
    | gep _ ops | ptrtoint _ ops | inttoptr _ ops =>
      rw [hops] at ops
      cases ops
    | add _ parts =>
      rw [hops] at parts
      cases parts
  · have hgep : ∀ np obj v, ((gepI8 np obj v).map E.subst).Scalar := fun _ _ _ =>
      Instr.scalar_of (fun _ _ _ => rfl) (fun h => by cases h) (fun h => by cases h) fun h => by cases h
    cases h.replaced hi with
    | kept new =>
      rw [new] at hx
      rw [List.mem_singleton.mp hx]
      exact typed_scalar_map h.typed hi fun _ _ _ heq => h.subst_eq_int heq
    | gone new =>
      rw [new] at hx
      cases hx
    | gep _ _ new =>
      rw [new] at hx
      rw [List.mem_singleton.mp hx]
      exact hgep _ _ _
    | varGep _ _ new =>
      rw [new] at hx
      rcases List.mem_pair.mp hx with rfl | rfl
      · exact Instr.scalar_of (fun _ _ h => by cases h) (fun h => by cases h) (fun h => by cases h)
          fun _ _ _ _ => ⟨64, rfl⟩
      · exact hgep _ _ _
    | sum _ _ new =>
      rw [new] at hx
      rcases List.mem_pair.mp hx with rfl | rfl
      · exact hgep _ _ _
      · exact Instr.scalar_of (fun _ _ h => by cases h) (fun _ => rfl) (fun h => by cases h) fun h => by cases h

/-! ## Operands -/

/-- The offset of byte `c` of the frame from the start of its owner: a slot, or the block. -/
def ownOffset (c : BitVec 64) : Option StackSlot → BitVec 64
  | none => c
  | some s => c - BitVec.ofInt 64 s.start

/-- The address at offset `r` of `o`, when the block and the objects are at `place`. -/
def addrAt (place : Option StackSlot → Nat) (o : Option StackSlot) (r : BitVec 64) : BitVec 64 :=
  BitVec.ofNat 64 (place o) + r

/-- In the runs of the split function from `world`, the block and the objects of the slots are at `place`. -/
structure Rewrite.PlacedBy (R : Rewrite) (stack : Instr) (M : Semantics V W) (world : W)
    (place : Option StackSlot → Nat) : Prop where
  block : R.F.PlacedAt M world stack.id (addrAt place none 0)
  obj : ∀ s obj, R.objs.lookup s = some obj → R.F.PlacedAt M world obj (addrAt place (some s) 0)

theorem Datum.IsAddr.eq {x : Datum V} (h : x.IsAddr a) (h' : x.HasAddr b) : b = a := by
  rcases h with rfl | rfl | rfl <;> rcases h' with h' | h' <;> cases h' <;> rfl

theorem addrAt_add (place : Option StackSlot → Nat) (r : BitVec 64) : addrAt place o 0 + r = addrAt place o r := by
  rw [addrAt, BitVec.ofNat_eq_ofNat, BitVec.add_zero, addrAt]

namespace Applied

variable {x : SsaCfg V W} {place : Option StackSlot → Nat}

theorem value_block (h : Applied F slots stack Q R E) (hplace : F.PlacedAt M world stack.id a)
    (hx : F.Reaches M world x) (hd : Attributed F slots stack.id d c o) : (x.env d).IsAddr (a + c) :=
  derived_value h.typed.nodup (fun _ hi => typed_scalar h.typed hi)
    ⟨stack, (stackMem_spec h.typed h.block).1, rfl⟩ hplace hx hd.derived

theorem value_split (h : Applied F slots stack Q R E) (hR : R.F.ids.Nodup) (hplace : R.PlacedBy stack M world place)
    (hx : R.F.Reaches M world x) (hd : Attributed F slots stack.id d c o) :
    ((E.subst (.inst d)).eval M x.env).IsAddr (addrAt place o (ownOffset c o)) := by
  have hscalar : ∀ i ∈ R.F.instrs, i.Scalar := fun _ hi => h.scalar hi
  have hstack := (stackMem_spec h.typed h.block).1
  cases o with
  | none =>
    have hT : ¬Q.Touches F stack.id := h.untouched .base
    rw [h.subst_untouched (h.untouched hd), ← addrAt_add]
    exact derived_value hR hscalar ⟨_, h.keep hstack hT, rfl⟩ hplace.block hx (h.stays hd rfl)
  | some s =>
    obtain ⟨obj, n, hs, hn, hder⟩ := h.moved hd rfl
    rw [hn, ← addrAt_add]
    exact derived_value hR hscalar ⟨_, (h.obj_mem hstack hs).1, rfl⟩ (hplace.obj s obj hs) hx hder

end Applied

/-! ## Owners -/

/-- The stack slots of 8 bytes for parameters. -/
def numStackSlots : Nat := 32

/-- What the block and the object of a slot take. -/
def ownerShape : Option StackSlot → Placement.Shape
  | none => ⟨stackBytes + 8 * numStackSlots, 16⟩
  | some s => ⟨s.size, max s.align (frameAlign s)⟩

/-- The block and the objects are there after the split. -/
def Rewrite.Owner (R : Rewrite) : Option StackSlot → Prop
  | none => True
  | some s => ∃ obj, R.objs.lookup s = some obj

/-- The placements of the block and the objects of `O`. -/
abbrev Placed (O : Option StackSlot → Prop) (place : Option StackSlot → Nat) : Prop :=
  Placement.Layout (2 ^ 64) ownerShape O place

theorem addrAt_toNat (place : Option StackSlot → Nat) (o : Option StackSlot) (r : BitVec 64) :
    (addrAt place o r).toNat = (place o + r.toNat) % 2 ^ 64 := by
  rw [addrAt, BitVec.toNat_add, BitVec.toNat_ofNat, Nat.mod_add_mod]

theorem GepPlan.Valid.slot {p : GepPlan} (h : p.Valid F slots root) : p.slot ∈ slots ∧ ∃ c, p.slot.Holds c := by
  obtain ⟨_, _, _, _, _, _, _, _, hslot, _⟩ := h
  obtain ⟨hs, holds⟩ := mem_of_slotAt hslot
  exact ⟨hs, _, holds⟩

theorem IntPlan.Valid.slot {p : IntPlan} (h : p.Valid F slots root) : p.slot ∈ slots ∧ ∃ c, p.slot.Holds c := by
  obtain ⟨_, _, _, _, _, hslot, _⟩ := h
  obtain ⟨hs, holds⟩ := mem_of_slotAt hslot
  exact ⟨hs, _, holds⟩

theorem owner_slot (hQ : Q.Valid F slots root) (hs : (applyPlans U F Q).Owner (some s)) :
    s ∈ slots ∧ 0 < s.size := by
  obtain ⟨obj, hlookup⟩ := hs
  have hslot : s ∈ slots ∧ ∃ c, s.Holds c := by
    rcases applyPlans_objs F Q _ (Fn.mem_of_lookup hlookup) with ⟨p, hp, rfl⟩ | ⟨p, hp, rfl⟩
    · exact (hQ.gep p hp).slot
    · exact (hQ.int p hp).slot
  obtain ⟨hmem, c, hlow, hhigh⟩ := hslot
  exact ⟨hmem, by omega⟩

theorem Applied.owner (h : Applied F slots stack Q R E) (hd : Attributed F slots stack.id d c o) : R.Owner o := by
  cases o with
  | none => trivial
  | some s =>
    obtain ⟨obj, _, hs, _⟩ := h.moved hd rfl
    exact ⟨obj, hs⟩

end BpfTv.Ssa
