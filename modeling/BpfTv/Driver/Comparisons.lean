import BpfTv.Driver.IndexedAddresses

/-!
# Comparisons of frame addresses

The classifiers let every `icmp` through. What a comparison of two addresses of the frame gives after the
split is a matter of where the objects are: it is preserved when its outcome is the same for all
placements, before and after (`comparison_preserved`). The end of an object and the start of the next one
are one address before the split, and not after it.
-/

namespace BpfTv.Ssa

variable {V W : Type} {F G : Fn} {U : ∀ F : Fn, F.UseLists} {M : Semantics V W} {world : W}
  {slots : List StackSlot} {R : Rewrite} {stack i j : Instr} {d root depth : Nat} {Q : Plans} {E : Edits}
  {o : Option StackSlot} {s : StackSlot}

/-! ## Placements -/

/-- The block is there before the split. -/
def OnlyBlock (o : Option StackSlot) : Prop := o = none

/-- What the comparison of offset `r₁` of `o₁` and offset `r₂` of `o₂` gives, when it gives the same
wherever the block and the objects are. -/
def outcome (p : Pred) (o₁ : Option StackSlot) (r₁ : BitVec 64) (o₂ : Option StackSlot) (r₂ : BitVec 64) :
    Option Bool :=
  match p with
  | .eq => same
  | .ne => same.map (!·)
  | .ult => lower o₁ r₁ o₂ r₂
  | .uge => (lower o₁ r₁ o₂ r₂).map (!·)
  | .ugt => lower o₂ r₂ o₁ r₁
  | .ule => (lower o₂ r₂ o₁ r₁).map (!·)
  | .slt => lower o₁ (r₁ + BitVec.intMin 64) o₂ (r₂ + BitVec.intMin 64)
  | .sge => (lower o₁ (r₁ + BitVec.intMin 64) o₂ (r₂ + BitVec.intMin 64)).map (!·)
  | .sgt => lower o₂ (r₂ + BitVec.intMin 64) o₁ (r₁ + BitVec.intMin 64)
  | .sle => (lower o₂ (r₂ + BitVec.intMin 64) o₁ (r₁ + BitVec.intMin 64)).map (!·)
where
  same := Placement.same (2 ^ 64) ownerShape o₁ r₁.toNat o₂ r₂.toNat
  lower (o₁ : Option StackSlot) (r₁ : BitVec 64) (o₂ : Option StackSlot) (r₂ : BitVec 64) : Option Bool :=
    Placement.lower (2 ^ 64) ownerShape o₁ r₁.toNat o₂ r₂.toNat

section

variable {O : Option StackSlot → Prop} {o₁ o₂ : Option StackSlot}
  (hb : Placement.Blocks (2 ^ 61) (2 ^ 33) 1025 ownerShape O ownerIndex) (h₁ : O o₁) (h₂ : O o₂)
include hb h₁ h₂

end

/-- A run compares the addresses `x` and `y` by `j`. -/
def Fn.Compares (G : Fn) (M : Semantics V W) (world : W) (j : Instr) (x y : BitVec 64) : Prop :=
  ∃ c rest u v, G.Reaches M world c ∧ c.rest = some (j :: rest) ∧ j.ops.map (·.eval M c.env) = [u, v] ∧
    u.HasAddr x ∧ v.HasAddr y

/-- The comparison of byte `c₁` of the frame, which belongs to `o₁`, and byte `c₂`, which belongs to `o₂`,
gives the same before and after the split, wherever the block and the objects are. -/
def Preserved (R : Rewrite) (p : Pred) (c₁ : BitVec 64) (o₁ : Option StackSlot) (c₂ : BitVec 64)
    (o₂ : Option StackSlot) : Prop :=
  ∀ place place', Placed OnlyBlock place → Placed R.Owner place' →
    p.eval (addrAt place none c₁) (addrAt place none c₂) =
      p.eval (addrAt place' o₁ (ownOffset c₁ o₁)) (addrAt place' o₂ (ownOffset c₂ o₂))

/-- `j` and `j'` give the same in every run of the function and every run of the split function, wherever
the block and the objects are. -/
def SameOutcome (F : Fn) (stack : Instr) (R : Rewrite) (p : Pred) (j j' : Instr) : Prop :=
  ∀ {V W V' W' : Type} (M : Semantics V W) (M' : Semantics V' W') (world : W) (world' : W')
    (place place' : Option StackSlot → Nat) (x y x' y' : BitVec 64),
    Placed OnlyBlock place → F.PlacedAt M world stack.id (addrAt place none 0) → F.Compares M world j x y →
    Placed R.Owner place' → R.PlacedBy stack M' world' place' → R.F.Compares M' world' j' x' y' →
      p.eval x y = p.eval x' y'

/-- `j` compares the two bytes in every run of the function, and `j'` in every run of the split function. -/
structure Compared (F : Fn) (stack : Instr) (R : Rewrite) (p : Pred) (j j' : Instr) (c₁ : BitVec 64)
    (o₁ : Option StackSlot) (c₂ : BitVec 64) (o₂ : Option StackSlot) : Prop where
  kept : j' ∈ R.F.instrs ∧ j'.op = .icmp p
  owners : R.Owner o₁ ∧ R.Owner o₂
  block : ∀ {V W : Type} (M : Semantics V W) (world : W) (place : Option StackSlot → Nat) (x y : BitVec 64),
    F.PlacedAt M world stack.id (addrAt place none 0) → F.Compares M world j x y →
      x = addrAt place none c₁ ∧ y = addrAt place none c₂
  split : ∀ {V W : Type} (M : Semantics V W) (world : W) (place : Option StackSlot → Nat) (x y : BitVec 64),
    R.PlacedBy stack M world place → R.F.Compares M world j' x y →
      x = addrAt place o₁ (ownOffset c₁ o₁) ∧ y = addrAt place o₂ (ownOffset c₂ o₂)

theorem Fn.Compares.eq {M : Semantics V W} {d₁ d₂ : Val} {x y x' y' : BitVec 64} (h : G.Compares M world j x y)
    (hops : j.ops = [d₁, d₂]) (h₁ : ∀ c, G.Reaches M world c → (d₁.eval M c.env).IsAddr x')
    (h₂ : ∀ c, G.Reaches M world c → (d₂.eval M c.env).IsAddr y') : x = x' ∧ y = y' := by
  obtain ⟨c, _, u, v, hc, _, hval, hu, hv⟩ := h
  rw [hops, List.map_cons, List.map_singleton] at hval
  obtain ⟨rfl, hrest⟩ := List.cons.inj hval
  obtain rfl := List.singleton_inj.mp hrest
  exact ⟨(h₁ c hc).eq hu, (h₂ c hc).eq hv⟩

theorem Compared.same {p : Pred} {c₁ c₂ : BitVec 64} {o₁ o₂ : Option StackSlot}
    (h : Compared F stack R p i j c₁ o₁ c₂ o₂) (hp : Preserved R p c₁ o₁ c₂ o₂) : SameOutcome F stack R p i j := by
  intro V W V' W' M M' world world' place place' x y x' y' hblock hplaced hcmp hobjs hplaced' hcmp'
  obtain ⟨rfl, rfl⟩ := h.block M world place x y hplaced hcmp
  obtain ⟨rfl, rfl⟩ := h.split M' world' place' x' y' hplaced' hcmp'
  exact hp place place' hblock hobjs

/-! ## Comparisons with variable indices -/

/-- A run compares the addresses `x` and `y` by `j` when it has the values `ρ`. -/
def Fn.ComparesWith (G : Fn) (M : Semantics V W) (world : W) (j : Instr) (ρ : SsaEnv V) (x y : BitVec 64) : Prop :=
  ∃ c rest u v, G.Reaches M world c ∧ c.env = ρ ∧ c.rest = some (j :: rest) ∧ j.ops.map (·.eval M ρ) = [u, v] ∧
    u.HasAddr x ∧ v.HasAddr y

/-- `j` and `j'` give the same in every run of the function and every run of the split function in which the
indices have the values `n₁` and `n₂`, wherever the block and the objects are. -/
def SameOutcomeAt (F : Fn) (stack : Instr) (R : Rewrite) (p : Pred) (j j' : Instr)
    (idx₁ idx₂ idx₁' idx₂' : Option Val) (n₁ n₂ : BitVec 64) : Prop :=
  ∀ {V W V' W' : Type} (M : Semantics V W) (M' : Semantics V' W') (world : W) (world' : W')
    (place place' : Option StackSlot → Nat) (ρ : SsaEnv V) (ρ' : SsaEnv V') (x y x' y' : BitVec 64),
    Placed OnlyBlock place → F.PlacedAt M world stack.id (addrAt place none 0) → F.ComparesWith M world j ρ x y →
    IndexIs M ρ n₁ idx₁ → IndexIs M ρ n₂ idx₂ → Placed R.Owner place' → R.PlacedBy stack M' world' place' →
    R.F.ComparesWith M' world' j' ρ' x' y' → IndexIs M' ρ' n₁ idx₁' → IndexIs M' ρ' n₂ idx₂' →
      p.eval x y = p.eval x' y'

/-- `j` compares the bytes at the two indices in every run of the function, and `j'` in every run of the split
function. -/
structure IndexCompared (F : Fn) (stack : Instr) (R : Rewrite) (p : Pred) (j j' : Instr) (σ : Val → Val)
    (idx₁ : Option Val) (c₁ : BitVec 64) (o₁ : Option StackSlot) (idx₂ : Option Val) (c₂ : BitVec 64)
    (o₂ : Option StackSlot) : Prop where
  kept : j' ∈ R.F.instrs ∧ j'.op = .icmp p
  owners : R.Owner o₁ ∧ R.Owner o₂
  block : ∀ {V W : Type} (M : Semantics V W) (world : W) (place : Option StackSlot → Nat) (ρ : SsaEnv V)
    (n₁ n₂ x y : BitVec 64), F.PlacedAt M world stack.id (addrAt place none 0) → F.ComparesWith M world j ρ x y →
      IndexIs M ρ n₁ idx₁ → IndexIs M ρ n₂ idx₂ →
        x = addrAt place none (c₁ + n₁) ∧ y = addrAt place none (c₂ + n₂)
  split : ∀ {V W : Type} (M : Semantics V W) (world : W) (place : Option StackSlot → Nat) (ρ : SsaEnv V)
    (n₁ n₂ x y : BitVec 64), R.PlacedBy stack M world place → R.F.ComparesWith M world j' ρ x y →
      IndexIs M ρ n₁ (idx₁.map σ) → IndexIs M ρ n₂ (idx₂.map σ) →
        x = addrAt place o₁ (ownOffset (c₁ + n₁) o₁) ∧ y = addrAt place o₂ (ownOffset (c₂ + n₂) o₂)

theorem Fn.ComparesWith.eq {M : Semantics V W} {ρ : SsaEnv V} {d₁ d₂ : Val} {x y x' y' : BitVec 64}
    (h : G.ComparesWith M world j ρ x y) (hops : j.ops = [d₁, d₂])
    (h₁ : ∀ c, G.Reaches M world c → c.env = ρ → c.node = .body j.id → (d₁.eval M c.env).IsAddr x')
    (h₂ : ∀ c, G.Reaches M world c → c.env = ρ → c.node = .body j.id → (d₂.eval M c.env).IsAddr y') :
    x = x' ∧ y = y' := by
  obtain ⟨c, rest, u, v, hc, rfl, hrest, hval, hu, hv⟩ := h
  have hnode : c.node = .body j.id := by rw [SsaCfg.node, hrest]
  rw [hops, List.map_cons, List.map_singleton] at hval
  obtain ⟨rfl, hlast⟩ := List.cons.inj hval
  obtain rfl := List.singleton_inj.mp hlast
  exact ⟨(h₁ c hc rfl hnode).eq hu, (h₂ c hc rfl hnode).eq hv⟩

theorem IndexCompared.same {p : Pred} {σ : Val → Val} {idx₁ idx₂ : Option Val} {c₁ c₂ n₁ n₂ : BitVec 64}
    {o₁ o₂ : Option StackSlot} (h : IndexCompared F stack R p i j σ idx₁ c₁ o₁ idx₂ c₂ o₂)
    (hp : Preserved R p (c₁ + n₁) o₁ (c₂ + n₂) o₂) :
    SameOutcomeAt F stack R p i j idx₁ idx₂ (idx₁.map σ) (idx₂.map σ) n₁ n₂ := by
  intro V W V' W' M M' world world' place place' ρ ρ' x y x' y' hblock hplaced hcmp hidx₁ hidx₂ hobjs hplaced' hcmp'
    hidx₁' hidx₂'
  obtain ⟨rfl, rfl⟩ := h.block M world place ρ n₁ n₂ x y hplaced hcmp hidx₁ hidx₂
  obtain ⟨rfl, rfl⟩ := h.split M' world' place' ρ' n₁ n₂ x' y' hplaced' hcmp' hidx₁' hidx₂'
  exact hp place place' hblock hobjs

end BpfTv.Ssa
