import BpfTv.Llvm.Edit
import BpfTv.Llvm.Exec

/-!
# Erased instructions

A function from which instructions without effect have been erased, with other values in the place of
theirs, has the same runs (`Erasable.simulates`, `Erasable.simulated`) and returns the same values
(`Erasable.returns_iff`): the two go in lockstep over the instructions that are left.
-/

namespace BpfTv.Ssa

open Control

variable {V W : Type}

/-- What LLVM's verifier promises: also phis and terminators are dominated by the definitions of their
operands, and nothing uses what has no value. -/
structure Fn.Verified (F : Fn) : Prop extends F.SsaForm where
  term : ∀ k b, F.blocks[k]? = some b → ∀ a, .inst a ∈ b.term.ops → ∀ d, F.Defines a d →
    Dom F.Edge (.phis 0) d (.term k)
  /-- The value of a phi is read at the end of the block that it comes from. -/
  phi : ∀ b ∈ F.blocks, ∀ p ∈ b.phis, ∀ k a, (k, .inst a) ∈ p.incoming → ∀ d, F.Defines a d →
    Dom F.Edge (.phis 0) d (.term k)
  /-- The entry block has no predecessor. -/
  entry : ∀ b, F.blocks[0]? = some b → b.phis = []
  void : ∀ i ∈ F.instrs, i.ty = .void → ∀ u, ¬F.UsedBy (.inst i.id) u
  extractvalue : ∀ i ∈ F.instrs, ∀ ks, i.op = .extractvalue ks → ∃ v, i.ops = [v]

theorem Fn.StraightLine.verified {F : Fn} {b : Block} (h : F.StraightLine b)
    (hvoid : ∀ i ∈ b.body, i.ty = .void → F.users (.inst i.id) = [])
    (hext : ∀ i ∈ b.body, ∀ ks, i.op = .extractvalue ks → i.ops.length = 1) : F.Verified where
  toSsaForm := h.ssaForm
  term _ _ hb _ ha _ hd := h.dom_term hb ha hd
  phi b' hb p hp := by
    rw [h.blocks, List.mem_singleton] at hb
    rw [hb, h.phis] at hp
    cases hp
  entry b' hb := by
    rw [(h.block_eq hb).2, h.phis]
  void i hi hty u hu := by
    rw [h.instrs] at hi
    have hmem := mem_users.mpr hu
    rw [hvoid i hi hty] at hmem
    cases hmem
  extractvalue i hi ks hop := by
    rw [h.instrs] at hi
    exact List.length_eq_one_iff.mp (hext i hi ks hop)

/-- A run comes to the return instruction of a block with these values and this world. -/
def Fn.Returns (F : Fn) (M : Semantics V W) (world : W) (vals : List (Datum V)) (world' : W) : Prop :=
  ∃ c b, F.Reaches M world c ∧ c.rest = some [] ∧ F.blocks[c.blk]? = some b ∧ b.term.op = .ret ∧
    vals = b.term.ops.map (·.eval M c.env) ∧ world' = c.world

/-- Every run of `F` is a run of `G` with the same values for the ids in `K`. -/
def Fn.SimulatesIn (M : Semantics V W) (F G : Fn) (K : List Nat) : Prop :=
  ∀ (world : W) (c : SsaCfg V W), F.Reaches M world c → ∃ c', G.Reaches M world c' ∧ c.Agree K c'

variable {F : Fn} {M : Semantics V W} {c c' d : SsaCfg V W} {i : Instr} {b : Block} {v : Val} {world : W}
  {D : List Nat} {σ : Val → Val}

/-! ## Operands -/

/-- The next step evaluates the operand. -/
def SsaCfg.Reads (F : Fn) (c : SsaCfg V W) (v : Val) : Prop :=
  match c.rest with
  | none => ∃ b, F.blocks[c.blk]? = some b ∧ ∃ p ∈ b.phis, (c.pred, v) ∈ p.incoming
  | some (i :: _) => v ∈ i.ops
  | some [] => ∃ b, F.blocks[c.blk]? = some b ∧ v ∈ b.term.ops

theorem came_from (hc : F.Reaches M world c) (hrest : c.rest = none) : c = SsaCfg.start world ∨
    ∃ c₀, F.Reaches M world c₀ ∧ c₀.node = .term c.pred ∧ c₀.env = c.env := by
  cases hc with
  | refl => exact Or.inl rfl
  | @tail c₀ _ hc₀ hs =>
    rcases step_cases hs with ⟨_, b, _, rfl⟩ | ⟨i, rest, v, world', _, _, rfl⟩ |
      ⟨b, n, world', s, hnil, _, _, _, rfl⟩
    · cases hrest
    · cases hrest
    · exact Or.inr ⟨c₀, hc₀, by rw [SsaCfg.node, hnil], rfl⟩

/-- What is read is available where the environment has been the same. -/
theorem Fn.Verified.reads (hF : F.Verified) (hc : F.Reaches M world c) (h : c.Reads F v) :
    ∃ c₀, F.Reaches M world c₀ ∧ c₀.env = c.env ∧ F.Available v c₀.node := by
  unfold SsaCfg.Reads at h
  split at h
  · rename_i hrest
    obtain ⟨b, hb, p, hp, hin⟩ := h
    rcases came_from hc hrest with rfl | ⟨c₀, hc₀, hnode, henv⟩
    · rw [hF.entry b hb] at hp
      cases hp
    · refine ⟨c₀, hc₀, henv, fun a ha d hd => ?_⟩
      rw [hnode]
      exact hF.phi b (List.mem_of_getElem? hb) p hp c.pred a (ha ▸ hin) d hd
  · rename_i i rest hrest
    refine ⟨c, hc, rfl, fun a ha d hd => ?_⟩
    rw [SsaCfg.node, hrest]
    exact hF.dom i ((fits_reaches hc).mem hrest (List.mem_cons_self ..)) a (ha ▸ h) d hd
  · rename_i hrest
    obtain ⟨b, hb, hv⟩ := h
    refine ⟨c, hc, rfl, fun a ha d hd => ?_⟩
    rw [SsaCfg.node, hrest]
    exact hF.term c.blk b hb a (ha ▸ hv) d hd

/-! ## Lockstep -/

/-- The edits that erase `D`. -/
def Edits.erasing (D : List Nat) (σ : Val → Val) : Edits where
  new i := if i.id ∈ D then [] else [i]
  subst := σ

/-- The instructions in `D` have no effect, and what the others read is still there. -/
structure Erasable (F : Fn) (M : Semantics V W) (world : W) (D : List Nat) (σ : Val → Val) : Prop where
  silent : ∀ c i, F.Reaches M world c → i ∈ F.instrs → c.node = .body i.id → i.id ∈ D →
    ∃ x, M.run i.op i.ty (i.ops.map (·.eval M c.env)) c.world = some (x, c.world)
  reads : ∀ c v, F.Reaches M world c → (∀ a ∈ D, c.node ≠ .body a) → c.Reads F v →
    (∀ a ∈ D, σ v ≠ .inst a) ∧ (σ v).eval M c.env = v.eval M c.env

/-- What has become of the rest of a block. -/
def spared (D : List Nat) (σ : Val → Val) (is : List Instr) : List Instr :=
  is.flatMap fun i => ((Edits.erasing D σ).new i).map (·.map σ)

/-- The configuration of the new function that stands for one of the old function. -/
structure Spared (D : List Nat) (σ : Val → Val) (c c' : SsaCfg V W) : Prop where
  blk : c'.blk = c.blk
  pred : c'.pred = c.pred
  world : c'.world = c.world
  rest : c'.rest = c.rest.map (spared D σ)
  env : ∀ a, a ∉ D → c'.env a = c.env a

theorem spared_cons {is : List Instr} (hi : i.id ∉ D) : spared D σ (i :: is) = i.map σ :: spared D σ is := by
  rw [spared, List.flatMap_cons]
  simp [Edits.erasing, hi, spared]

theorem spared_skip {is : List Instr} (hi : i.id ∈ D) : spared D σ (i :: is) = spared D σ is := by
  rw [spared, List.flatMap_cons]
  simp [Edits.erasing, hi, spared]

theorem Spared.eval (h : Spared D σ c c') (hv : (∀ a ∈ D, σ v ≠ .inst a) ∧ (σ v).eval M c.env = v.eval M c.env) :
    (σ v).eval M c'.env = v.eval M c.env := by
  rw [← hv.2]
  exact eval_congr fun a ha => h.env a fun hin => hv.1 a hin ha

theorem Spared.map_eval (h : Spared D σ c c') {vs : List Val}
    (hvs : ∀ v ∈ vs, (∀ a ∈ D, σ v ≠ .inst a) ∧ (σ v).eval M c.env = v.eval M c.env) :
    (vs.map σ).map (·.eval M c'.env) = vs.map (·.eval M c.env) := by
  rw [List.map_map]
  exact List.map_congr_left fun v hv => h.eval (hvs v hv)

theorem erasing_block {k : Nat} (F : Fn) : (F.edit (.erasing D σ)).blocks[k]? =
    (F.blocks[k]?).map (·.edit (.erasing D σ)) := by
  rw [edit_blocks rfl, List.getElem?_map]

theorem Spared.enter (h : Spared D σ c c')
    (hreads : ∀ p ∈ b.phis, ∀ v, (c.pred, v) ∈ p.incoming →
      (∀ a ∈ D, σ v ≠ .inst a) ∧ (σ v).eval M c.env = v.eval M c.env) {a : Nat} (ha : a ∉ D) :
    (b.edit (.erasing D σ)).enter M c'.pred c'.env a = b.enter M c.pred c.env a := by
  have hfind : (b.edit (.erasing D σ)).phis.find? (·.id = a) = (b.phis.find? (·.id = a)).map (·.map σ) :=
    List.find?_map ..
  unfold Block.enter
  rw [hfind, h.pred]
  cases hp : b.phis.find? (·.id = a) with
  | none => exact h.env a ha
  | some p =>
    have hmem := List.mem_of_find?_eq_some hp
    show (((p.incoming.map fun e => (e.1, σ e.2)).lookup c.pred).map _).getD _ =
      ((p.incoming.lookup c.pred).map _).getD _
    rw [Fn.lookup_map]
    cases hl : p.incoming.lookup c.pred with
    | none => rfl
    | some v =>
      exact h.eval (hreads p hmem v (Fn.mem_of_lookup hl))

/-- Both functions make the same step, or both are stuck. -/
theorem Erasable.lockstep (h : Erasable F M world D σ) (hc : F.Reaches M world c) (hm : Spared D σ c c')
    (hnode : ∀ a ∈ D, c.node ≠ .body a) :
    F.step M c = none ∧ (F.edit (.erasing D σ)).step M c' = none ∨
      ∃ d d', F.step M c = some d ∧ (F.edit (.erasing D σ)).step M c' = some d' ∧ Spared D σ d d' := by
  have hreads := h.reads c
  unfold Fn.step
  rw [hm.rest, hm.blk, erasing_block]
  cases hrest : c.rest with
  | none =>
    show ((F.blocks[c.blk]?).bind _ = none ∧ ((F.blocks[c.blk]?).map _).bind _ = none) ∨
      ∃ d d', (F.blocks[c.blk]?).bind _ = some d ∧ ((F.blocks[c.blk]?).map _).bind _ = some d' ∧ _
    cases hb : F.blocks[c.blk]? with
    | none => exact Or.inl ⟨rfl, rfl⟩
    | some b =>
      refine Or.inr ⟨_, _, rfl, rfl, rfl, hm.pred, hm.world, rfl, fun a ha => ?_⟩
      refine hm.enter (fun p hp v hv => ?_) ha
      refine hreads v hc hnode ?_
      unfold SsaCfg.Reads
      rw [hrest]
      exact ⟨b, hb, p, hp, hv⟩
  | some rest =>
    cases rest with
    | cons i rest =>
      have hi : i.id ∉ D := fun hin => hnode _ hin (by rw [SsaCfg.node, hrest])
      have hops : (i.ops.map σ).map (·.eval M c'.env) = i.ops.map (·.eval M c.env) := by
        refine hm.map_eval fun v hv => hreads v hc hnode ?_
        unfold SsaCfg.Reads
        rw [hrest]
        exact hv
      rw [Option.map_some, spared_cons hi]
      show ((M.run i.op i.ty (i.ops.map _) c.world).bind _ = none ∧
        (M.run i.op i.ty ((i.ops.map σ).map _) c'.world).bind _ = none) ∨
        ∃ d d', (M.run i.op i.ty (i.ops.map _) c.world).bind _ = some d ∧
          (M.run i.op i.ty ((i.ops.map σ).map _) c'.world).bind _ = some d' ∧ _
      rw [hops, hm.world]
      cases hrun : M.run i.op i.ty (i.ops.map (·.eval M c.env)) c.world with
      | none => exact Or.inl ⟨rfl, rfl⟩
      | some r =>
        refine Or.inr ⟨_, _, rfl, rfl, rfl, hm.pred, rfl, rfl, fun a ha => ?_⟩
        show Function.update c'.env i.id r.1 a = Function.update c.env i.id r.1 a
        by_cases hai : a = i.id
        · rw [hai, Function.update_self, Function.update_self]
        · rw [Function.update_of_ne hai, Function.update_of_ne hai]
          exact hm.env a ha
    | nil =>
      show ((F.blocks[c.blk]?).bind _ = none ∧ ((F.blocks[c.blk]?).map _).bind _ = none) ∨
        ∃ d d', (F.blocks[c.blk]?).bind _ = some d ∧ ((F.blocks[c.blk]?).map _).bind _ = some d' ∧ _
      cases hb : F.blocks[c.blk]? with
      | none => exact Or.inl ⟨rfl, rfl⟩
      | some b =>
        have hops : (b.term.ops.map σ).map (·.eval M c'.env) = b.term.ops.map (·.eval M c.env) := by
          refine hm.map_eval fun v hv => hreads v hc hnode ?_
          unfold SsaCfg.Reads
          rw [hrest]
          exact ⟨b, hb, hv⟩
        show ((M.jump b.term.op (b.term.ops.map _) c.world).bind _ = none ∧
          (M.jump b.term.op ((b.term.ops.map σ).map _) c'.world).bind _ = none) ∨
          ∃ d d', (M.jump b.term.op (b.term.ops.map _) c.world).bind _ = some d ∧
            (M.jump b.term.op ((b.term.ops.map σ).map _) c'.world).bind _ = some d' ∧ _
        rw [hops, hm.world]
        cases hjump : M.jump b.term.op (b.term.ops.map (·.eval M c.env)) c.world with
        | none => exact Or.inl ⟨rfl, rfl⟩
        | some r =>
          show ((b.term.succs[r.1]?).bind _ = none ∧ (b.term.succs[r.1]?).bind _ = none) ∨
            ∃ d d', (b.term.succs[r.1]?).bind _ = some d ∧ (b.term.succs[r.1]?).bind _ = some d' ∧ _
          cases hsucc : b.term.succs[r.1]? with
          | none => exact Or.inl ⟨rfl, rfl⟩
          | some s => exact Or.inr ⟨_, _, rfl, rfl, rfl, rfl, rfl, rfl, hm.env⟩

theorem Erasable.skip (h : Erasable F M world D σ) (hc : F.Reaches M world c)
    (hm : Spared D σ c c') {a : Nat} (ha : a ∈ D) (hnode : c.node = .body a) :
    ∃ d rest, F.step M c = some d ∧ d.rest = some rest ∧ c.rest.map List.length = some (rest.length + 1) ∧
      Spared D σ d c' := by
  obtain ⟨i, rest, hrest, hid⟩ : ∃ i rest, c.rest = some (i :: rest) ∧ i.id = a := by
    unfold SsaCfg.node at hnode
    split at hnode
    · cases hnode
    · rename_i i rest hrest
      exact ⟨i, rest, hrest, Node.body.inj hnode⟩
    · cases hnode
  subst hid
  have hi := (fits_reaches hc).mem hrest (List.mem_cons_self ..)
  obtain ⟨x, hrun⟩ := h.silent c i hc hi hnode ha
  refine ⟨{ c with rest := some rest, env := Function.update c.env i.id x }, rest, ?_, rfl, ?_,
    hm.blk, hm.pred, hm.world, ?_, fun a' ha' => ?_⟩
  · unfold Fn.step
    rw [hrest]
    show (M.run i.op i.ty (i.ops.map _) c.world).bind _ = _
    rw [hrun]
    rfl
  · rw [hrest]
    rfl
  · rw [hm.rest, hrest, Option.map_some, spared_skip ha]
    rfl
  · rw [hm.env a' ha']
    refine (Function.update_of_ne ?_ _ _).symm
    rintro rfl
    exact ha' ha

/-- The old function gets to an instruction that is left. -/
theorem Erasable.settle (h : Erasable F M world D σ) :
    ∀ (n : Nat) (c : SsaCfg V W), F.Reaches M world c → Spared D σ c c' →
      (∀ rest, c.rest = some rest → rest.length ≤ n) →
      ∃ d, F.Reaches M world d ∧ Spared D σ d c' ∧ ∀ a ∈ D, d.node ≠ .body a := by
  intro n
  induction n with
  | zero =>
    intro c hc hm hlen
    refine ⟨c, hc, hm, fun a ha hnode => ?_⟩
    obtain ⟨d, rest, _, _, hlen', _⟩ := h.skip hc hm ha hnode
    cases hrest : c.rest with
    | none =>
      rw [hrest] at hlen'
      cases hlen'
    | some is =>
      have hle := hlen is hrest
      rw [hrest, Option.map_some, Option.some.injEq] at hlen'
      omega
  | succ n ih =>
    intro c hc hm hlen
    by_cases hnode : ∃ a ∈ D, c.node = .body a
    · obtain ⟨a, ha, hnode⟩ := hnode
      obtain ⟨d, rest, hs, hrest, hlen', hm'⟩ := h.skip hc hm ha hnode
      refine ih d (Relation.ReflTransGen.tail hc hs) hm' fun is his => ?_
      rw [hrest] at his
      cases his
      cases hcr : c.rest with
      | none =>
        rw [hcr] at hlen'
        cases hlen'
      | some is =>
        have hle := hlen is hcr
        rw [hcr, Option.map_some, Option.some.injEq] at hlen'
        omega
    · exact ⟨c, hc, hm, fun a ha heq => hnode ⟨a, ha, heq⟩⟩

/-- Every run of the old function is one of the new function. -/
theorem Erasable.match_run (h : Erasable F M world D σ) (hc : F.Reaches M world c) :
    ∃ c', (F.edit (.erasing D σ)).Reaches M world c' ∧ Spared D σ c c' := by
  induction hc with
  | refl => exact ⟨SsaCfg.start world, .refl, rfl, rfl, rfl, rfl, fun _ _ => rfl⟩
  | @tail c d hc hs ih =>
    obtain ⟨c', hc', hm⟩ := ih
    by_cases hnode : ∃ a ∈ D, c.node = .body a
    · obtain ⟨a, ha, hnode⟩ := hnode
      obtain ⟨d', _, hs', _, _, hm'⟩ := h.skip hc hm ha hnode
      rw [hs] at hs'
      cases hs'
      exact ⟨c', hc', hm'⟩
    · rcases h.lockstep hc hm fun a ha heq => hnode ⟨a, ha, heq⟩ with ⟨hnone, _⟩ | ⟨e, d', hs', hs'', hm'⟩
      · rw [hs] at hnone
        cases hnone
      · rw [hs] at hs'
        cases hs'
        exact ⟨d', Relation.ReflTransGen.tail hc' hs'', hm'⟩

/-- Every run of the new function is one of the old function. -/
theorem Erasable.match_back (h : Erasable F M world D σ)
    (hc' : (F.edit (.erasing D σ)).Reaches M world c') :
    ∃ c, F.Reaches M world c ∧ Spared D σ c c' := by
  induction hc' with
  | refl => exact ⟨SsaCfg.start world, .refl, rfl, rfl, rfl, rfl, fun _ _ => rfl⟩
  | @tail c' d' _ hs ih =>
    obtain ⟨c, hc, hm⟩ := ih
    obtain ⟨e, he, hm, hnode⟩ := h.settle (c.rest.elim 0 List.length) c hc hm fun rest hrest => by
      rw [hrest]
      exact Nat.le_refl _
    rcases h.lockstep he hm hnode with ⟨_, hnone⟩ | ⟨d, e', hs', hs'', hm'⟩
    · rw [hs] at hnone
      cases hnone
    · rw [hs] at hs''
      cases hs''
      exact ⟨d, Relation.ReflTransGen.tail he hs', hm'⟩

theorem Spared.agree (h : Spared D σ c c') {K : List Nat} (hK : ∀ a ∈ K, a ∉ D) : c.Agree K c' := by
  refine ⟨h.blk, h.pred, h.world, ?_, fun a ha => h.env a (hK a ha)⟩
  rw [h.rest, Option.map_map]
  congr 1
  funext is
  show ((spared D σ is).map (·.id)).filter _ = _
  induction is with
  | nil => rfl
  | cons i is ih =>
    by_cases hi : i.id ∈ D
    · have hk : i.id ∉ K := fun hin => hK _ hin hi
      rw [spared_skip hi, ih, List.map_cons, List.filter_cons_of_neg (by simp [hk])]
    · rw [spared_cons hi, List.map_cons, List.map_cons, List.filter_cons, List.filter_cons, ih]
      rfl

theorem erasing_simulates (h : ∀ world, Erasable F M world D σ) {K : List Nat}
    (hK : ∀ a ∈ K, a ∉ D) : F.SimulatesIn M (F.edit (.erasing D σ)) K ∧
      (F.edit (.erasing D σ)).SimulatesIn M F K := by
  refine ⟨fun world c hc => ?_, fun world c' hc' => ?_⟩
  · obtain ⟨c', hc', hm⟩ := (h world).match_run hc
    exact ⟨c', hc', hm.agree hK⟩
  · obtain ⟨c, hc, hm⟩ := (h world).match_back hc'
    exact ⟨c, hc, (hm.agree hK).symm⟩

theorem erasing_returns (h : Erasable F M world D σ) {vals : List (Datum V)} {world' : W} :
    F.Returns M world vals world' ↔ (F.edit (.erasing D σ)).Returns M world vals world' := by
  have hvals : ∀ {c c' : SsaCfg V W} {b : Block}, F.Reaches M world c → Spared D σ c c' → c.rest = some [] →
      F.blocks[c.blk]? = some b →
      (b.term.ops.map σ).map (·.eval M c'.env) = b.term.ops.map (·.eval M c.env) := by
    intro c c' b hc hm hrest hb
    refine hm.map_eval fun v hv => h.reads c v hc (fun a _ heq => ?_) ?_
    · rw [SsaCfg.node, hrest] at heq
      cases heq
    · unfold SsaCfg.Reads
      rw [hrest]
      exact ⟨b, hb, hv⟩
  constructor
  · rintro ⟨c, b, hc, hrest, hb, hop, rfl, rfl⟩
    obtain ⟨c', hc', hm⟩ := h.match_run hc
    refine ⟨c', b.edit (.erasing D σ), hc', ?_, ?_, hop, (hvals hc hm hrest hb).symm, hm.world.symm⟩
    · rw [hm.rest, hrest]
      rfl
    · rw [hm.blk, erasing_block, hb]
      rfl
  · rintro ⟨c', b', hc', hrest', hb', hop, rfl, rfl⟩
    obtain ⟨c, hc, hm⟩ := h.match_back hc'
    obtain ⟨d, hd, hm, hnode⟩ := h.settle (c.rest.elim 0 List.length) c hc hm fun rest hrest => by
      rw [hrest]
      exact Nat.le_refl _
    have hrest : d.rest = some [] := by
      rw [hm.rest] at hrest'
      cases hdr : d.rest with
      | none =>
        rw [hdr] at hrest'
        cases hrest'
      | some is =>
        cases is with
        | nil => rfl
        | cons i is =>
          have hi : i.id ∉ D := fun hin => hnode _ hin (by rw [SsaCfg.node, hdr])
          rw [hdr, Option.map_some, spared_cons hi] at hrest'
          cases hrest'
    rw [hm.blk, erasing_block, Option.map_eq_some_iff] at hb'
    obtain ⟨b, hb, rfl⟩ := hb'
    exact ⟨d, b, hd, hrest, hb, hop, hvals hd hm hrest hb, hm.world⟩

end BpfTv.Ssa
