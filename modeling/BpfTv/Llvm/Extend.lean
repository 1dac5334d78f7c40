import BpfTv.Llvm.Erase

/-!
# Replaced and appended instructions

A function has the same runs when its instructions are replaced by ones that do the same
(`relabel_simulates`), and when instructions that leave the world alone are put before its return
instructions (`Extended.simulates`); the function then returns what these make of the values
(`Extended.returns`).
-/

namespace BpfTv.Ssa

variable {V W : Type} {F G : Fn} {M : Semantics V W} {c c' d : SsaCfg V W} {i : Instr} {b b' : Block} {v : Val}
  {world : W} {f : Instr → Instr} {K : List Nat}

theorem Fn.SimulatesIn.trans {F₁ : Fn} (h : F.SimulatesIn M F₁ K) (h' : F₁.SimulatesIn M G K) :
    F.SimulatesIn M G K := by
  intro world c hc
  obtain ⟨c₁, hc₁, hagree⟩ := h world c hc
  obtain ⟨c', hc', hagree'⟩ := h' world c₁ hc₁
  exact ⟨c', hc', hagree.trans hagree'⟩

/-! ## Instructions that do the same -/

def Fn.relabel (F : Fn) (f : Instr → Instr) : Fn := F.expand fun i => [f i]

structure Fn.Relabels (F : Fn) (M : Semantics V W) (f : Instr → Instr) : Prop where
  id : ∀ i ∈ F.instrs, (f i).id = i.id
  ops : ∀ i ∈ F.instrs, (f i).ops = i.ops
  run : ∀ i ∈ F.instrs, ∀ xs world, M.run (f i).op (f i).ty xs world = M.run i.op i.ty xs world

def SsaCfg.relabel (f : Instr → Instr) (c : SsaCfg V W) : SsaCfg V W := { c with rest := c.rest.map (·.map f) }

theorem relabel_block (k : Nat) :
    (F.relabel f).blocks[k]? = (F.blocks[k]?).map fun b => { b with body := b.body.map f } := by
  have hbody : ∀ b : Block, { b with body := b.body.flatMap fun i => [f i] } = { b with body := b.body.map f } := by
    intro b
    rw [List.map_eq_flatMap]
  simp only [Fn.relabel, Fn.expand, List.getElem?_map, hbody]

theorem relabel_step (h : F.Relabels M f) (hc : c.Fits F) :
    (F.relabel f).step M (c.relabel f) = (F.step M c).map (·.relabel f) := by
  unfold Fn.step
  have hrel : (c.relabel f).rest = c.rest.map (·.map f) := rfl
  rw [hrel]
  cases hrest : c.rest with
  | none =>
    show ((F.relabel f).blocks[c.blk]?).bind _ = ((F.blocks[c.blk]?).bind _).map _
    rw [relabel_block]
    cases F.blocks[c.blk]? <;> rfl
  | some rest =>
    cases rest with
    | nil =>
      show ((F.relabel f).blocks[c.blk]?).bind _ = ((F.blocks[c.blk]?).bind _).map _
      rw [relabel_block]
      cases F.blocks[c.blk]? with
      | none => rfl
      | some b =>
        show (M.jump b.term.op (b.term.ops.map (·.eval M c.env)) c.world).bind _ =
          ((M.jump b.term.op (b.term.ops.map (·.eval M c.env)) c.world).bind _).map _
        cases M.jump b.term.op (b.term.ops.map (·.eval M c.env)) c.world with
        | none => rfl
        | some r =>
          show (b.term.succs[r.1]?).bind _ = ((b.term.succs[r.1]?).bind _).map _
          cases b.term.succs[r.1]? <;> rfl
    | cons i rest =>
      have hi := hc.mem hrest (List.mem_cons_self ..)
      show (M.run (f i).op (f i).ty ((f i).ops.map (·.eval M c.env)) c.world).bind _ =
        ((M.run i.op i.ty (i.ops.map (·.eval M c.env)) c.world).bind _).map _
      rw [h.ops i hi, h.run i hi, h.id i hi]
      cases M.run i.op i.ty (i.ops.map (·.eval M c.env)) c.world <;> rfl

theorem relabel_reaches (h : F.Relabels M f) :
    (F.relabel f).Reaches M world c' ↔ ∃ c, F.Reaches M world c ∧ c' = c.relabel f := by
  constructor
  · intro hc
    induction hc with
    | refl => exact ⟨SsaCfg.start world, .refl, rfl⟩
    | tail _ hs ih =>
      obtain ⟨c, hc, rfl⟩ := ih
      rw [relabel_step h (fits_reaches hc), Option.map_eq_some_iff] at hs
      obtain ⟨d, hd, rfl⟩ := hs
      exact ⟨d, Relation.ReflTransGen.tail hc hd, rfl⟩
  · rintro ⟨c, hc, rfl⟩
    induction hc with
    | refl => exact .refl
    | tail hc hs ih =>
      refine Relation.ReflTransGen.tail ih ?_
      show (F.relabel f).step M _ = _
      rw [relabel_step h (fits_reaches hc), hs]
      rfl

theorem relabel_agree (h : F.Relabels M f) (hc : c.Fits F) : c.Agree K (c.relabel f) := by
  refine ⟨rfl, rfl, rfl, ?_, fun _ _ => rfl⟩
  show (c.rest.map (·.map f)).map _ = _
  cases hrest : c.rest with
  | none => rfl
  | some rest =>
    have hids : (rest.map f).map (·.id) = rest.map (·.id) := by
      rw [List.map_map]
      exact List.map_congr_left fun i hi => h.id i (hc.mem hrest hi)
    rw [Option.map_some, Option.map_some, Option.map_some, hids]

theorem relabel_simulates (h : F.Relabels M f) :
    F.SimulatesIn M (F.relabel f) K ∧ (F.relabel f).SimulatesIn M F K := by
  constructor
  · intro world c hc
    exact ⟨_, (relabel_reaches h).mpr ⟨c, hc, rfl⟩, relabel_agree h (fits_reaches hc)⟩
  · intro world c' hc'
    obtain ⟨c, hc, rfl⟩ := (relabel_reaches h).mp hc'
    exact ⟨c, hc, (relabel_agree h (fits_reaches hc)).symm⟩

theorem relabel_returns (h : F.Relabels M f) {vals : List (Datum V)} {world' : W} :
    F.Returns M world vals world' ↔ (F.relabel f).Returns M world vals world' := by
  constructor
  · rintro ⟨c, b, hc, hrest, hb, hop, rfl, rfl⟩
    refine ⟨c.relabel f, { b with body := b.body.map f }, (relabel_reaches h).mpr ⟨c, hc, rfl⟩, ?_, ?_, hop,
      rfl, rfl⟩
    · show c.rest.map (·.map f) = _
      rw [hrest]
      rfl
    · show (F.relabel f).blocks[c.blk]? = _
      rw [relabel_block, hb]
      rfl
  · rintro ⟨c', b', hc', hrest', hb', hop, rfl, rfl⟩
    obtain ⟨c, hc, rfl⟩ := (relabel_reaches h).mp hc'
    have hb : (F.relabel f).blocks[c.blk]? = some b' := hb'
    rw [relabel_block, Option.map_eq_some_iff] at hb
    obtain ⟨b, hb, rfl⟩ := hb
    refine ⟨c, b, hc, ?_, hb, hop, rfl, rfl⟩
    have hmap : c.rest.map (·.map f) = some [] := hrest'
    rw [Option.map_eq_some_iff] at hmap
    obtain ⟨rest, hrest, hnil⟩ := hmap
    rw [hrest, List.map_eq_nil_iff.mp hnil]

/-! ## Instructions before the return -/

/-- Instructions numbered from `next` on that always execute and leave the world alone. -/
inductive Silently (M : Semantics V W) (next : Nat) : List Instr → SsaEnv V → SsaEnv V → Prop
  | nil (ρ : SsaEnv V) : Silently M next [] ρ ρ
  | cons {i : Instr} {is : List Instr} {ρ ρ' : SsaEnv V} {x : Datum V} (hid : next ≤ i.id)
      (hrun : ∀ world, M.run i.op i.ty (i.ops.map (·.eval M ρ)) world = some (x, world))
      (h : Silently M next is (Function.update ρ i.id x) ρ') : Silently M next (i :: is) ρ ρ'

/-- `b'` is `b`, with such instructions before its return instruction; these make `g` of what it returns. -/
structure Block.Extended (M : Semantics V W) (next : Nat) (g : Datum V → Datum V) (b b' : Block) : Prop where
  phis : b'.phis = b.phis
  op : b'.term.op = b.term.op
  kept : b.term.op ≠ .ret → b' = b
  ret : b.term.op = .ret → b'.term.succs = [] ∧ ∃ is, b'.body = b.body ++ is ∧ ∀ ρ, ∃ ρ',
    Silently M next is ρ ρ' ∧ b'.term.ops.map (·.eval M ρ') = (b.term.ops.map (·.eval M ρ)).map g

structure Fn.Extended (M : Semantics V W) (next : Nat) (g : Datum V → Datum V) (F G : Fn) : Prop where
  blocks : List.Forall₂ (Block.Extended M next g) F.blocks G.blocks
  /-- The numbers from `next` on are free. -/
  below : ∀ a u, F.UsedBy (.inst a) u → a < next
  ret : ∀ b ∈ F.blocks, b.term.op = .ret → b.term.succs = []

variable {next : Nat} {g : Datum V → Datum V} {is rest tail : List Instr} {ρ ρ' : SsaEnv V}

theorem Silently.ids (h : Silently M next is ρ ρ') : ∀ i ∈ is, next ≤ i.id := by
  induction h with
  | nil => exact nofun
  | cons hid _ _ ih =>
    intro j hj
    rcases List.mem_cons.mp hj with rfl | hj
    · exact hid
    · exact ih j hj

theorem forall₂_getElem {α β : Type} {R : α → β → Prop} {xs : List α} {ys : List β} (h : List.Forall₂ R xs ys)
    (k : Nat) : xs[k]? = none ∧ ys[k]? = none ∨ ∃ x y, xs[k]? = some x ∧ ys[k]? = some y ∧ R x y := by
  induction h generalizing k with
  | nil => exact Or.inl ⟨rfl, rfl⟩
  | cons hxy _ ih =>
    cases k with
    | zero => exact Or.inr ⟨_, _, rfl, rfl, hxy⟩
    | succ k => exact ih k

/-- What is left of a block of the new function: the end of the block of the old one and what has been put
behind it, or the end of that. -/
inductive Tail (M : Semantics V W) (next : Nat) (g : Datum V → Datum V) (b b' : Block) (ρ ρ' : SsaEnv V) :
    List Instr → List Instr → Prop
  | kept {rest : List Instr} (h : b' = b) (hop : b.term.op ≠ .ret) : Tail M next g b b' ρ ρ' rest rest
  | body {i : Instr} {rest is : List Instr} (hop : b.term.op = .ret) (hbody : b'.body = b.body ++ is) :
      Tail M next g b b' ρ ρ' (i :: rest) (i :: rest ++ is)
  | ret {tail : List Instr} {ρ'' : SsaEnv V} (hop : b.term.op = .ret) (h : Silently M next tail ρ' ρ'')
      (heval : b'.term.ops.map (·.eval M ρ'') = (b.term.ops.map (·.eval M ρ)).map g) :
      Tail M next g b b' ρ ρ' [] tail

/-- The configuration of the new function that stands for one of the old function. -/
structure Extending (M : Semantics V W) (next : Nat) (g : Datum V → Datum V) (F G : Fn) (c c' : SsaCfg V W) :
    Prop where
  blk : c'.blk = c.blk
  pred : c'.pred = c.pred
  world : c'.world = c.world
  env : ∀ a < next, c'.env a = c.env a
  rest : c.rest = none ∧ c'.rest = none ∨ ∃ b b' rest tail, F.blocks[c.blk]? = some b ∧
    G.blocks[c.blk]? = some b' ∧ b.Extended M next g b' ∧ c.rest = some rest ∧ c'.rest = some tail ∧
    Tail M next g b b' c.env c'.env rest tail

theorem eval_below (h : ∀ a < next, ρ' a = ρ a) {vs : List Val} (hvs : ∀ a, .inst a ∈ vs → a < next) :
    vs.map (·.eval M ρ') = vs.map (·.eval M ρ) :=
  map_eval_congr fun a ha => h a (hvs a ha)

theorem Tail.arrive (hb : b.Extended M next g b') (hrest : b.term.op = .ret → ∀ is, b'.body = b.body ++ is →
      tail = rest ++ is) (hkept : b.term.op ≠ .ret → tail = rest)
    (heval : b.term.ops.map (·.eval M ρ') = b.term.ops.map (·.eval M ρ)) :
    Tail M next g b b' ρ ρ' rest tail := by
  by_cases hop : b.term.op = .ret
  · obtain ⟨_, is, hbody, his⟩ := hb.ret hop
    rw [hrest hop is hbody]
    cases rest with
    | cons i rest => exact .body hop hbody
    | nil =>
      obtain ⟨ρ'', hsil, hops⟩ := his ρ'
      exact .ret hop hsil (by rw [hops, heval])
  · rw [hkept hop]
    exact .kept (hb.kept hop) hop

theorem Fn.Extended.enter (h : F.Extended M next g G) (hb : b ∈ F.blocks) (hphis : b'.phis = b.phis) {k : Nat}
    (henv : ∀ a < next, ρ' a = ρ a) {a : Nat} (ha : a < next) : b'.enter M k ρ' a = b.enter M k ρ a := by
  unfold Block.enter
  rw [hphis]
  cases hp : b.phis.find? (·.id = a) with
  | none => exact henv a ha
  | some p =>
    show ((p.incoming.lookup k).map _).getD _ = ((p.incoming.lookup k).map _).getD _
    cases hl : p.incoming.lookup k with
    | none => rfl
    | some v =>
      refine eval_congr fun a ha => henv a ?_
      refine h.below a (.phi p) (.phi hb (List.mem_of_find?_eq_some hp) ?_)
      exact List.mem_map.mpr ⟨(k, v), Fn.mem_of_lookup hl, ha⟩

/-- Elsewhere than at a return instruction, both functions make the same step, or both are stuck. -/
theorem Extending.lockstep (h : F.Extended M next g G) (hc : F.Reaches M world c)
    (hm : Extending M next g F G c c')
    (hret : ∀ b, F.blocks[c.blk]? = some b → c.rest = some [] → b.term.op ≠ .ret) :
    F.step M c = none ∧ G.step M c' = none ∨
      ∃ d d', F.step M c = some d ∧ G.step M c' = some d' ∧ Extending M next g F G d d' := by
  have hterm : ∀ {ρ ρ' : SsaEnv V} {b : Block}, b ∈ F.blocks → (∀ a < next, ρ' a = ρ a) →
      b.term.ops.map (·.eval M ρ') = b.term.ops.map (·.eval M ρ) := fun hb henv =>
    eval_below henv fun a ha => h.below a _ (.term hb ha)
  rcases hm.rest with ⟨hrest, hrest'⟩ | ⟨b, b', rest, tail, hb, hb', hext, hrest, hrest', htail⟩
  · unfold Fn.step
    rw [hrest, hrest', hm.blk]
    show ((F.blocks[c.blk]?).bind _ = none ∧ (G.blocks[c.blk]?).bind _ = none) ∨
      ∃ d d', (F.blocks[c.blk]?).bind _ = some d ∧ (G.blocks[c.blk]?).bind _ = some d' ∧ _
    rcases forall₂_getElem h.blocks c.blk with ⟨hb, hb'⟩ | ⟨b, b', hb, hb', hext⟩
    · rw [hb, hb']
      exact Or.inl ⟨rfl, rfl⟩
    · rw [hb, hb']
      have hmem := List.mem_of_getElem? hb
      have henv : ∀ a < next, b'.enter M c'.pred c'.env a = b.enter M c.pred c.env a := by
        intro a ha
        rw [hm.pred]
        exact h.enter hmem hext.phis hm.env ha
      refine Or.inr ⟨_, _, rfl, rfl, rfl, hm.pred, hm.world, henv, Or.inr ⟨b, b', _, _, hb, ?_, hext, rfl, rfl, ?_⟩⟩
      · exact hb'
      · refine Tail.arrive hext (fun _ is hbody => hbody) (fun hop => ?_) (hterm hmem henv)
        rw [hext.kept hop]
  · have hmem := List.mem_of_getElem? hb
    cases rest with
    | nil =>
      have hop := hret b hb hrest
      obtain ⟨rfl, rfl⟩ : b' = b ∧ tail = [] := by
        cases htail with
        | kept heq _ => exact ⟨heq, rfl⟩
        | ret hop' _ _ => exact absurd hop' hop
      unfold Fn.step
      rw [hrest, hrest', hm.blk, hm.world]
      show ((F.blocks[c.blk]?).bind _ = none ∧ (G.blocks[c.blk]?).bind _ = none) ∨
        ∃ d d', (F.blocks[c.blk]?).bind _ = some d ∧ (G.blocks[c.blk]?).bind _ = some d' ∧ _
      rw [hb, hb']
      show ((M.jump b'.term.op (b'.term.ops.map (·.eval M c.env)) c.world).bind _ = none ∧
        (M.jump b'.term.op (b'.term.ops.map (·.eval M c'.env)) c.world).bind _ = none) ∨
        ∃ d d', (M.jump b'.term.op (b'.term.ops.map (·.eval M c.env)) c.world).bind _ = some d ∧
          (M.jump b'.term.op (b'.term.ops.map (·.eval M c'.env)) c.world).bind _ = some d' ∧ _
      rw [hterm hmem hm.env]
      cases M.jump b'.term.op (b'.term.ops.map (·.eval M c.env)) c.world with
      | none => exact Or.inl ⟨rfl, rfl⟩
      | some r =>
        show ((b'.term.succs[r.1]?).bind _ = none ∧ (b'.term.succs[r.1]?).bind _ = none) ∨
          ∃ d d', (b'.term.succs[r.1]?).bind _ = some d ∧ (b'.term.succs[r.1]?).bind _ = some d' ∧ _
        cases b'.term.succs[r.1]? with
        | none => exact Or.inl ⟨rfl, rfl⟩
        | some s => exact Or.inr ⟨_, _, rfl, rfl, rfl, rfl, rfl, hm.env, Or.inl ⟨rfl, rfl⟩⟩
    | cons i rest =>
      have hi := (fits_reaches hc).mem hrest (List.mem_cons_self ..)
      have hops : i.ops.map (·.eval M c'.env) = i.ops.map (·.eval M c.env) :=
        eval_below hm.env fun a ha => h.below a _ (.instr hi ha)
      obtain ⟨tail, rfl, hret', hkept⟩ : ∃ is, tail = i :: (rest ++ is) ∧
          (b.term.op = .ret → b'.body = b.body ++ is) ∧ (b.term.op ≠ .ret → is = []) := by
        cases htail with
        | kept _ hop => exact ⟨[], by rw [List.append_nil], fun h => absurd h hop, fun _ => rfl⟩
        | body hop hbody => exact ⟨_, rfl, fun _ => hbody, fun h => absurd hop h⟩
      unfold Fn.step
      rw [hrest, hrest', hm.world]
      show ((M.run i.op i.ty (i.ops.map (·.eval M c.env)) c.world).bind _ = none ∧
        (M.run i.op i.ty (i.ops.map (·.eval M c'.env)) c.world).bind _ = none) ∨
        ∃ d d', (M.run i.op i.ty (i.ops.map (·.eval M c.env)) c.world).bind _ = some d ∧
          (M.run i.op i.ty (i.ops.map (·.eval M c'.env)) c.world).bind _ = some d' ∧ _
      rw [hops]
      cases M.run i.op i.ty (i.ops.map (·.eval M c.env)) c.world with
      | none => exact Or.inl ⟨rfl, rfl⟩
      | some r =>
        have henv : ∀ a < next, Function.update c'.env i.id r.1 a = Function.update c.env i.id r.1 a := by
          intro a ha
          by_cases hai : a = i.id
          · rw [hai, Function.update_self, Function.update_self]
          · rw [Function.update_of_ne hai, Function.update_of_ne hai]
            exact hm.env a ha
        refine Or.inr ⟨_, _, rfl, rfl, hm.blk, hm.pred, rfl, henv,
          Or.inr ⟨b, b', _, _, hb, hb', hext, rfl, rfl, ?_⟩⟩
        refine Tail.arrive hext (fun hop is hbody => ?_) (fun hop => ?_) (hterm hmem henv)
        · rw [List.append_cancel_left ((hret' hop).symm.trans hbody)]
        · rw [hkept hop, List.append_nil]

/-- The old function stops at a return instruction; the new one goes through what has been put there. -/
theorem Extending.at_ret (h : F.Extended M next g G) (hm : Extending M next g F G c c')
    (hrest : c.rest = some []) (hb : F.blocks[c.blk]? = some b) (hop : b.term.op = .ret) :
    F.step M c = none ∧ ∀ d', G.step M c' = some d' → Extending M next g F G c d' := by
  have hsuccs := h.ret b (List.mem_of_getElem? hb) hop
  constructor
  · unfold Fn.step
    rw [hrest]
    show (F.blocks[c.blk]?).bind _ = _
    rw [hb]
    show (M.jump b.term.op (b.term.ops.map (·.eval M c.env)) c.world).bind _ = _
    cases M.jump b.term.op (b.term.ops.map (·.eval M c.env)) c.world with
    | none => rfl
    | some r =>
      show (b.term.succs[r.1]?).bind _ = _
      rw [hsuccs]
      rfl
  · intro d' hs
    obtain ⟨b₀, b', rest, tail, hb₀, hb', hext, hrest₀, hrest', htail⟩ := hm.rest.resolve_left fun hnone => by
      rw [hrest] at hnone
      cases hnone.1
    rw [hb] at hb₀
    rw [hrest] at hrest₀
    cases hb₀
    cases hrest₀
    cases htail with
    | kept _ hne => exact absurd hop hne
    | ret _ hsil heval =>
      cases hsil with
      | nil =>
        -- the return instruction of the new function has no successor either
        have hnil := (hext.ret hop).1
        rcases step_cases hs with ⟨hnone, _⟩ | ⟨_, _, _, _, hcons, _⟩ | ⟨b₁, n, _, s, _, hb₁, _, hsucc, _⟩
        · rw [hrest'] at hnone
          cases hnone
        · rw [hrest'] at hcons
          cases hcons
        · rw [hm.blk, hb'] at hb₁
          cases hb₁
          rw [hnil] at hsucc
          cases hsucc
      | @cons i is _ _ x hid hrun hsil =>
        rcases step_cases hs with ⟨hnone, _⟩ | ⟨j, rest, y, world', hcons, hrun', rfl⟩ | ⟨_, _, _, _, hnil, _⟩
        · rw [hrest'] at hnone
          cases hnone
        · rw [hrest'] at hcons
          cases hcons
          rw [hrun] at hrun'
          cases hrun'
          refine ⟨hm.blk, hm.pred, hm.world, fun a ha => ?_, ?_⟩
          · show Function.update c'.env i.id x a = _
            rw [Function.update_of_ne (by omega)]
            exact hm.env a ha
          · exact Or.inr ⟨b, b', [], is, hb, hb', hext, hrest, rfl, .ret hop hsil heval⟩
        · rw [hrest'] at hnil
          cases hnil

theorem Extending.start : Extending M next g F G (SsaCfg.start world) (SsaCfg.start world) :=
  ⟨rfl, rfl, rfl, fun _ _ => rfl, Or.inl ⟨rfl, rfl⟩⟩

/-- Every run of the old function is one of the new function. -/
theorem Fn.Extended.match_run (h : F.Extended M next g G) (hc : F.Reaches M world c) :
    ∃ c', G.Reaches M world c' ∧ Extending M next g F G c c' := by
  induction hc with
  | refl => exact ⟨SsaCfg.start world, .refl, .start⟩
  | @tail c d hc hs ih =>
    obtain ⟨c', hc', hm⟩ := ih
    have hret : ∀ b, F.blocks[c.blk]? = some b → c.rest = some [] → b.term.op ≠ .ret := by
      intro b hb hrest hop
      rw [(hm.at_ret h hrest hb hop).1] at hs
      cases hs
    rcases hm.lockstep h hc hret with ⟨hnone, _⟩ | ⟨e, d', hs', hs'', hm'⟩
    · rw [hs] at hnone
      cases hnone
    · rw [hs] at hs'
      cases hs'
      exact ⟨d', Relation.ReflTransGen.tail hc' hs'', hm'⟩

/-- Every run of the new function is one of the old function. -/
theorem Fn.Extended.match_back (h : F.Extended M next g G) (hc' : G.Reaches M world c') :
    ∃ c, F.Reaches M world c ∧ Extending M next g F G c c' := by
  induction hc' with
  | refl => exact ⟨SsaCfg.start world, .refl, .start⟩
  | @tail c' d' _ hs ih =>
    obtain ⟨c, hc, hm⟩ := ih
    by_cases hret : ∃ b, F.blocks[c.blk]? = some b ∧ c.rest = some [] ∧ b.term.op = .ret
    · obtain ⟨b, hb, hrest, hop⟩ := hret
      exact ⟨c, hc, (hm.at_ret h hrest hb hop).2 d' hs⟩
    · rcases hm.lockstep h hc fun b hb hrest hop => hret ⟨b, hb, hrest, hop⟩ with
        ⟨_, hnone⟩ | ⟨d, e', hs', hs'', hm'⟩
      · rw [hs] at hnone
        cases hnone
      · rw [hs] at hs''
        cases hs''
        exact ⟨d, Relation.ReflTransGen.tail hc hs', hm'⟩

theorem Extending.agree (hm : Extending M next g F G c c') (hK : ∀ a ∈ K, a < next) : c.Agree K c' := by
  refine ⟨hm.blk, hm.pred, hm.world, ?_, fun a ha => hm.env a (hK a ha)⟩
  have hnew : ∀ is : List Instr, (∀ i ∈ is, next ≤ i.id) → (is.map (·.id)).filter (· ∈ K) = [] := by
    refine fun is his => List.filter_eq_nil_iff.mpr fun a ha => ?_
    obtain ⟨i, hi, rfl⟩ := List.mem_map.mp ha
    have hle := his i hi
    simp only [decide_eq_true_eq]
    exact fun hin => absurd (hK _ hin) (by omega)
  rcases hm.rest with ⟨hrest, hrest'⟩ | ⟨b, b', rest, tail, _, _, hext, hrest, hrest', htail⟩
  · rw [hrest, hrest']
  · rw [hrest, hrest', Option.map_some, Option.map_some]
    cases htail with
    | kept _ _ => rfl
    | @body i rest is hop hbody =>
      obtain ⟨_, is', hbody', his⟩ := hext.ret hop
      obtain rfl := List.append_cancel_left (hbody.symm.trans hbody')
      obtain ⟨ρ', hsil, _⟩ := his fun _ => .undef
      rw [List.map_append, List.filter_append, hnew is hsil.ids, List.append_nil]
    | ret _ hsil _ => rw [hnew tail hsil.ids]; rfl

theorem Fn.Extended.simulates (h : F.Extended M next g G) (hK : ∀ a ∈ K, a < next) :
    F.SimulatesIn M G K ∧ G.SimulatesIn M F K := by
  refine ⟨fun world c hc => ?_, fun world c' hc' => ?_⟩
  · obtain ⟨c', hc', hm⟩ := h.match_run hc
    exact ⟨c', hc', hm.agree hK⟩
  · obtain ⟨c, hc, hm⟩ := h.match_back hc'
    exact ⟨c, hc, (hm.agree hK).symm⟩

theorem Silently.reaches (h : Silently M next is ρ ρ') (hc : G.Reaches M world c) (hrest : c.rest = some is)
    (henv : c.env = ρ) : G.Reaches M world { c with rest := some [], env := ρ' } := by
  induction h generalizing c with
  | nil =>
    subst henv
    rwa [← hrest]
  | @cons i is ρ ρ' x _ hrun _ ih =>
    refine @ih { c with rest := some is, env := Function.update c.env i.id x }
      (Relation.ReflTransGen.tail hc ?_) rfl (by rw [henv])
    show G.step M c = _
    unfold Fn.step
    rw [hrest]
    show (M.run i.op i.ty (i.ops.map (·.eval M c.env)) c.world).bind _ = _
    rw [henv, hrun]
    rfl

theorem Fn.Extended.returns (h : F.Extended M next g G) {vals' : List (Datum V)} {world' : W} :
    G.Returns M world vals' world' ↔ ∃ vals, F.Returns M world vals world' ∧ vals' = vals.map g := by
  constructor
  · rintro ⟨c', b', hc', hrest', hb', hop, rfl, rfl⟩
    obtain ⟨c, hc, hm⟩ := h.match_back hc'
    obtain ⟨b, b₀, rest, tail, hb, hb₀, hext, hrest, htail', htail⟩ := hm.rest.resolve_left fun hnone => by
      rw [hrest'] at hnone
      cases hnone.2
    rw [hm.blk, hb₀] at hb'
    rw [hrest'] at htail'
    cases hb'
    cases htail'
    have hret : b.term.op = .ret := hext.op ▸ hop
    obtain ⟨rfl, heval⟩ : rest = [] ∧
        b'.term.ops.map (·.eval M c'.env) = (b.term.ops.map (·.eval M c.env)).map g := by
      cases htail with
      | kept _ hne => exact absurd hret hne
      | ret _ hsil heval =>
        cases hsil
        exact ⟨rfl, heval⟩
    exact ⟨_, ⟨c, b, hc, hrest, hb, hret, rfl, hm.world⟩, heval⟩
  · rintro ⟨_, ⟨c, b, hc, hrest, hb, hop, rfl, rfl⟩, rfl⟩
    obtain ⟨c', hc', hm⟩ := h.match_run hc
    obtain ⟨b₀, b', rest, tail, hb₀, hb', hext, hrest₀, hrest', htail⟩ := hm.rest.resolve_left fun hnone => by
      rw [hrest] at hnone
      cases hnone.1
    rw [hb] at hb₀
    rw [hrest] at hrest₀
    cases hb₀
    cases hrest₀
    cases htail with
    | kept _ hne => exact absurd hop hne
    | @ret _ ρ'' _ hsil heval =>
      refine ⟨_, b', hsil.reaches hc' hrest' rfl, rfl, ?_, hext.op.trans hop, heval.symm, hm.world.symm⟩
      rw [hm.blk]
      exact hb'

end BpfTv.Ssa
