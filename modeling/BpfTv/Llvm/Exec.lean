import BpfTv.Lib.Dominance
import BpfTv.Llvm.Ssa
import Mathlib.Logic.Function.Basic

/-!
# Execution of functions in SSA form

Addresses, integers and what the driver computes with them are given; what other instructions do is a
parameter, as a function of their operation, their operands and the state of the world. In SSA form a
use is dominated by the definition of its operand, so that an address that is computed once is still
what its operands give wherever it is used (`computed_of_dom`).
-/

namespace BpfTv.Ssa

open Control

/-- A value at run time. -/
inductive Datum (V : Type)
  | int (w : Nat) (x : BitVec w)
  | ptr (a : BitVec 64)
  | other (v : V)
  | undef

variable {V W : Type}

/-! ## Addresses -/

/-- The sum of the steps of a `gep`; an index is extended or truncated to the width of a pointer. -/
def gepAddress (a : BitVec 64) : List GepStep → List (Datum V) → Option (BitVec 64)
  | [], [] => some a
  | .scale bytes :: steps, .int _ x :: idxs => gepAddress (a + BitVec.ofNat 64 bytes * x.signExtend 64) steps idxs
  | .field offset :: steps, _ :: idxs => gepAddress (a + BitVec.ofNat 64 offset) steps idxs
  | _, _ => none

/-- Scalar arithmetic on addresses. -/
def Op.isAddress (op : Op) (ty : Ty) : Bool :=
  match op, ty with
  | .ptrtoint, .int _ => true
  | .binop .add, .int _ => true
  | .inttoptr, .ptr => true
  | .gep _ _, .ptr => true
  | _, _ => false

def evalAddress (op : Op) (ty : Ty) (xs : List (Datum V)) : Option (Datum V) :=
  match op, ty, xs with
  | .ptrtoint, .int w, [.ptr a] => some (.int w (a.setWidth w))
  | .binop .add, .int w, [.int w₁ x, .int w₂ y] =>
    if w₁ = w ∧ w₂ = w then some (.int w (x.setWidth w + y.setWidth w)) else none
  | .inttoptr, .ptr, [.int _ x] => some (.ptr (x.setWidth 64))
  | .gep _ steps, .ptr, .ptr a :: idxs => (gepAddress a steps idxs).map .ptr
  | _, _, _ => none

/-! ## Runs -/

/-- What the model does not look into. -/
structure Semantics (V W : Type) where
  arg : Nat → Datum V
  const : Nat → Ty → Datum V
  exec : Op → Ty → List (Datum V) → W → Option (Datum V × W)
  /-- The number of the successor. -/
  jump : TermOp → List (Datum V) → W → Option (Nat × W)

/-- The values of the instructions. -/
abbrev SsaEnv (V : Type) := Nat → Datum V

def Val.eval (M : Semantics V W) (ρ : SsaEnv V) : Val → Datum V
  | .inst id => ρ id
  | .arg i => M.arg i
  | .int w c => .int w c
  | .const k ty => M.const k ty

def Semantics.run (M : Semantics V W) (op : Op) (ty : Ty) (xs : List (Datum V)) (world : W) :
    Option (Datum V × W) :=
  if op.isAddress ty then (evalAddress op ty xs).map fun v => (v, world) else M.exec op ty xs world

/-- The phis of a block take their values at once. -/
def Block.enter (b : Block) (M : Semantics V W) (pred : Nat) (ρ : SsaEnv V) : SsaEnv V := fun a =>
  match b.phis.find? (·.id = a) with
  | some p => ((p.incoming.lookup pred).map (·.eval M ρ)).getD .undef
  | none => ρ a

structure SsaCfg (V W : Type) where
  blk : Nat
  pred : Nat
  /-- The instructions that are left of the block, once its phis have their values. -/
  rest : Option (List Instr)
  env : SsaEnv V
  world : W

def SsaCfg.start (world : W) : SsaCfg V W := ⟨0, 0, none, fun _ => .undef, world⟩

def Fn.step (F : Fn) (M : Semantics V W) (c : SsaCfg V W) : Option (SsaCfg V W) :=
  match c.rest with
  | none => do
    let b ← F.blocks[c.blk]?
    return { c with rest := some b.body, env := b.enter M c.pred c.env }
  | some (i :: rest) => do
    let (v, world) ← M.run i.op i.ty (i.ops.map (·.eval M c.env)) c.world
    return { c with rest := some rest, env := Function.update c.env i.id v, world }
  | some [] => do
    let b ← F.blocks[c.blk]?
    let (n, world) ← M.jump b.term.op (b.term.ops.map (·.eval M c.env)) c.world
    let s ← b.term.succs[n]?
    return { c with blk := s, pred := c.blk, rest := none, world }

/-- What a run comes to. -/
def Fn.Reaches (F : Fn) (M : Semantics V W) (world : W) (c : SsaCfg V W) : Prop :=
  Relation.ReflTransGen (fun c c' => F.step M c = some c') (SsaCfg.start world) c

/-! ## The flow graph -/

/-- The phis of a block, an instruction or the terminator of a block. -/
inductive Node
  | phis (k : Nat)
  | body (id : Nat)
  | term (k : Nat)
  deriving DecidableEq, Repr

def Block.nodes (b : Block) (k : Nat) : List Node := .phis k :: b.body.map (fun i => .body i.id) ++ [.term k]

inductive Fn.Edge (F : Fn) : Node → Node → Prop
  | next {k : Nat} {b : Block} {xs ys : List Node} {m n : Node} (hb : F.blocks[k]? = some b)
      (h : b.nodes k = xs ++ m :: n :: ys) : F.Edge m n
  | jump {k s : Nat} {b : Block} (hb : F.blocks[k]? = some b) (hs : s ∈ b.term.succs) :
      F.Edge (.term k) (.phis s)

/-- The node gives `a` its value. -/
def Fn.Defines (F : Fn) (a : Nat) : Node → Prop
  | .phis k => ∃ b, F.blocks[k]? = some b ∧ a ∈ b.phis.map (·.id)
  | .body id => a = id ∧ ∃ i ∈ F.instrs, i.id = id
  | .term _ => False

theorem walk {F : Fn} {b : Block} {k : Nat} {K : Set Node} {n : Node} {ys : List Node}
    (hb : F.blocks[k]? = some b) :
    ∀ (mid xs : List Node) (m : Node), b.nodes k = xs ++ m :: (mid ++ n :: ys) →
      (∀ z ∈ m :: mid, z ∉ K) → Avoids F.Edge m K n := by
  intro mid
  induction mid with
  | nil =>
    intro xs m h hK
    exact .single ⟨.next hb h, hK m (List.mem_singleton_self _)⟩
  | cons z mid ih =>
    intro xs m h hK
    have hrest := ih (xs ++ [m]) z (by rw [h, List.append_assoc]; rfl) fun y hy =>
      hK y (List.mem_cons_of_mem _ hy)
    exact Relation.ReflTransGen.head ⟨.next hb h, hK m (List.mem_cons_self ..)⟩ hrest

/-- Values are defined once, and an instruction is dominated by the definitions of its operands. -/
structure Fn.SsaForm (F : Fn) : Prop where
  nodup : F.ids.Nodup
  /-- Operands are defined. -/
  closed : ∀ a u, F.UsedBy (.inst a) u → a ∈ F.ids
  dom : ∀ i ∈ F.instrs, ∀ a, .inst a ∈ i.ops → ∀ d, F.Defines a d →
    Dom F.Edge (.phis 0) d (.body i.id)

/-- The value has been defined on every way to the node. -/
def Fn.Available (F : Fn) (v : Val) (n : Node) : Prop :=
  ∀ a, v = .inst a → ∀ d, F.Defines a d → Dom F.Edge (.phis 0) d n

variable {F : Fn} {M : Semantics V W} {c c' : SsaCfg V W} {i : Instr} {world : W}

def SsaCfg.node (c : SsaCfg V W) : Node :=
  match c.rest with
  | none => .phis c.blk
  | some (i :: _) => .body i.id
  | some [] => .term c.blk

/-- What is left is the end of the block. -/
def SsaCfg.Fits (F : Fn) (c : SsaCfg V W) : Prop :=
  ∀ rest, c.rest = some rest → ∃ b done, F.blocks[c.blk]? = some b ∧ b.body = done ++ rest

theorem node_ahead (rest : List Instr) (h : c.rest = some rest) :
    ∃ ys, rest.map (fun i => Node.body i.id) ++ [.term c.blk] = c.node :: ys := by
  unfold SsaCfg.node
  rw [h]
  cases rest with
  | nil => exact ⟨[], rfl⟩
  | cons i rest => exact ⟨_, rfl⟩

/-- What a step can do. -/
theorem step_cases (hs : F.step M c = some c') :
    (c.rest = none ∧ ∃ b, F.blocks[c.blk]? = some b ∧
      c' = { c with rest := some b.body, env := b.enter M c.pred c.env }) ∨
    (∃ i rest v world, c.rest = some (i :: rest) ∧
      M.run i.op i.ty (i.ops.map (·.eval M c.env)) c.world = some (v, world) ∧
      c' = { c with rest := some rest, env := Function.update c.env i.id v, world }) ∨
    ∃ b n world s, c.rest = some [] ∧ F.blocks[c.blk]? = some b ∧
      M.jump b.term.op (b.term.ops.map (·.eval M c.env)) c.world = some (n, world) ∧
      b.term.succs[n]? = some s ∧ c' = { c with blk := s, pred := c.blk, rest := none, world } := by
  unfold Fn.step at hs
  split at hs
  · rename_i hrest
    simp only [Option.bind_eq_bind, Option.bind_eq_some_iff] at hs
    obtain ⟨b, hb, hs⟩ := hs
    exact Or.inl ⟨hrest, b, hb, (Option.some.inj hs).symm⟩
  · rename_i i rest hrest
    simp only [Option.bind_eq_bind, Option.bind_eq_some_iff] at hs
    obtain ⟨⟨v, world⟩, hrun, hs⟩ := hs
    exact Or.inr (Or.inl ⟨i, rest, v, world, hrest, hrun, (Option.some.inj hs).symm⟩)
  · rename_i hrest
    simp only [Option.bind_eq_bind, Option.bind_eq_some_iff] at hs
    obtain ⟨b, hb, ⟨n, world⟩, hjump, s, hsucc, hs⟩ := hs
    exact Or.inr (Or.inr ⟨b, n, world, s, hrest, hb, hjump, hsucc, (Option.some.inj hs).symm⟩)

/-- A step follows an edge. -/
theorem fits_step (h : c.Fits F) (hs : F.step M c = some c') : c'.Fits F ∧ F.Edge c.node c'.node := by
  rcases step_cases hs with ⟨hrest, b, hb, rfl⟩ | ⟨i, rest, v, world, hrest, _, rfl⟩ |
    ⟨b, n, world, s, hrest, hb, _, hsucc, rfl⟩
  · have hnode : c.node = .phis c.blk := by rw [SsaCfg.node, hrest]
    refine ⟨fun rest hr => ?_, ?_⟩
    · cases hr
      exact ⟨b, [], hb, rfl⟩
    · obtain ⟨ys, hys⟩ := node_ahead
        (c := { c with rest := some b.body, env := b.enter M c.pred c.env }) b.body rfl
      rw [hnode]
      have hnodes : b.nodes c.blk = [] ++ .phis c.blk :: _ := congrArg (Node.phis c.blk :: ·) hys
      exact .next hb hnodes
  · obtain ⟨b, done, hb, hbody⟩ := h _ hrest
    have hnode : c.node = .body i.id := by rw [SsaCfg.node, hrest]
    refine ⟨fun rest' hr => ?_, ?_⟩
    · cases hr
      exact ⟨b, done ++ [i], hb, by rw [hbody, List.append_assoc]; rfl⟩
    · obtain ⟨ys, hys⟩ := node_ahead
        (c := { c with rest := some rest, env := Function.update c.env i.id v, world }) rest rfl
      have hnodes : b.nodes c.blk = (.phis c.blk :: done.map fun i => .body i.id) ++
          .body i.id :: (rest.map (fun i => Node.body i.id) ++ [.term c.blk]) := by
        rw [Block.nodes, hbody]
        simp
      rw [hnode]
      exact .next hb (hnodes.trans (congrArg _ (congrArg _ hys)))
  · have hnode : c.node = .term c.blk := by rw [SsaCfg.node, hrest]
    refine ⟨nofun, ?_⟩
    rw [hnode]
    exact .jump hb (List.mem_of_getElem? hsucc)

theorem fits_reaches (h : F.Reaches M world c) : c.Fits F := by
  induction h with
  | refl => exact nofun
  | tail _ hs ih => exact (fits_step ih hs).1

theorem stepsAlong (F : Fn) (M : Semantics V W) (world : W) :
    StepsAlong (fun c c' => F.step M c = some c') (SsaCfg.start world) SsaCfg.node F.Edge :=
  fun _ _ h hs => (fits_step (fits_reaches h) hs).2

theorem SsaCfg.Fits.mem {rest : List Instr} (h : c.Fits F) (hrest : c.rest = some rest) (hi : i ∈ rest) :
    i ∈ F.instrs := by
  obtain ⟨b, done, hb, hbody⟩ := h rest hrest
  exact Fn.mem_instrs.mpr ⟨b, List.mem_of_getElem? hb, by rw [hbody]; exact List.mem_append_right _ hi⟩

theorem Fn.defines_body (hi : i ∈ F.instrs) : F.Defines i.id (.body i.id) := ⟨rfl, i, hi, rfl⟩

/-- A step changes the values that its node defines. -/
theorem step_env (hc : F.Reaches M world c) (hs : F.step M c = some c') {a : Nat} (ha : ¬F.Defines a c.node) :
    c'.env a = c.env a := by
  rcases step_cases hs with ⟨hrest, b, hb, rfl⟩ | ⟨i, rest, v, world, hrest, _, rfl⟩ |
    ⟨b, n, world, s, hrest, hb, _, _, rfl⟩
  · rw [SsaCfg.node, hrest] at ha
    show b.enter M c.pred c.env a = _
    have hnone : b.phis.find? (·.id = a) = none := by
      refine List.find?_eq_none.mpr fun p hp hid => ha ⟨b, hb, ?_⟩
      have hid' : p.id = a := by simpa using hid
      exact hid' ▸ List.mem_map_of_mem hp
    rw [Block.enter, hnone]
  · rw [SsaCfg.node, hrest] at ha
    have hi := (fits_reaches hc).mem hrest (List.mem_cons_self ..)
    refine Function.update_of_ne (fun heq => ha ?_) _ _
    rw [heq]
    exact Fn.defines_body hi
  · rfl

/-! ## Runs with the same values -/

/-- The two configurations are at one place and have the same values for the ids in `K`. -/
structure SsaCfg.Agree (K : List Nat) (c c' : SsaCfg V W) : Prop where
  blk : c'.blk = c.blk
  pred : c'.pred = c.pred
  world : c'.world = c.world
  /-- The instructions of `K` that are ahead. -/
  ahead : c'.rest.map (fun is => (is.map (·.id)).filter (· ∈ K)) =
    c.rest.map fun is => (is.map (·.id)).filter (· ∈ K)
  env : ∀ a ∈ K, c'.env a = c.env a

/-- Whatever a run of `F` comes to, a run of `G` comes to it as well. -/
def Fn.Simulates (F G : Fn) (K : List Nat) : Prop :=
  ∀ (V W : Type) (M : Semantics V W) (world : W) (c : SsaCfg V W), F.Reaches M world c →
    ∃ c', G.Reaches M world c' ∧ c.Agree K c'

variable {K K' : List Nat} {c₁ : SsaCfg V W}

theorem SsaCfg.Agree.refl (c : SsaCfg V W) : c.Agree K c := ⟨rfl, rfl, rfl, rfl, fun _ _ => rfl⟩

theorem SsaCfg.Agree.symm (h : c.Agree K c') : c'.Agree K c :=
  ⟨h.blk.symm, h.pred.symm, h.world.symm, h.ahead.symm, fun a ha => (h.env a ha).symm⟩

theorem SsaCfg.Agree.trans (h : c.Agree K c₁) (h' : c₁.Agree K c') : c.Agree K c' :=
  ⟨h'.blk.trans h.blk, h'.pred.trans h.pred, h'.world.trans h.world, h'.ahead.trans h.ahead,
    fun a ha => (h'.env a ha).trans (h.env a ha)⟩

theorem SsaCfg.Agree.mono (h : c.Agree K c') (hK : ∀ a ∈ K', a ∈ K) : c.Agree K' c' := by
  refine ⟨h.blk, h.pred, h.world, ?_, fun a ha => h.env a (hK a ha)⟩
  have hfilter : ∀ xs : List Nat, xs.filter (· ∈ K') = (xs.filter (· ∈ K)).filter (· ∈ K') := by
    intro xs
    rw [List.filter_filter]
    refine List.filter_congr fun a _ => ?_
    by_cases ha : a ∈ K'
    · simp [ha, hK a ha]
    · simp [ha]
  have hmap : ∀ r : Option (List Instr), r.map (fun is => (is.map (·.id)).filter (· ∈ K')) =
      (r.map fun is => (is.map (·.id)).filter (· ∈ K)).map fun xs => xs.filter (· ∈ K') := by
    intro r
    rw [Option.map_map]
    congr 1
    funext is
    exact hfilter _
  rw [hmap, hmap, h.ahead]

/-! ## What is computed once -/

theorem Fn.SsaForm.nodup_instrs (h : F.SsaForm) : (F.instrs.map (·.id)).Nodup := Fn.nodup_instrs h.nodup

theorem Fn.SsaForm.inj (h : F.SsaForm) {j : Instr} (hi : i ∈ F.instrs) (hj : j ∈ F.instrs)
    (hid : i.id = j.id) : i = j :=
  List.inj_on_of_nodup_map h.nodup_instrs hi hj hid

theorem Fn.SsaForm.inst?_eq (h : F.SsaForm) (hi : i ∈ F.instrs) : F.inst? i.id = some i := Fn.inst?_eq h.nodup hi

theorem Fn.defines_eq (h : F.ids.Nodup) (hi : i ∈ F.instrs) {n : Node} (hn : F.Defines i.id n) :
    n = .body i.id := by
  cases n with
  | body id => exact congrArg Node.body hn.1.symm
  | term k => exact hn.elim
  | phis k =>
    obtain ⟨b, hb, hphi⟩ := hn
    obtain ⟨b', hb', hbody⟩ := Fn.mem_instrs.mp hi
    have hperm := List.flatMap_append_perm F.blocks (fun b : Block => b.phis.map Phi.id)
      fun b : Block => b.body.map Instr.id
    exact absurd rfl ((List.nodup_append.mp (hperm.nodup_iff.mpr h)).2.2 i.id
      (List.mem_flatMap.mpr ⟨b, List.mem_of_getElem? hb, hphi⟩) i.id
      (List.mem_flatMap.mpr ⟨b', hb', List.mem_map_of_mem hbody⟩))

theorem Fn.SsaForm.defines_eq (h : F.SsaForm) (hi : i ∈ F.instrs) {n : Node} (hn : F.Defines i.id n) :
    n = .body i.id := Fn.defines_eq h.nodup hi hn

theorem Fn.SsaForm.dom_operand (h : F.SsaForm) {j : Instr} (hi : i ∈ F.instrs) (hj : j ∈ F.instrs)
    (huse : .inst j.id ∈ i.ops) : Dom F.Edge (.phis 0) (.body j.id) (.body i.id) :=
  h.dom i hi j.id huse _ (Fn.defines_body hj)

/-- The value of `i` is what its operands give. -/
def Instr.Computed (i : Instr) (M : Semantics V W) (ρ : SsaEnv V) : Prop :=
  evalAddress i.op i.ty (i.ops.map (·.eval M ρ)) = some (ρ i.id)

theorem eval_congr {ρ ρ' : SsaEnv V} {v : Val} (h : ∀ a, v = .inst a → ρ' a = ρ a) :
    v.eval M ρ' = v.eval M ρ := by
  cases v with
  | inst a => exact h a rfl
  | _ => rfl

theorem map_eval_congr {ρ ρ' : SsaEnv V} {ops : List Val} (h : ∀ a, .inst a ∈ ops → ρ' a = ρ a) :
    ops.map (·.eval M ρ') = ops.map (·.eval M ρ) :=
  List.map_congr_left fun _ hv => eval_congr fun a ha => h a (ha ▸ hv)

/-- What a step finds out about the value of `i` and the values that are defined before it stays true. -/
theorem relation_established (h : F.SsaForm) (hi : i ∈ F.instrs) (M : Semantics V W) (world : W)
    {vs : List Val} (hvs : ∀ a, .inst a ∈ vs → ∀ d, F.Defines a d → Dom F.Edge (.phis 0) d (.body i.id))
    {R : List (Datum V) → Datum V → Prop}
    (hmade : ∀ c c', F.Reaches M world c → F.step M c = some c' → c.node = .body i.id →
      R (vs.map (·.eval M c.env)) (c'.env i.id)) :
    Established (fun c c' => F.step M c = some c') (SsaCfg.start world) SsaCfg.node F.Edge (.body i.id)
      fun c => R (vs.map (·.eval M c.env)) (c.env i.id) where
  made c c' hc hs hnode := by
    have hreach := (stepsAlong F M world).reaches hc
    rw [hnode] at hreach
    have hops : ∀ a, .inst a ∈ vs → c'.env a = c.env a := by
      intro a ha
      refine step_env hc hs fun hdef => ?_
      have hself := hvs a ha _ hdef
      rw [hnode] at hself
      exact not_dom_self hreach hself
    show R (vs.map (·.eval M c'.env)) (c'.env i.id)
    rw [map_eval_congr hops]
    exact hmade c c' hc hs hnode
  kept c c' hc hs hne hdom hP := by
    have hops : ∀ a, .inst a ∈ vs → c'.env a = c.env a := fun a ha =>
      step_env hc hs fun hdef => hdom (hvs a ha _ hdef)
    have hval : c'.env i.id = c.env i.id := step_env hc hs fun hdef => hne (h.defines_eq hi hdef)
    show R (vs.map (·.eval M c'.env)) (c'.env i.id)
    rw [map_eval_congr hops, hval]
    exact hP

theorem step_instr (h : F.ids.Nodup) (hi : i ∈ F.instrs) (hc : F.Reaches M world c)
    (hnode : c.node = .body i.id) : ∃ rest, c.rest = some (i :: rest) := by
  cases hrest : c.rest with
  | none =>
    rw [SsaCfg.node, hrest] at hnode
    cases hnode
  | some rest =>
    cases rest with
    | nil =>
      rw [SsaCfg.node, hrest] at hnode
      cases hnode
    | cons j rest =>
      rw [SsaCfg.node, hrest] at hnode
      have hj := (fits_reaches hc).mem hrest (List.mem_cons_self ..)
      obtain rfl := List.inj_on_of_nodup_map (Fn.nodup_instrs h) hj hi (Node.body.inj hnode)
      exact ⟨rest, rfl⟩

theorem step_value (h : F.ids.Nodup) (hi : i ∈ F.instrs) (hc : F.Reaches M world c)
    (hs : F.step M c = some c') (hnode : c.node = .body i.id) :
    ∃ world', M.run i.op i.ty (i.ops.map (·.eval M c.env)) c.world = some (c'.env i.id, world') := by
  obtain ⟨rest, hrest⟩ := step_instr h hi hc hnode
  rcases step_cases hs with ⟨hnone, _⟩ | ⟨j, rest', v, world', hrest', hrun, rfl⟩ |
    ⟨b, n, world', s, hnil, _⟩
  · rw [hrest] at hnone
    cases hnone
  · rw [hrest] at hrest'
    cases hrest'
    refine ⟨world', hrun.trans ?_⟩
    show _ = some (Function.update c.env i.id v i.id, world')
    rw [Function.update_self]
  · rw [hrest] at hnil
    cases hnil

theorem computed_established (h : F.SsaForm) (hi : i ∈ F.instrs) (haddr : i.op.isAddress i.ty = true)
    (M : Semantics V W) (world : W) :
    Established (fun c c' => F.step M c = some c') (SsaCfg.start world) SsaCfg.node F.Edge (.body i.id)
      fun c => i.Computed M c.env := by
  refine relation_established (R := fun xs x => evalAddress i.op i.ty xs = some x) h hi M world
    (h.dom i hi) fun c c' hc hs hnode => ?_
  obtain ⟨world', hrun⟩ := step_value h.nodup hi hc hs hnode
  rw [Semantics.run, if_pos haddr, Option.map_eq_some_iff] at hrun
  obtain ⟨v, hv, hvw⟩ := hrun
  rw [hv, (Prod.mk.inj hvw).1]

/-- Where an address has been computed, its value is what its operands give. -/
theorem computed_of_dom (h : F.SsaForm) (hi : i ∈ F.instrs) (haddr : i.op.isAddress i.ty = true)
    (hc : F.Reaches M world c) (hdom : Dom F.Edge (.phis 0) (.body i.id) c.node) : i.Computed M c.env :=
  (computed_established h hi haddr M world).holds_of_dom (stepsAlong F M world) hc hdom

/-! ## Straight-line functions -/

def Val.definedIn (seen : List Nat) : Val → Bool
  | .inst a => a ∈ seen
  | _ => true

/-- Each instruction uses what has been computed before it. -/
def straight (seen : List Nat) : List Instr → Bool
  | [] => true
  | i :: is => i.id ∉ seen && i.ops.all (·.definedIn seen) && straight (seen ++ [i.id]) is

theorem straight_spec {is : List Instr} {seen : List Nat} (h : straight seen is = true)
    (hseen : seen.Nodup) :
    (seen ++ is.map (·.id)).Nodup ∧ ∀ pre i post, is = pre ++ i :: post → ∀ a, .inst a ∈ i.ops →
      a ∈ seen ++ pre.map (·.id) := by
  induction is generalizing seen with
  | nil =>
    refine ⟨by simpa using hseen, fun pre i post h => ?_⟩
    cases pre <;> cases h
  | cons x is ih =>
    simp only [straight, Bool.and_eq_true, decide_eq_true_eq] at h
    obtain ⟨⟨hx, hops⟩, hrest⟩ := h
    have hseen' : (seen ++ [x.id]).Nodup := by
      refine List.nodup_append.mpr ⟨hseen, List.nodup_singleton _, fun a ha b hb heq => hx ?_⟩
      rw [← List.mem_singleton.mp hb, ← heq]
      exact ha
    obtain ⟨hnodup, hdef⟩ := ih hrest hseen'
    rw [List.append_assoc] at hnodup
    refine ⟨hnodup, fun pre i post heq a ha => ?_⟩
    cases pre with
    | nil =>
      obtain ⟨rfl, _⟩ := List.cons.inj heq
      have hin := List.all_eq_true.mp hops _ ha
      exact List.mem_append_left _ (by simpa [Val.definedIn] using hin)
    | cons y pre =>
      obtain ⟨rfl, htail⟩ := List.cons.inj heq
      have hin := hdef pre i post htail a ha
      rw [List.append_assoc] at hin
      exact hin

/-- A single block that defines its values before they are used. -/
structure Fn.StraightLine (F : Fn) (b : Block) : Prop where
  blocks : F.blocks = [b]
  phis : b.phis = []
  succs : b.term.succs = []
  body : straight [] b.body = true
  term : ∀ v ∈ b.term.ops, v.definedIn (b.body.map (·.id)) = true

namespace Fn.StraightLine

variable {b : Block} {j : Instr} {pre post : List Instr} {n : Node}

theorem instrs (h : F.StraightLine b) : F.instrs = b.body := by
  rw [Fn.instrs, h.blocks, List.flatMap_cons, List.flatMap_nil, List.append_nil]

theorem ids (h : F.StraightLine b) : F.ids = b.body.map (·.id) := by
  rw [Fn.ids, h.blocks, List.flatMap_cons, List.flatMap_nil, List.append_nil, h.phis]
  rfl

theorem block_eq (h : F.StraightLine b) {k : Nat} {b' : Block} (hb : F.blocks[k]? = some b') :
    k = 0 ∧ b' = b := by
  rw [h.blocks, List.getElem?_singleton] at hb
  split at hb
  · rename_i hk
    exact ⟨hk, (Option.some.inj hb).symm⟩
  · cases hb

theorem nodup_ids (h : F.StraightLine b) : F.ids.Nodup := by
  rw [h.ids]
  exact (straight_spec h.body List.nodup_nil).1

theorem nodup_nodes (h : F.StraightLine b) : (b.nodes 0).Nodup := by
  have hbody : (b.body.map fun i => Node.body i.id).Nodup := by
    have hids := h.nodup_ids
    rw [h.ids] at hids
    have hmap := hids.map (f := Node.body) fun _ _ heq => Node.body.inj heq
    rw [List.map_map] at hmap
    exact hmap
  refine List.nodup_cons.mpr ⟨by simp, List.nodup_append.mpr ⟨hbody, List.nodup_singleton _, ?_⟩⟩
  intro m hm n hn heq
  obtain ⟨i, _, rfl⟩ := List.mem_map.mp hm
  rw [List.mem_singleton.mp hn] at heq
  cases heq

theorem dom (h : F.StraightLine b) (hbody : b.body = pre ++ j :: post)
    (hn : n ∈ post.map (fun i => Node.body i.id) ++ [.term 0]) : Dom F.Edge (.phis 0) (.body j.id) n := by
  have hnodes : b.nodes 0 = (.phis 0 :: pre.map fun i => Node.body i.id) ++
      .body j.id :: (post.map (fun i => Node.body i.id) ++ [.term 0]) := by
    rw [Block.nodes, hbody]
    simp
  have hnodup := h.nodup_nodes
  rw [hnodes] at hnodup
  have hdisj := disjoint_behind hnodup
  refine Dom.of_closed (R := {m | m ∈ (.phis 0 :: pre.map fun i => Node.body i.id) ++ [.body j.id]})
    (List.mem_cons_self ..) ?_ fun hin => hdisj hin hn
  intro m m' hE hm hne
  cases hE with
  | next hb heq =>
    obtain ⟨rfl, rfl⟩ := h.block_eq hb
    rw [hnodes] at heq
    exact before_closed hnodup heq hm hne
  | jump hb hs =>
    obtain ⟨rfl, rfl⟩ := h.block_eq hb
    rw [h.succs] at hs
    cases hs

theorem defines (h : F.StraightLine b) {a : Nat} (ha : a ∈ pre.map (·.id))
    (hbody : b.body = pre ++ post) {d : Node} (hd : F.Defines a d) :
    ∃ pre₁ j pre₂, pre = pre₁ ++ j :: pre₂ ∧ d = .body j.id := by
  obtain ⟨j, hj, rfl⟩ := List.mem_map.mp ha
  obtain ⟨pre₁, pre₂, rfl⟩ := List.append_of_mem hj
  refine ⟨pre₁, j, pre₂, rfl, ?_⟩
  cases d with
  | body id => exact congrArg Node.body hd.1.symm
  | term k => exact hd.elim
  | phis k =>
    obtain ⟨b', hb, hphi⟩ := hd
    obtain ⟨_, rfl⟩ := h.block_eq hb
    rw [h.phis] at hphi
    cases hphi

theorem ssaForm (h : F.StraightLine b) : F.SsaForm where
  nodup := h.nodup_ids
  closed := by
    intro a u hu
    rw [h.ids]
    cases hu with
    | instr hi hv =>
      rw [h.instrs] at hi
      obtain ⟨pre, post, heq⟩ := List.append_of_mem hi
      have hin := (straight_spec h.body List.nodup_nil).2 pre _ post heq a hv
      rw [heq, List.map_append]
      exact List.mem_append_left _ hin
    | phi hb hp _ =>
      rw [h.blocks, List.mem_singleton] at hb
      rw [hb, h.phis] at hp
      cases hp
    | term hb hv =>
      rw [h.blocks, List.mem_singleton] at hb
      rw [hb] at hv
      simpa [Val.definedIn] using h.term _ hv
  dom := by
    intro i hi a ha d hd
    rw [h.instrs] at hi
    obtain ⟨pre, post, heq⟩ := List.append_of_mem hi
    have hin := (straight_spec h.body List.nodup_nil).2 pre _ post heq a ha
    obtain ⟨pre₁, j, pre₂, rfl, rfl⟩ := h.defines hin heq hd
    have hbody : b.body = pre₁ ++ j :: (pre₂ ++ i :: post) := by rw [heq, List.append_assoc]; rfl
    exact h.dom hbody (by simp)

theorem dom_term (h : F.StraightLine b) {k a : Nat} {b' : Block} (hb : F.blocks[k]? = some b')
    (ha : .inst a ∈ b'.term.ops) {d : Node} (hd : F.Defines a d) : Dom F.Edge (.phis 0) d (.term k) := by
  obtain ⟨rfl, rfl⟩ := h.block_eq hb
  have hin : a ∈ b'.body.map (·.id) := by simpa [Val.definedIn] using h.term _ ha
  obtain ⟨pre₁, j, pre₂, heq, rfl⟩ := h.defines hin (List.append_nil _).symm hd
  exact h.dom heq (by simp)

end Fn.StraightLine

end BpfTv.Ssa
