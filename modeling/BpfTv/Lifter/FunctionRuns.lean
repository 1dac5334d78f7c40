import BpfTv.Lifter.ControlFlow
import BpfTv.Lifter.HelperIdentity
import BpfTv.Lifter.Requests
import BpfTv.Lifter.UnspecifiedSites
import Mathlib.Computability.StateTransition

/-!
# Runs of a lifted function

`LFunction.step` executes the IR of a lifted function: one instruction or terminator of the region at
hand, or the way from the end of a region to the start of the next one. Every region has been written
from a fresh block (`Written`). At a position of the control flow that has no event the region is
`Bare`: it has no instructions, and control goes on with the same machine state.
-/

namespace BpfTv

open Control Emit StateTransition

/-- How a run ends. -/
inductive Outcome
  | returned (v : Option RVal) (mem : Mem) (calls : List (String × List RVal))
  | trapped (t : Trap)

/-- Where a run stands: in the region at a position, or at its end. -/
inductive FnState
  | running (p : Pos) (x : Cfg Rt)
  | halted (o : Outcome)

/-- Before the region at `p`. -/
def FnState.entering (p : Pos) (rt : Rt) : FnState := .running p ⟨0, 0, rt⟩

/-- The position that a target outside of the region stands for. -/
def Target.pos? : Target → Option Pos
  | .bb b => some (.block b 0)
  | .sub _ => none

/-- What comes behind a block of a region that ends with terminator `t`. -/
def leave (next : Pos) (t : Option Term) (rt : Rt) : Option FnState :=
  match t with
  | none => some (.entering next rt)
  | some (.br t) => t.pos?.map fun p => .entering p rt
  | some (.condBr c t f) =>
    match c.evalInt rt 1 with
    | .error e => some (.halted (.trapped e))
    | .ok b => (if b = 1 then t else f).pos?.map fun p => .entering p rt
  | some (.ret none) => some (.halted (.returned none rt.mem rt.calls))
  | some (.ret (some v)) =>
    match v.eval rt with
    | .error e => some (.halted (.trapped e))
    | .ok x => some (.halted (.returned (some x) rt.mem rt.calls))

/-- One step of the lifted function. -/
def LFunction.step (F : LFunction) : FnState → Option FnState
  | .halted _ => none
  | .running p x =>
    match F.region? p with
    | none => none
    | some r =>
      match r.step ir x with
      | .error e => some (.halted (.trapped e))
      | .ok (some y) => some (.running p y)
      | .ok none => leave p.next (r.blocks[x.blk]?.bind (·.term)) x.st

/-- The call of the lifted function. -/
def fnStart (W : World) (regs : Fin 12 → BitVec 64) (mem : Mem) : FnState := .entering .init (Rt.start W regs mem)

variable {F : LFunction} {p p' : Pos} {r : Region} {rt rt' : Rt} {x y : Cfg Rt} {ε : Type}
  {obs : MCInst → ε} {env : Env} {BBs MBBs : List MCBasicBlock} {s s₁ s' : LState} {I : MCInst}

/-! ## One region -/

theorem reaches_region (hp : F.region? p = some r) (h : r.Runs ir x y) :
    Reaches F.step (.running p x) (.running p y) := by
  induction h with
  | refl => exact .refl
  | tail _ hstep ih =>
    refine ih.tail ?_
    show F.step _ = _
    simp only [LFunction.step, hp, hstep]

theorem step_trapped {t : Trap} (hp : F.region? p = some r) (h : r.step ir x = .error t) :
    F.step (.running p x) = some (.halted (.trapped t)) := by
  simp only [LFunction.step, hp, h]

theorem reaches_leave {z : FnState} (hp : F.region? p = some r) (h : r.Runs ir ⟨0, 0, rt⟩ (r.endCfg rt'))
    (hend : r.step ir (r.endCfg rt') = .ok none) (hz : leave p.next r.term rt' = some z) :
    Reaches₁ F.step (.entering p rt) z := by
  refine Relation.TransGen.trans_right (reaches_region hp h) (.single ?_)
  show F.step (.running p (r.endCfg rt')) = some z
  simp only [LFunction.step, hp, hend]
  exact hz

/-! ## Exits -/

/-- Nothing leads back to the code of `platformInit`. -/
theorem leads_ne_init {o : Option Bool} (h : Flow.Leads ((F.flow obs).exit p) o p') : p' ≠ .init := by
  have hnext : p.next ≠ .init := by cases p <;> exact nofun
  have hexit : ∀ ts : List Term, Flow.Leads (exitOf p.next ts) o p' → p' ≠ .init := by
    intro ts hts
    unfold exitOf at hts
    split at hts
    · cases hts
      exact hnext
    · cases hts
      exact nofun
    · cases hts <;> exact nofun
    · cases hts
    · cases hts
  cases hr : F.region? p with
  | none =>
    simp only [LFunction.flow, hr] at h
    cases h
  | some r =>
    rw [flow_exit hr] at h
    exact hexit _ h

/-- A region without instructions that nothing or a jump leaves. -/
inductive Bare : Region → Prop
  | empty : Bare ⟨[{}], 0⟩
  | jump (k : Nat) : Bare ⟨[{ term := some (.br (.bb k)) }], 0⟩

theorem Bare.moves (h : Bare r) (hp : F.region? p = some r) (hex : (F.flow obs).exit p = .goto p') :
    Reaches₁ F.step (.entering p rt) (.entering p' rt) := by
  rw [flow_exit hp] at hex
  cases h with
  | empty =>
    cases hex
    exact reaches_leave hp .refl rfl rfl
  | jump k =>
    cases hex
    exact reaches_leave hp .refl rfl rfl

theorem bare_nop (hI : I.opcode = .NOP) (h : (region none (lift env I)).run s = .ok (r, s')) : Bare r := by
  obtain ⟨hrun, rfl⟩ := region_run h
  have hlift : lift env I = pure () := by
    unfold lift
    rw [hI]
  rw [hlift] at hrun
  cases hrun
  exact .empty

theorem bare_jump (hI : I.opcode.isUnconditionalBranch = true)
    (h : (region none (lift env I)).run s = .ok (r, s')) : Bare r := by
  obtain ⟨hrun, rfl⟩ := region_run h
  have hlift : lift env I = jump env I := by
    have hop : I.opcode = .JMP ∨ I.opcode = .JMPL := by
      revert hI
      cases I.opcode <;> simp [Opcode.isUnconditionalBranch, Opcode.isBranch, Opcode.isBarrier,
        Opcode.isCondJump]
    unfold lift
    rcases hop with hop | hop <;> rw [hop]
  rw [hlift] at hrun
  obtain ⟨k, s₁, hk, hrun⟩ := run_bind_ok hrun
  obtain ⟨_, rfl⟩ := liftExcept_run hk
  rw [createBranch, terminate_run clean_fresh.1] at hrun
  cases hrun
  exact .jump k

theorem bare_fallThrough (hne : env.succs ≠ [])
    (h : (region none (fallThrough env)).run s = .ok (r, s')) : Bare r := by
  obtain ⟨hrun, rfl⟩ := region_run h
  unfold fallThrough at hrun
  rw [if_neg (by rwa [List.length_eq_zero_iff])] at hrun
  split at hrun
  · obtain ⟨k, s₁, hk, hrun⟩ := run_bind_ok hrun
    obtain ⟨_, rfl⟩ := liftExcept_run hk
    rw [createBranch, terminate_run clean_fresh.1] at hrun
    cases hrun
    exact .jump k
  · cases hrun
    exact .empty

/-! ## Where regions come from -/

/-- Between the two states, no symbol has been looked up, and no unspecified state given back. -/
structure LState.Skips (s s' : LState) : Prop where
  off : s.unspecifiedOff ≤ s'.unspecifiedOff
  globals : s'.globals = s.globals

theorem LState.Skips.refl (s : LState) : s.Skips s := ⟨Nat.le_refl _, rfl⟩

theorem LState.Skips.trans (h : s.Skips s₁) (h' : s₁.Skips s') : s.Skips s' :=
  ⟨h.off.trans h'.off, h'.globals.trans h.globals⟩

/-- The code of these instructions has been written in this order, on the way from the one state to the
other. -/
inductive WrittenInsts (env : Env) : LState → LState → List LInst → Prop
  | nil {a b : LState} (h : a.Skips b) : WrittenInsts env a b []
  | cons {a b : LState} {y : LInst} {ys : List LInst} {names : List String} {succs : List Nat} {s s' : LState}
      (h : a.Skips s)
      (hy : (region none (lift { env with bbNames := names, succs := succs } y.inst)).run s = .ok (y.code, s'))
      (hys : WrittenInsts env s' b ys) : WrittenInsts env a b (y :: ys)

section insts

variable {a b c : LState} {xs ys : List LInst} {y : LInst}

theorem WrittenInsts.le (h : WrittenInsts env a b xs) : a.unspecifiedOff ≤ b.unspecifiedOff := by
  induction h with
  | nil h => exact h.off
  | cons h hy _ ih => exact h.off.trans ((allocated_lift hy).le.trans ih)

theorem WrittenInsts.from_skips {a' : LState} (h : WrittenInsts env a b xs) (ha : a'.Skips a) :
    WrittenInsts env a' b xs := by
  cases h with
  | nil h => exact .nil (ha.trans h)
  | cons h hy hys => exact .cons (ha.trans h) hy hys

theorem WrittenInsts.append (h : WrittenInsts env a b xs) (h' : WrittenInsts env b c ys) :
    WrittenInsts env a c (xs ++ ys) := by
  induction h with
  | nil h => exact h'.from_skips h
  | cons h hy _ ih => exact .cons h hy (ih h')

theorem WrittenInsts.looks (h : WrittenInsts env a b xs) :
    Looks env (xs.flatMap fun y => env.requests y.inst) a b := by
  induction h with
  | nil h => exact .nil h.globals
  | cons h hy _ ih =>
    have hskip : Looks env [] _ _ := .nil h.globals
    exact hskip.append ((lift_looks hy).append ih)

end insts

/-- The code of `y` has been written on the way to the globals `G`, while the offset into the unspecified
state was one with `Q`. -/
def LInst.WrittenAt (env : Env) (G : Globals) (y : LInst) (Q : Nat → Prop) : Prop :=
  ∃ names succs s s', s.globals.Named env.module ∧ s'.globals.LLVMglobals ⊆ G.LLVMglobals ∧
    (region none (lift { env with bbNames := names, succs := succs } y.inst)).run s = .ok (y.code, s') ∧
      Q s.unspecifiedOff

theorem WrittenInsts.mem {a b : LState} {ys : List LInst} (h : WrittenInsts env a b ys)
    (hn : a.globals.Named env.module) (hq : a.globals.deferredGlobs = []) :
    ∀ y ∈ ys, y.WrittenAt env b.globals fun _ => True := by
  induction h with
  | nil _ => exact fun y hy => nomatch hy
  | @cons a b y ys names succs s s' h hy hys ih =>
    have hlook : Looks { env with bbNames := names, succs := succs } (env.requests y.inst) s s' := lift_looks hy
    have hq' := hlook.empty (h.globals ▸ hq)
    have hn₁ : s.globals.Named env.module := h.globals ▸ hn
    exact List.forall_mem_cons.mpr ⟨⟨names, succs, s, s', hn₁, fun e he => hys.looks.entries hq' he, hy, trivial⟩,
      ih (hlook.names hn₁) hq'⟩

/-- Every region of the function has been written from a fresh block, on the way to the globals `G`. -/
structure Written (env : Env) (G : Globals) (F : LFunction) : Prop where
  init : ∃ s₁ s₂, (region none (platformInit env)).run { globals := Globals.init env.module } = .ok (F.init, s₁) ∧
    WrittenInsts env s₁ s₂ F.insts ∧ s₂.globals = G
  tail : ∀ B ∈ F.blocks, ∀ r, B.tail = some r → ∃ names succs s s',
    (region none (fallThrough { env with bbNames := names, succs := succs })).run s = .ok (r, s')

theorem Written.inst {G : Globals} (h : Written env G F) : ∀ y ∈ F.insts, y.WrittenAt env G fun _ => True := by
  obtain ⟨s₁, s₂, hinit, hinsts, rfl⟩ := h.init
  obtain ⟨hn, hidle⟩ := platformInit_start hinit
  exact hinsts.mem hn hidle

theorem Written.lookups {G : Globals} (h : Written env G F) :
    ∃ ids, lookupAll env.module env.fuel (F.insts.flatMap fun y => env.requests y.inst) (Globals.init env.module) =
      .ok (ids, G) := by
  obtain ⟨s₁, s₂, hinit, hinsts, rfl⟩ := h.init
  obtain ⟨ids, hlook⟩ := hinsts.looks
  rw [platformInit_globals hinit] at hlook
  exact ⟨ids, hlook⟩

section written

variable {names : List String} {succs : List Nat}

theorem liftInsts_written {Is : List MCInst} {body : List LInst} {last : Option Term}
    (hinner : ∀ I ∈ Is.dropLast, I.opcode.isTerminator = false)
    (h : (liftInsts { env with bbNames := names, succs := succs } Is none).run s = .ok ((body, last), s')) :
    WrittenInsts env s s' body := by
  induction Is generalizing s body with
  | nil =>
    cases h
    exact .nil (.refl _)
  | cons I Is ih =>
    obtain ⟨code, s₁, hcode, h⟩ := run_bind_ok h
    obtain ⟨⟨body', last'⟩, s₂, hrest, h⟩ := run_bind_ok h
    cases h
    cases Is with
    | nil =>
      cases hrest
      exact .cons (.refl s) hcode (.nil (.refl _))
    | cons J Js =>
      rw [(region_straight (hinner I List.mem_cons_self) hcode).2] at hrest
      exact .cons (.refl s) hcode (ih (fun K hK => hinner K (List.mem_cons_of_mem _ hK)) hrest)

theorem liftBlock_written {b : MCBasicBlock} {B : LBlock}
    (hinner : ∀ I ∈ b.instrs.dropLast, I.opcode.isTerminator = false)
    (h : (liftBlock { env with bbNames := names } b).run s = .ok (B, s')) :
    WrittenInsts env s s' B.body ∧
      ∀ r, B.tail = some r → ∃ succs t t',
        (region none (fallThrough { env with bbNames := names, succs := succs })).run t = .ok (r, t') := by
  obtain ⟨⟨body, last⟩, s₁, hbody, h⟩ := run_bind_ok h
  obtain ⟨tail, s₂, htail, h⟩ := run_bind_ok h
  cases h
  have hw : WrittenInsts env _ _ body := liftInsts_written hinner hbody
  unfold liftTail at htail
  split at htail
  · cases htail
    exact ⟨hw, nofun⟩
  · obtain ⟨code, s₃, hcode, htail⟩ := run_bind_ok htail
    split at htail
    · cases htail
    · cases htail
      have hw' := hw.append (.nil ⟨(allocated_fallThrough hcode).le, fallThrough_globals hcode⟩)
      rw [List.append_nil] at hw'
      refine ⟨hw', fun r hr => ?_⟩
      cases hr
      exact ⟨_, _, _, hcode⟩

theorem liftBlocks_written {bs : List MCBasicBlock} {Bs : List LBlock}
    (hinner : ∀ b ∈ bs, ∀ I ∈ b.instrs.dropLast, I.opcode.isTerminator = false)
    (h : (bs.mapM (liftBlock { env with bbNames := names })).run s = .ok (Bs, s')) :
    WrittenInsts env s s' (Bs.flatMap (·.body)) ∧
      ∀ B ∈ Bs, ∀ r, B.tail = some r → ∃ succs t t',
        (region none (fallThrough { env with bbNames := names, succs := succs })).run t = .ok (r, t') := by
  induction bs generalizing s Bs with
  | nil =>
    cases h
    exact ⟨.nil (.refl _), fun B hB => nomatch hB⟩
  | cons b bs ih =>
    rw [List.mapM_cons] at h
    obtain ⟨B, s₁, hB, h⟩ := run_bind_ok h
    obtain ⟨Bs', s₂, hBs, h⟩ := run_bind_ok h
    cases h
    obtain ⟨hw, htail⟩ := liftBlock_written (hinner b List.mem_cons_self) hB
    obtain ⟨hws, htails⟩ := ih (fun c hc => hinner c (List.mem_cons_of_mem _ hc)) hBs
    exact ⟨hw.append hws, List.forall_mem_cons.mpr ⟨htail, htails⟩⟩

end written

theorem liftMCFunction_written (hinner : ∀ b ∈ MBBs, ∀ I ∈ b.instrs.dropLast, I.opcode.isTerminator = false)
    (h : liftMCFunction env MBBs = .ok F) : ∃ G, Written env G F := by
  unfold liftMCFunction at h
  obtain ⟨⟨F', s'⟩, hrun, h⟩ := except_bind_ok h
  cases h
  obtain ⟨init, s₁, hinit, hrun⟩ := run_bind_ok hrun
  obtain ⟨blocks, s₂, hblocks, hrun⟩ := run_bind_ok hrun
  cases hrun
  obtain ⟨hw, htail⟩ := liftBlocks_written hinner hblocks
  refine ⟨_, ⟨s₁, _, hinit, hw, rfl⟩, fun B hB r hr => ?_⟩
  obtain ⟨succs, t, t', hcode⟩ := htail B hB r hr
  exact ⟨_, succs, t, t', hcode⟩

/-! ## Silent positions -/

/-- A region of a block is the one of an instruction, or the code that falls through. -/
theorem region_cases {b i : Nat} (h : F.region? (.block b i) = some r) : ∃ B, F.blocks[b]? = some B ∧
    ((∃ y, B.body[i]? = some y ∧ y.code = r ∧ F.inst? (.block b i) = some y.inst) ∨ B.tail = some r) := by
  unfold LFunction.region? at h
  obtain ⟨B, hB, hr⟩ := Option.bind_eq_some_iff.mp h
  refine ⟨B, hB, ?_⟩
  unfold LBlock.regions at hr
  by_cases hi : i < B.body.length
  · have hy : B.body[i]? = some B.body[i] := List.getElem?_eq_getElem hi
    refine Or.inl ⟨B.body[i], hy, ?_, (flow_inst hB hy).2⟩
    rw [List.getElem?_append_left (by simpa using hi), List.getElem?_map, hy] at hr
    exact Option.some.inj hr
  · rw [List.getElem?_append_right (by simpa using hi), List.length_map] at hr
    have hmem := List.mem_of_getElem? hr
    rw [Option.mem_toList] at hmem
    exact Or.inr hmem

theorem silent_bare {G : Globals} (hs : Shaped BBs) (hw : Wired BBs F) (hwr : Written env G F) (hp : p ≠ .init)
    (hev : (F.flow obs).event p = none) (hex : (F.flow obs).exit p = .goto p') :
    ∃ r, F.region? p = some r ∧ Bare r := by
  cases p with
  | init => exact absurd rfl hp
  | block b i =>
    cases hr : F.region? (.block b i) with
    | none =>
      simp only [LFunction.flow, hr] at hex
      cases hex
    | some r =>
      refine ⟨r, rfl, ?_⟩
      obtain ⟨B, hB, ⟨y, hy, rfl, hinst⟩ | htail⟩ := region_cases hr
      · have hplace : y.inst.place = none := by
          by_contra hne
          simp [LFunction.flow, hinst, Option.isSome_iff_ne_none, hne] at hev
        have hymem : y ∈ F.insts :=
          List.mem_flatMap.mpr ⟨B, List.mem_of_getElem? hB, List.mem_of_getElem? hy⟩
        obtain ⟨names, succs, s, s', _, _, hcode, _⟩ := hwr.inst y hymem
        have hlt : b < BBs.length := hw.length ▸ (List.getElem?_eq_some_iff.mp hB).1
        have hb : BBs[b]? = some BBs[b] := List.getElem?_eq_getElem hlt
        have hmem : y.inst ∈ BBs[b].instrs := by
          rw [← hw.insts b _ B hb hB]
          exact List.mem_map_of_mem (List.mem_of_getElem? hy)
        cases b with
        | zero =>
          obtain ⟨r₀, hbody, _⟩ := hw.entry B hB
          have hyb := List.mem_of_getElem? hy
          rw [hbody, List.mem_singleton] at hyb
          exact bare_jump (by rw [hyb]; rfl) hcode
        | succ b => exact bare_nop (hs.unplaced _ (mem_tail_of_getElem? hb) _ hmem hplace) hcode
      · obtain ⟨names, succs, s, s', hcode⟩ := hwr.tail B (List.mem_of_getElem? hB) r htail
        refine bare_fallThrough (fun hnil => ?_) hcode
        -- a block without a successor ends in a return
        obtain ⟨v, hexits⟩ := (region_fallThrough hcode).1 hnil
        rw [flow_exit hr, hexits] at hex
        cases hex

end BpfTv
