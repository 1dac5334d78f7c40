import BpfTv.Lifter.Regions
import BpfTv.Mc.Blocks

/-!
# Control flow of the lifted function

`generateSuccessors`, `getBranchTargetsOperand`, `jumpTarget` and the fall-through code give every
region of the lifted function the exits that the machine blocks ask for (`Wired`). From this any
control flow that walks along the instructions of the blocks (`Follows`) is simulated by the lifted
function (`wired_sim`), and nothing leads to its entry block.
-/

namespace BpfTv

open Control

variable {α β : Type} {s s' : LState} {env : Env} {I : MCInst} {BBs MBBs : List MCBasicBlock}

theorem mapM_lift_ok {f : α → LiftM β} {xs : List α} {ys : List β}
    (h : (xs.mapM f).run s = .ok (ys, s')) :
    List.Forall₂ (fun x y => ∃ t t', (f x).run t = .ok (y, t')) xs ys := by
  induction xs generalizing ys s with
  | nil =>
    cases h
    exact .nil
  | cons x xs ih =>
    rw [List.mapM_cons] at h
    obtain ⟨y, s₁, hx, h⟩ := run_bind_ok h
    obtain ⟨ys', s₂, hxs, h⟩ := run_bind_ok h
    cases h
    exact .cons ⟨s, s₁, hx⟩ (ih hxs)

/-! ## Lifted blocks -/

/-- The exits of the region of one machine instruction. -/
def InstSpec (env : Env) (x : LInst) : Prop :=
  (x.inst.opcode.isTerminator = false → exits x.code = []) ∧
    (x.inst.opcode.isTerminator = true → ∃ t, exits x.code = [t] ∧ ExitSpec env x.inst t)

/-- The exits of the fall-through code. -/
def TailSpec (env : Env) (r : Region) : Prop :=
  (env.succs = [] → ∃ v, exits r = [.ret v]) ∧
    ∀ k, env.succs = [k] →
      ∃ dst, getBBByName env ((env.bbNames[k]?).getD "") = .ok dst ∧ exits r = [.br (.bb dst)]

structure BlockSpec (env : Env) (instrs : List MCInst) (B : LBlock) : Prop where
  insts : B.body.map (·.inst) = instrs
  inst : ∀ x ∈ B.body, InstSpec env x
  isSome_tail : B.tail.isSome = true ↔ ∀ I ∈ instrs, I.opcode.isTerminator = false
  tail : ∀ r, B.tail = some r → TailSpec env r

theorem liftInsts_spec {Is : List MCInst} {body : List LInst} {last : Option Term}
    (hinner : ∀ I ∈ Is.dropLast, I.opcode.isTerminator = false)
    (h : (liftInsts env Is none).run s = .ok ((body, last), s')) :
    body.map (·.inst) = Is ∧ (∀ x ∈ body, InstSpec env x) ∧
      (last = none ↔ ∀ I ∈ Is, I.opcode.isTerminator = false) := by
  induction Is generalizing s body with
  | nil =>
    cases h
    exact ⟨rfl, by simp, by simp⟩
  | cons I Is ih =>
    obtain ⟨code, s₁, hcode, h⟩ := run_bind_ok h
    obtain ⟨⟨body', last'⟩, s₂, hrest, h⟩ := run_bind_ok h
    cases h
    by_cases hI : I.opcode.isTerminator = true
    · -- a terminator is the last instruction of its block
      obtain rfl : Is = [] := by
        cases Is with
        | nil => rfl
        | cons J Js => exact absurd (hinner I (by simp)) (by simp [hI])
      obtain ⟨t, hexits, hterm, hspec⟩ := region_term hI hcode
      cases hrest
      refine ⟨rfl, ?_, by simp [hterm, hI]⟩
      simp only [List.mem_singleton, forall_eq]
      exact ⟨fun hn => absurd hI (by simp [hn]), fun _ => ⟨t, hexits, hspec⟩⟩
    · have hI' : I.opcode.isTerminator = false := by simpa using hI
      obtain ⟨hexits, hterm⟩ := region_straight hI' hcode
      rw [hterm] at hrest
      have hinner' : ∀ J ∈ Is.dropLast, J.opcode.isTerminator = false := by
        intro J hJ
        cases Is with
        | nil => cases hJ
        | cons K Ks => exact hinner J (List.mem_cons_of_mem _ hJ)
      obtain ⟨hinsts, hspec, hlast⟩ := ih hinner' hrest
      refine ⟨by rw [List.map_cons, hinsts], List.forall_mem_cons.mpr ⟨?_, hspec⟩, ?_⟩
      · exact ⟨fun _ => hexits, fun ht => absurd ht hI⟩
      · rw [hlast, List.forall_mem_cons, hI']
        simp

theorem region_fallThrough {r : Region}
    (h : (region none (fallThrough env)).run s = .ok (r, s')) : TailSpec env r := by
  obtain ⟨h₁, rfl⟩ := region_run h
  unfold fallThrough at h₁
  constructor
  · intro hs
    rw [if_pos (by rw [hs]; rfl)] at h₁
    obtain ⟨s₁, t, hst, _, heq, v, rfl⟩ := doReturn_sat straight_compat.toEmits h₁
    exact ⟨v, (exits_of_close hst clean_fresh rfl heq).1⟩
  · intro k hs
    rw [if_neg (by rw [hs]; simp), if_pos (by rw [hs]; rfl)] at h₁
    obtain ⟨dst, s₁, hdst, h₂⟩ := run_bind_ok h₁
    have hsucc : env.succs.head?.bind (env.bbNames[·]?) = env.bbNames[k]? := by
      rw [hs]
      rfl
    rw [hsucc] at hdst
    cases hbb : getBBByName env ((env.bbNames[k]?).getD "") with
    | error e => rw [hbb] at hdst; cases hdst
    | ok d =>
      rw [hbb] at hdst
      cases hdst
      refine ⟨_, rfl, ?_⟩
      rw [createBranch, terminate_run clean_fresh.1] at h₂
      cases h₂
      exact (exits_of_close (s := { s with code := Emit.Code.fresh }) id clean_fresh rfl rfl).1

theorem liftBlock_spec {b : MCBasicBlock} {B : LBlock}
    (hinner : ∀ I ∈ b.instrs.dropLast, I.opcode.isTerminator = false)
    (h : (liftBlock env b).run s = .ok (B, s')) :
    BlockSpec { env with succs := b.succs } b.instrs B := by
  obtain ⟨⟨body, last⟩, s₁, hbody, h⟩ := run_bind_ok h
  obtain ⟨tail, s₂, htail, h⟩ := run_bind_ok h
  cases h
  obtain ⟨hinsts, hspec, hlast⟩ := liftInsts_spec hinner hbody
  unfold liftTail at htail
  cases last with
  | some t =>
    cases htail
    refine ⟨hinsts, hspec, ?_, fun _ hr => nomatch hr⟩
    rw [← hlast]
    simp
  | none =>
    obtain ⟨r, s₃, hr, htail⟩ := run_bind_ok htail
    have hts := region_fallThrough hr
    split at htail
    · cases htail
    · cases htail
      refine ⟨hinsts, hspec, by rw [← hlast]; simp, ?_⟩
      rintro r' ⟨⟩
      exact hts

/-! ## Branch targets -/

section targets

variable (henv : env.bbNames = BBs.map (·.name))
include henv

theorem getBBByName_ok {name : String} {k : Nat} :
    getBBByName env name = .ok k ↔ findBlockByName BBs name = some k := by
  unfold getBBByName
  rw [henv, ← findBlockByName_eq]
  cases findBlockByName BBs name <;> simp

theorem getBB_ok {idx k : Nat} (h : getBB env I idx = .ok k) :
    ∃ sym, getTargetSym I idx = .ok sym ∧ findBlockByName BBs sym = some k := by
  unfold getBB at h
  cases hsym : getTargetSym I idx with
  | error e => rw [hsym] at h; cases h
  | ok sym =>
    simp only [hsym, bind, Except.bind, henv, ← findBlockByName_eq] at h
    cases hk : findBlockByName BBs sym with
    | none => rw [hk] at h; cases h
    | some k' =>
      rw [hk] at h
      cases h
      exact ⟨sym, rfl, hk⟩

theorem jumpTarget_ok {k : Nat} (h : jumpTarget env I = .ok k) :
    (∃ sym, getTargetSym I 0 = .ok sym ∧ findBlockByName BBs sym = some k) ∨
      ∃ j, env.succs = [j] ∧ getBBByName env ((env.bbNames[j]?).getD "") = .ok k := by
  unfold jumpTarget at h
  cases hop : I.getOperand 0 with
  | error e => rw [hop] at h; cases h
  | ok op =>
    have hrest : (if env.succs.length = 1 then
        getBBByName env ((env.succs.head?.bind (env.bbNames[·]?)).getD "")
        else throw (.assertion "MCBB->getSuccs().size() == 1") : Except LiftError Nat) = .ok k →
        ∃ j, env.succs = [j] ∧ getBBByName env ((env.bbNames[j]?).getD "") = .ok k := by
      intro hk
      split at hk
      · rename_i hlen
        obtain ⟨j, hj⟩ := List.length_eq_one_iff.mp hlen
        rw [hj] at hk
        exact ⟨j, hj, hk⟩
      · cases hk
    simp only [hop, bind, Except.bind] at h
    cases op with
    | expr e => exact Or.inl (getBB_ok henv h)
    | reg r => exact Or.inr (hrest h)
    | imm v => exact Or.inr (hrest h)

theorem branchTargets_ok {t f k i : Nat} {sym : String} (hn : (BBs.map (·.name)).Nodup)
    (h : getBranchTargetsOperand env I 2 = .ok (t, f)) (hsym : getTargetSym I 2 = .ok sym)
    (hk : findBlockByName BBs sym = some k)
    (hsuccs : env.succs = if i + 1 < BBs.length ∧ i + 1 ≠ k then [k, i + 1] else [k]) :
    t = k ∧ f = if i + 1 < BBs.length then i + 1 else k := by
  have hfall : findBlockByName BBs (fallthroughName env sym) =
      some (if i + 1 < BBs.length then i + 1 else k) := by
    obtain ⟨b, hb, hname⟩ := findBlockByName_some hk
    have hbb : (env.bbNames[k]?).getD "" = sym := by simp [henv, hb, hname]
    unfold fallthroughName
    rw [hsuccs]
    by_cases hi : i + 1 < BBs.length ∧ i + 1 ≠ k
    · obtain ⟨hlt, hne⟩ := hi
      have hget : BBs[i + 1]? = some BBs[i + 1] := List.getElem?_eq_getElem hlt
      have hnext : (env.bbNames[i + 1]?).getD "" = BBs[i + 1].name := by simp [henv, hget]
      have hdiff : BBs[i + 1].name ≠ sym := by
        intro heq
        have := findBlockByName_name hn hget
        rw [heq, hk] at this
        exact hne (Option.some.inj this).symm
      rw [if_pos ⟨hlt, hne⟩, if_pos hlt]
      simp only [List.map_cons, List.map_nil, hbb, hnext, List.find?_cons, ne_eq, not_true_eq_false,
        decide_false, hdiff, not_false_eq_true, decide_true, Option.getD_some]
      exact findBlockByName_name hn hget
    · have hsame : (if i + 1 < BBs.length then i + 1 else k) = k := by
        split
        · by_contra hne
          exact hi ⟨by assumption, hne⟩
        · rfl
      rw [if_neg hi, hsame]
      simp only [List.map_cons, List.map_nil, hbb, List.find?_cons, ne_eq, not_true_eq_false,
        decide_false, List.find?_nil, Option.getD_none]
      exact hk
  unfold getBranchTargetsOperand at h
  simp only [hsym, bind, Except.bind, (getBBByName_ok henv).mpr hk,
    (getBBByName_ok henv).mpr hfall] at h
  split at h
  · cases h
    exact ⟨rfl, rfl⟩
  · cases h

end targets

theorem getOperand_ok {idx : Nat} {op : MCOperand} :
    I.getOperand idx = .ok op ↔ I.operands[idx]? = some op := by
  unfold MCInst.getOperand
  cases I.operands[idx]? <;> simp

theorem getTargetSym_ok {idx : Nat} {sym : String} (h : getTargetSym I idx = .ok sym) :
    I.operands[idx]? = some (.expr (.symbolRef sym)) := by
  unfold getTargetSym at h
  cases hop : I.getOperand idx with
  | error e => rw [hop] at h; cases h
  | ok op =>
    simp only [hop, bind, Except.bind] at h
    have hget := getOperand_ok.mp hop
    cases op with
    | reg r => cases h
    | imm v => cases h
    | expr e =>
      cases e with
      | symbolRef sym' => cases h; exact hget
      | specifier k sym' => cases h
      | other => cases h

theorem getTargetSym_of_branchTargets {tf : Nat × Nat} (h : getBranchTargetsOperand env I 2 = .ok tf) :
    ∃ sym, getTargetSym I 2 = .ok sym := by
  unfold getBranchTargetsOperand at h
  cases hsym : getTargetSym I 2 with
  | error e => rw [hsym] at h; cases h
  | ok sym => exact ⟨sym, rfl⟩

theorem targetLabel_of_jump {sym : String} (h : getTargetSym I 0 = .ok sym) :
    targetLabel? I = some sym := by
  have h0 := getTargetSym_ok h
  unfold targetLabel?
  cases hops : I.operands with
  | nil => simp [hops] at h0
  | cons a rest =>
    obtain rfl : a = .expr (.symbolRef sym) := by simpa [hops] using h0
    rfl

theorem targetLabel_of_cond {sym : String} (hc : ComparesOperands I)
    (h : getTargetSym I 2 = .ok sym) : targetLabel? I = some sym := by
  obtain ⟨a, b, ha, hea, hb, heb⟩ := hc
  have h0 := getOperand_ok.mp ha
  have h1 := getOperand_ok.mp hb
  have h2 := getTargetSym_ok h
  obtain ⟨rest, hops⟩ : ∃ rest, I.operands = a :: b :: .expr (.symbolRef sym) :: rest := by
    match hops : I.operands with
    | [] => simp [hops] at h0
    | [x] => simp [hops] at h1
    | [x, y] => simp [hops] at h2
    | x :: y :: z :: rest =>
      simp only [hops, List.getElem?_cons_zero, List.getElem?_cons_succ, Option.some.injEq] at h0 h1 h2
      exact ⟨rest, by rw [h0, h1, h2]⟩
  unfold targetLabel?
  rw [hops]
  cases a <;> cases b <;>
    first | rfl | exact nomatch (show true = false from hea) | exact nomatch (show true = false from heb)

/-! ## Wiring -/

/-- The exits of the region of instruction `I` of block `i`. -/
inductive InstExit (BBs : List MCBasicBlock) (i : Nat) (I : MCInst) : List Term → Prop
  | straight : I.opcode.isTerminator = false → InstExit BBs i I []
  | ret (v : Option Value) : I.opcode.isReturn = true → InstExit BBs i I [.ret v]
  | jump {l : String} {k : Nat} : I.opcode.isUnconditionalBranch = true →
      targetLabel? I = some l → findBlockByName BBs l = some k → InstExit BBs i I [.br (.bb k)]
  | cond {l : String} {k : Nat} (c : Value) : I.opcode.isCondJump = true →
      targetLabel? I = some l → findBlockByName BBs l = some k →
      InstExit BBs i I [.condBr c (.bb k) (.bb (if i + 1 < BBs.length then i + 1 else k))]

/-- The exits of the code behind block `i`. -/
inductive TailExit (BBs : List MCBasicBlock) (i : Nat) : List Term → Prop
  | next : i + 1 < BBs.length → TailExit BBs i [.br (.bb (i + 1))]
  | last (v : Option Value) : BBs.length ≤ i + 1 → TailExit BBs i [.ret v]

/-- The lifted function has the control flow of its machine blocks. -/
structure Wired (BBs : List MCBasicBlock) (F : LFunction) : Prop where
  length : F.blocks.length = BBs.length
  init : exits F.init = []
  entry : ∀ B, F.blocks[0]? = some B →
    ∃ r, B.body = [⟨entryJump, r⟩] ∧ exits r = [.br (.bb 1)] ∧ B.tail = none
  insts : ∀ (i : Nat) (b : MCBasicBlock) (B : LBlock), BBs[i]? = some b → F.blocks[i]? = some B →
    B.body.map (·.inst) = b.instrs
  inst : ∀ i B, F.blocks[i + 1]? = some B → ∀ x ∈ B.body, InstExit BBs (i + 1) x.inst (exits x.code)
  isSome_tail : ∀ (i : Nat) (b : MCBasicBlock) (B : LBlock), BBs[i]? = some b →
    F.blocks[i]? = some B → (B.tail.isSome = true ↔
      ∀ I ∈ b.instrs, I.opcode.isTerminator = false)
  tail : ∀ i B r, F.blocks[i + 1]? = some B → B.tail = some r → TailExit BBs (i + 1) (exits r)

section wiring

variable {i : Nat} {b b' : MCBasicBlock} {x : LInst} {B : LBlock}

theorem inst_exit (hs : Shaped BBs) (hb : BBs[i + 1]? = some b)
    (hb' : addSuccessors BBs (i + 1) b = .ok b') (hmem : x.inst ∈ b.instrs)
    (hx : InstSpec { env with bbNames := BBs.map (·.name), succs := b'.succs } x) :
    InstExit BBs (i + 1) x.inst (exits x.code) := by
  have hbmem := List.mem_of_getElem? hb
  have hlast : x.inst.opcode.isTerminator = true → b.instrs.getLast? = some x.inst := by
    intro ht
    rcases mem_dropLast_or_last hmem with h | h
    · rw [hs.inner b hbmem _ h] at ht
      cases ht
    · exact h
  have htarget := hs.targets b (mem_tail_of_getElem? hb) _ hmem
  rw [Opcode.isBranch_eq] at htarget
  rcases x.inst.opcode.kinds with ⟨ht, _⟩ | ⟨ht, hc, hu, hr⟩ | ⟨ht, hc, hu, hr⟩ | ⟨ht, hc, hu, hr⟩
  · rw [hx.1 ht]
    exact .straight ht
  · obtain ⟨l, k, hl, hk, _⟩ := htarget (by rw [hc]; rfl)
    obtain ⟨t, hexits, ⟨_, hops, c, ⟨t, f⟩, htf, rfl⟩ | ⟨h, _⟩ | ⟨h, _⟩⟩ := hx.2 ht
    · obtain ⟨sym, hsym⟩ := getTargetSym_of_branchTargets htf
      obtain rfl : l = sym := by
        have := targetLabel_of_cond hops hsym
        exact Option.some.inj (hl.symm.trans this)
      have hsuccs := succs_cond hb' (hs.succs b hbmem) (hlast ht) hc hl hk
      obtain ⟨rfl, rfl⟩ := branchTargets_ok rfl hs.names htf hsym hk hsuccs
      rw [hexits]
      exact .cond c hc hl hk
    · rw [hu] at h
      cases h
    · rw [h] at hc
      cases hc
  · obtain ⟨l, k, hl, hk, _⟩ := htarget (by rw [hu, Bool.or_true])
    obtain ⟨t, hexits, ⟨h, _⟩ | ⟨_, k', hk', rfl⟩ | ⟨h, _⟩⟩ := hx.2 ht
    · rw [hc] at h
      cases h
    · have hkk : k' = k := by
        rcases jumpTarget_ok rfl hk' with ⟨sym, hsym, hfind⟩ | ⟨j, hj, hfind⟩
        · have := targetLabel_of_jump hsym
          rw [hl, Option.some.injEq] at this
          subst this
          exact Option.some.inj (hfind.symm.trans hk)
        · have hsuccs := succs_jump hb' (hs.succs b hbmem) (hlast ht) (Nat.succ_ne_zero i) hu hl hk
          obtain rfl : k = j := by
            rw [hsuccs] at hj
            exact List.head_eq_of_cons_eq hj
          obtain ⟨d, hd, hname⟩ := findBlockByName_some hk
          simp only [List.getElem?_map, hd, Option.map_some, Option.getD_some] at hfind
          have := (getBBByName_ok rfl).mp hfind
          rw [findBlockByName_name hs.names hd] at this
          exact (Option.some.inj this).symm
      rw [hexits, hkk]
      exact .jump hu hl hk
    · rw [h] at hu
      cases hu
  · obtain ⟨t, hexits, ⟨h, _⟩ | ⟨h, _⟩ | ⟨_, v, rfl⟩⟩ := hx.2 ht
    · rw [hc] at h
      cases h
    · rw [hu] at h
      cases h
    · rw [hexits]
      exact .ret v hr

theorem getBBByName_bbNames (hn : (BBs.map (·.name)).Nodup) (henv : env.bbNames = BBs.map (·.name))
    {j k : Nat} (hj : j < BBs.length) (h : getBBByName env ((env.bbNames[j]?).getD "") = .ok k) :
    k = j := by
  have hget : BBs[j]? = some BBs[j] := List.getElem?_eq_getElem hj
  simp only [henv, List.getElem?_map, hget, Option.map_some, Option.getD_some] at h
  have := (getBBByName_ok henv).mp h
  rw [findBlockByName_name hn hget] at this
  exact (Option.some.inj this).symm

theorem tail_exit (hs : Shaped BBs) (hb : BBs[i]? = some b) (hb' : addSuccessors BBs i b = .ok b')
    (hall : ∀ I ∈ b.instrs, I.opcode.isTerminator = false) {r : Region}
    (hr : TailSpec { env with bbNames := BBs.map (·.name), succs := b'.succs } r) :
    TailExit BBs i (exits r) := by
  have hbmem := List.mem_of_getElem? hb
  obtain ⟨last, hlast⟩ : ∃ last, b.instrs.getLast? = some last :=
    ⟨_, List.getLast?_eq_some_getLast (hs.nonempty b hbmem)⟩
  have hsuccs := succs_straight hb' (hs.succs b hbmem) hlast
    (hall last (List.mem_of_getLast? hlast))
  by_cases hi : i + 1 < BBs.length
  · rw [if_pos hi] at hsuccs
    obtain ⟨dst, hdst, hexits⟩ := hr.2 (i + 1) hsuccs
    obtain rfl := getBBByName_bbNames hs.names rfl hi hdst
    rw [hexits]
    exact .next hi
  · rw [if_neg hi] at hsuccs
    obtain ⟨v, hexits⟩ := hr.1 hsuccs
    rw [hexits]
    exact .last v (by omega)

theorem entry_exit (hs : Shaped BBs) (hb : BBs[0]? = some b) (hb' : addSuccessors BBs 0 b = .ok b')
    (hx : InstSpec { env with bbNames := BBs.map (·.name), succs := b'.succs } x)
    (hinst : x.inst = entryJump) : exits x.code = [.br (.bb 1)] := by
  have hlen : 1 < BBs.length ∧ b'.succs = [1] := by
    rw [hs.entry, Option.some.injEq] at hb
    subst hb
    rw [addSuccessors_entry] at hb'
    split at hb'
    · cases hb'
      exact ⟨by assumption, rfl⟩
    · cases hb'
  obtain ⟨t, hexits, ⟨h, _⟩ | ⟨_, k, hk, rfl⟩ | ⟨h, _⟩⟩ := hx.2 (by rw [hinst]; rfl)
  · rw [hinst] at h
    exact nomatch (show false = true from h)
  · rcases jumpTarget_ok rfl hk with ⟨sym, hsym, _⟩ | ⟨j, hj, hfind⟩
    · have := getTargetSym_ok hsym
      rw [hinst] at this
      cases this
    · obtain rfl : 1 = j := List.head_eq_of_cons_eq (hlen.2.symm.trans hj)
      obtain rfl := getBBByName_bbNames hs.names rfl hlen.1 hfind
      exact hexits
  · rw [hinst] at h
    cases h

end wiring

theorem liftMCFunction_ok {F : LFunction} (h : liftMCFunction env MBBs = .ok F) :
    exits F.init = [] ∧ List.Forall₂ (fun b B => ∃ s s',
      (liftBlock { env with bbNames := MBBs.map (·.name) } b).run s = .ok (B, s')) MBBs F.blocks := by
  unfold liftMCFunction at h
  cases hl : (liftBlocks { env with bbNames := MBBs.map (·.name) } MBBs).run
      { globals := Globals.init env.module } with
  | error e => simp only [hl, bind, Except.bind] at h; cases h
  | ok r =>
    obtain ⟨F', s'⟩ := r
    simp only [hl, bind, Except.bind] at h
    cases h
    obtain ⟨init, s₁, hinit, hl⟩ := run_bind_ok hl
    obtain ⟨blocks, s₂, hblocks, hl⟩ := run_bind_ok hl
    cases hl
    exact ⟨(region_platformInit hinit).1, mapM_lift_ok hblocks⟩

/-- **The lifted function is wired as its machine blocks are.** -/
theorem wired (hs : Shaped BBs) (hsucc : generateSuccessors BBs = .ok MBBs) {F : LFunction}
    (hlift : liftMCFunction env MBBs = .ok F) : Wired BBs F := by
  obtain ⟨hlen, hget⟩ := generateSuccessors_ok hsucc
  obtain ⟨hinit, hblocks⟩ := liftMCFunction_ok hlift
  have hF : F.blocks.length = BBs.length := hblocks.length_eq.symm.trans hlen
  have hnames := (generateSuccessors_same hsucc).1
  have hblock : ∀ (i : Nat) (B : LBlock), F.blocks[i]? = some B → ∃ b b',
      BBs[i]? = some b ∧ addSuccessors BBs i b = .ok b' ∧
        BlockSpec { env with bbNames := BBs.map (·.name), succs := b'.succs } b.instrs B := by
    intro i B hB
    obtain ⟨hi, rfl⟩ := List.getElem?_eq_some_iff.mp hB
    have hiB : i < BBs.length := hF ▸ hi
    have hiM : i < MBBs.length := hlen ▸ hiB
    obtain ⟨s, s', hrun⟩ := hblocks.get (i := i) hiM hi
    have hb' := hget i _ _ (List.getElem?_eq_getElem hiB) (List.getElem?_eq_getElem hiM)
    refine ⟨BBs[i], MBBs[i], List.getElem?_eq_getElem hiB, hb', ?_⟩
    have hsame := (addSuccessors_same hb').2
    have hspec := liftBlock_spec (by
      simp only [List.get_eq_getElem, hsame]
      exact hs.inner _ (List.getElem_mem hiB)) hrun
    simp only [List.get_eq_getElem, hsame, hnames] at hspec
    exact hspec
  refine ⟨hF, hinit, fun B hB => ?_, fun i b B hb hB => ?_, fun i B hB x hx => ?_,
    fun i b B hb hB => ?_, fun i B r hB hr => ?_⟩
  · obtain ⟨b, b', hb, hb', hspec⟩ := hblock 0 B hB
    have hinsts := hspec.insts
    rw [hs.entry, Option.some.injEq] at hb
    subst hb
    obtain ⟨x, hx⟩ : ∃ x, B.body = [x] := List.length_eq_one_iff.mp (by
      rw [← List.length_map (f := (·.inst)), hinsts]; rfl)
    rw [hx] at hinsts
    have hxi : x.inst = entryJump := List.head_eq_of_cons_eq hinsts
    refine ⟨x.code, by rw [hx, ← hxi], ?_, ?_⟩
    · exact entry_exit hs hs.entry hb' (hspec.inst x (by rw [hx]; exact List.mem_singleton_self x)) hxi
    · have hno : ¬B.tail.isSome = true := by
        rw [hspec.isSome_tail]
        exact fun hall => nomatch hall entryJump (List.mem_singleton_self _)
      simpa using hno
  · obtain ⟨b₁, b', hb₁, _, hspec⟩ := hblock i B hB
    rw [hb, Option.some.injEq] at hb₁
    exact hb₁ ▸ hspec.insts
  · obtain ⟨b, b', hb, hb', hspec⟩ := hblock (i + 1) B hB
    have hmem : x.inst ∈ b.instrs := hspec.insts ▸ List.mem_map_of_mem hx
    exact inst_exit hs hb hb' hmem (hspec.inst x hx)
  · obtain ⟨b₁, b', hb₁, _, hspec⟩ := hblock i B hB
    rw [hb, Option.some.injEq] at hb₁
    exact hb₁ ▸ hspec.isSome_tail
  · obtain ⟨b, b', hb, hb', hspec⟩ := hblock (i + 1) B hB
    exact tail_exit hs hb hb' (hspec.isSome_tail.mp (by rw [hr]; rfl)) (hspec.tail r hr)

section flow

variable {F : LFunction} {κ ε : Type} {M : Flow κ ε} {obs : MCInst → ε}

/-! ## No predecessors of the entry block -/

theorem InstExit.dests_ne {i : Nat} {b : MCBasicBlock} {ts : List Term} (hs : Shaped BBs)
    (hb : b ∈ BBs.tail) (hI : I ∈ b.instrs) (h : InstExit BBs i I ts) : ∀ t ∈ ts, 0 ∉ t.dests := by
  have hne : ∀ l k, I.opcode.isBranch = true → targetLabel? I = some l →
      findBlockByName BBs l = some k → k ≠ 0 := by
    intro l k hbr hl hk hk0
    obtain ⟨l', _, hl', _, hne⟩ := hs.targets b hb I hI hbr
    obtain rfl : l' = l := Option.some.inj (hl'.symm.trans hl)
    obtain ⟨b₀, hb₀, hname⟩ := findBlockByName_some hk
    rw [hk0, hs.entry, Option.some.injEq] at hb₀
    subst hb₀
    exact hne hname.symm
  cases h with
  | straight h => exact fun t ht => nomatch ht
  | ret v h => simp [Term.dests]
  | @jump l k h hl hk =>
    have := hne l k (by rw [Opcode.isBranch_eq, h, Bool.or_true]) hl hk
    simpa [Term.dests] using this.symm
  | @cond l k c h hl hk =>
    have := hne l k (by rw [Opcode.isBranch_eq, h, Bool.true_or]) hl hk
    simp only [forall_eq, Term.dests, List.mem_cons, List.not_mem_nil, or_false, not_or]
    refine ⟨this.symm, ?_⟩
    split
    · omega
    · exact this.symm

/-- **The lifted entry block has no predecessor.** -/
theorem entry_no_pred (hs : Shaped BBs) (hw : Wired BBs F) :
    ∀ r ∈ F.regions, ∀ t ∈ exits r, 0 ∉ t.dests := by
  intro r hr
  rcases List.mem_cons.mp hr with rfl | hr
  · rw [hw.init]
    exact fun t ht => nomatch ht
  obtain ⟨B, hB, hr⟩ := List.mem_flatMap.mp hr
  obtain ⟨i, hi, hget⟩ := List.getElem_of_mem hB
  have hBi : F.blocks[i]? = some B := by rw [List.getElem?_eq_getElem hi, hget]
  cases i with
  | zero =>
    obtain ⟨r₀, hbody, hexits, htail⟩ := hw.entry B hBi
    obtain rfl : r = r₀ := by simpa [LBlock.regions, hbody, htail] using hr
    rw [hexits]
    simp [Term.dests]
  | succ i =>
    obtain ⟨b, hb⟩ : ∃ b, BBs[i + 1]? = some b :=
      ⟨_, List.getElem?_eq_getElem (hw.length ▸ hi)⟩
    rcases List.mem_append.mp hr with hr | hr
    · obtain ⟨x, hx, rfl⟩ := List.mem_map.mp hr
      have hmem : x.inst ∈ b.instrs := hw.insts _ b B hb hBi ▸ List.mem_map_of_mem hx
      exact (hw.inst i B hBi x hx).dests_ne hs (mem_tail_of_getElem? hb) hmem
    · have hexit := hw.tail i B r hBi (Option.mem_toList.mp hr)
      generalize exits r = ts at hexit
      cases hexit with
      | next h => simp [Term.dests]
      | last v h => simp [Term.dests]

/-! ## Simulation -/

/-- `M` walks along the instructions of the blocks: `At k is` says that at `k` the instructions
`is` are still ahead. -/
structure Follows (M : Flow κ ε) (obs : MCInst → ε) (BBs : List MCBasicBlock)
    (At : κ → List MCInst → Prop) : Prop where
  fell : ∀ k, At k [] → M.exit k = .fell
  event : ∀ k I is, At k (I :: is) → M.event k = some (obs I)
  straight : ∀ k I is, At k (I :: is) → I.opcode.isTerminator = false →
    ∃ k', M.exit k = .goto k' ∧ At k' is
  ret : ∀ k I is, At k (I :: is) → I.opcode.isReturn = true → M.exit k = .stop
  jump : ∀ k I is l b, At k (I :: is) → I.opcode.isUnconditionalBranch = true →
    targetLabel? I = some l → findBlockByName BBs l = some b →
    ∃ k', M.exit k = .goto k' ∧ At k' (restAt BBs b)
  cond : ∀ k I is l b, At k (I :: is) → I.opcode.isCondJump = true →
    targetLabel? I = some l → findBlockByName BBs l = some b →
    ∃ k' k'', M.exit k = .cond k' k'' ∧ At k' (restAt BBs b) ∧ At k'' is

/-- Control is in block `b`, before instruction `i` or, when the block does not end in a terminator,
behind the last one. -/
structure Here (BBs : List MCBasicBlock) (b i : Nat) (blk : MCBasicBlock) : Prop where
  block : BBs[b]? = some blk
  le : i ≤ blk.instrs.length
  falls : i = blk.instrs.length → ∀ I ∈ blk.instrs, I.opcode.isTerminator = false

/-- The instructions of the input that are ahead. -/
def ahead (BBs : List MCBasicBlock) (b i : Nat) (blk : MCBasicBlock) : List MCInst :=
  placed (blk.instrs.drop i) ++ restAt BBs (b + 1)

theorem restAt_eq {b : Nat} {blk : MCBasicBlock} (hb : BBs[b]? = some blk) :
    restAt BBs b = ahead BBs b 0 blk := by
  obtain ⟨hlt, rfl⟩ := List.getElem?_eq_some_iff.mp hb
  rw [restAt, List.drop_eq_getElem_cons hlt, List.flatMap_cons, placed, List.filter_append]
  rfl

theorem here_start (hs : Shaped BBs) {b : Nat} {blk : MCBasicBlock} (hb : BBs[b]? = some blk) :
    Here BBs b 0 blk := by
  refine ⟨hb, Nat.zero_le _, fun h0 => ?_⟩
  exact absurd (List.length_eq_zero_iff.mp h0.symm) (hs.nonempty blk (List.mem_of_getElem? hb))

theorem here_next (hs : Shaped BBs) {b i : Nat} {blk : MCBasicBlock} {J : MCInst}
    (hb : BBs[b]? = some blk) (hJ : blk.instrs[i]? = some J) (ht : J.opcode.isTerminator = false) :
    Here BBs b (i + 1) blk := by
  obtain ⟨hi, hget⟩ := List.getElem?_eq_some_iff.mp hJ
  refine ⟨hb, hi, fun heq I hI => ?_⟩
  rcases mem_dropLast_or_last hI with h | h
  · exact hs.inner blk (List.mem_of_getElem? hb) I h
  · have hlast : blk.instrs.getLast? = some J := by
      rw [List.getLast?_eq_getElem?, ← heq, Nat.add_sub_cancel, hJ]
    rw [hlast, Option.some.injEq] at h
    exact h ▸ ht

theorem here_of_restAt (hs : Shaped BBs) {b : Nat} {is : List MCInst} (h : restAt BBs b = I :: is) :
    ∃ blk, Here BBs b 0 blk ∧ ahead BBs b 0 blk = I :: is := by
  by_cases hlt : b < BBs.length
  · have hb : BBs[b]? = some BBs[b] := List.getElem?_eq_getElem hlt
    exact ⟨_, here_start hs hb, (restAt_eq hb).symm.trans h⟩
  · rw [restAt, List.drop_eq_nil_of_le (Nat.le_of_not_lt hlt)] at h
    cases h

theorem flow_inst {b i : Nat} {B : LBlock} {x : LInst} (hB : F.blocks[b]? = some B)
    (hx : B.body[i]? = some x) :
    F.region? (.block b i) = some x.code ∧ F.inst? (.block b i) = some x.inst := by
  obtain ⟨hi, rfl⟩ := List.getElem?_eq_some_iff.mp hx
  simp [LFunction.region?, LFunction.inst?, hB, LBlock.regions, List.getElem?_append_left, hi]

theorem flow_tail {b : Nat} {B : LBlock} {r : Region} (hB : F.blocks[b]? = some B)
    (hr : B.tail = some r) :
    F.region? (.block b B.body.length) = some r ∧ F.inst? (.block b B.body.length) = none := by
  simp [LFunction.region?, LFunction.inst?, hB, hr, LBlock.regions]

theorem flow_exit {p : Pos} {r : Region} (h : F.region? p = some r) :
    (F.flow obs).exit p = exitOf p.next (exits r) := by
  simp only [LFunction.flow, h]

theorem flow_event_none {p : Pos} (h : F.inst? p = none ∨ ∃ I, F.inst? p = some I ∧ I.place = none) :
    (F.flow obs).event p = none := by
  rcases h with h | ⟨I, h, hp⟩ <;> simp [LFunction.flow, *]

theorem Wired.block (hw : Wired BBs F) {b : Nat} {blk : MCBasicBlock} (hb : BBs[b]? = some blk) :
    ∃ B, F.blocks[b]? = some B ∧ B.body.map (·.inst) = blk.instrs := by
  have hlt := (List.getElem?_eq_some_iff.mp hb).1
  have hlt' : b < F.blocks.length := hw.length ▸ hlt
  have hB : F.blocks[b]? = some F.blocks[b] := List.getElem?_eq_getElem hlt'
  exact ⟨_, hB, hw.insts b blk _ hb hB⟩

theorem body_get {B : LBlock} {is : List MCInst} (h : B.body.map (·.inst) = is) {i : Nat} {J : MCInst}
    (hJ : is[i]? = some J) : ∃ x, B.body[i]? = some x ∧ x.inst = J := by
  rw [← h, List.getElem?_map] at hJ
  cases hx : B.body[i]? with
  | none => rw [hx] at hJ; cases hJ
  | some x =>
    rw [hx] at hJ
    cases hJ
    exact ⟨x, rfl, rfl⟩

theorem Wired.here (hw : Wired BBs F) {b i : Nat} {blk : MCBasicBlock} (hb : BBs[b]? = some blk)
    {J : MCInst} (hJ : blk.instrs[i]? = some J) : ∃ B x, F.blocks[b]? = some B ∧ x ∈ B.body ∧
      x.inst = J ∧ F.region? (.block b i) = some x.code ∧ F.inst? (.block b i) = some J := by
  obtain ⟨B, hB, hinsts⟩ := hw.block hb
  obtain ⟨x, hx, rfl⟩ := body_get hinsts hJ
  obtain ⟨hreg, hinst⟩ := flow_inst hB hx
  exact ⟨B, x, hB, List.mem_of_getElem? hx, rfl, hreg, hinst⟩

/-- A silent move that keeps the instructions ahead: the jump of the entry block, a sentinel, or
the code that falls through. -/
def SilentStep (F : LFunction) (obs : MCInst → ε) (BBs : List MCBasicBlock) (b i : Nat)
    (is : List MCInst) : Prop :=
  ∃ b' i' blk', (F.flow obs).event (.block b i) = none ∧ (F.flow obs).exit (.block b i) = .goto (.block b' i') ∧
    Here BBs b' i' blk' ∧ ahead BBs b' i' blk' = is ∧ (b' = b ∧ i' = i + 1 ∨ b' = b + 1)

variable {b i : Nat} {blk : MCBasicBlock} {is : List MCInst}

theorem silent_entry (hs : Shaped BBs) (hw : Wired BBs F) (h : Here BBs 0 0 blk)
    (ha : ahead BBs 0 0 blk = I :: is) : SilentStep F obs BBs 0 0 (I :: is) := by
  obtain rfl : blk = { name := entryName, instrs := [entryJump] } :=
    Option.some.inj (h.block.symm.trans hs.entry)
  obtain ⟨B, x, hB, hx, _, hreg, hinst⟩ := hw.here h.block (i := 0) rfl
  obtain ⟨r, hbody, hexits, _⟩ := hw.entry B hB
  obtain rfl : x = ⟨entryJump, r⟩ := by simpa [hbody] using hx
  obtain ⟨blk₁, hblk₁, hahead⟩ := here_of_restAt (b := 1) hs ha
  refine ⟨1, 0, blk₁, flow_event_none (Or.inr ⟨_, hinst, rfl⟩), ?_, hblk₁, hahead, Or.inr rfl⟩
  rw [flow_exit hreg, hexits]
  rfl

theorem silent_sentinel (hs : Shaped BBs) (hw : Wired BBs F) (h : Here BBs (b + 1) i blk)
    (ha : ahead BBs (b + 1) i blk = I :: is) {J : MCInst} (hJ : blk.instrs[i]? = some J)
    (hp : J.place = none) : SilentStep F obs BBs (b + 1) i (I :: is) := by
  obtain ⟨hlt, hget⟩ := List.getElem?_eq_some_iff.mp hJ
  obtain ⟨B, x, hB, hx, rfl, hreg, hinst⟩ := hw.here h.block hJ
  have hnop := hs.unplaced blk (mem_tail_of_getElem? h.block) _ (List.mem_of_getElem? hJ) hp
  have hexits : exits x.code = [] := by
    have hexit := hw.inst b B hB x hx
    generalize exits x.code = ts at hexit
    cases hexit with
    | straight _ => rfl
    | ret v h => rw [hnop] at h; cases h
    | jump h => rw [hnop] at h; cases h
    | cond c h => rw [hnop] at h; cases h
  refine ⟨b + 1, i + 1, blk, flow_event_none (Or.inr ⟨_, hinst, hp⟩), ?_,
    here_next hs h.block hJ (by rw [hnop]; rfl), ?_, Or.inl ⟨rfl, rfl⟩⟩
  · rw [flow_exit hreg, hexits]
    rfl
  · rwa [ahead, List.drop_eq_getElem_cons hlt, hget, placed_cons_none hp] at ha

theorem silent_tail (hs : Shaped BBs) (hw : Wired BBs F) (h : Here BBs b blk.instrs.length blk)
    (ha : ahead BBs b blk.instrs.length blk = I :: is) :
    SilentStep F obs BBs b blk.instrs.length (I :: is) := by
  obtain ⟨B, hB, hinsts⟩ := hw.block h.block
  obtain ⟨r, hr⟩ := Option.isSome_iff_exists.mp ((hw.isSome_tail b blk B h.block hB).mpr (h.falls rfl))
  obtain ⟨hreg, hinst⟩ := flow_tail hB hr
  have hlen : B.body.length = blk.instrs.length := by rw [← hinsts, List.length_map]
  rw [hlen] at hreg hinst
  have hrest : restAt BBs (b + 1) = I :: is := by
    rwa [ahead, List.drop_length, placed, List.filter_nil, List.nil_append] at ha
  obtain ⟨blk₁, hblk₁, hahead⟩ := here_of_restAt hs hrest
  have hlt := (List.getElem?_eq_some_iff.mp hblk₁.block).1
  refine ⟨b + 1, 0, blk₁, flow_event_none (Or.inl hinst), ?_, hblk₁, hahead, Or.inr rfl⟩
  have hexits : exits r = [.br (.bb (b + 1))] := by
    cases b with
    | zero =>
      obtain ⟨_, _, _, hno⟩ := hw.entry B hB
      rw [hno] at hr
      cases hr
    | succ b =>
      have hexit := hw.tail b B r hB hr
      generalize exits r = ts at hexit
      cases hexit with
      | next _ => rfl
      | last v hle => omega
  rw [flow_exit hreg, hexits]
  rfl

/-- By silent moves the lifted function comes to the next instruction of the input. -/
theorem reach (obs : MCInst → ε) {b i : Nat} {blk : MCBasicBlock} (hs : Shaped BBs) (hw : Wired BBs F)
    (h : Here BBs b i blk) (ha : ahead BBs b i blk = I :: is) :
    ∃ n b' i' blk', (F.flow obs).Silent n (.block b i) (.block b' i') ∧ Here BBs b' i' blk' ∧
      blk'.instrs[i']? = some I ∧ I.place ≠ none ∧ ahead BBs b' i' blk' = I :: is := by
  by_cases hnext : ∃ J, blk.instrs[i]? = some J ∧ J.place ≠ none
  · obtain ⟨J, hJ, hp⟩ := hnext
    obtain ⟨hlt, hget⟩ := List.getElem?_eq_some_iff.mp hJ
    obtain rfl : J = I := by
      rw [ahead, List.drop_eq_getElem_cons hlt, hget, placed_cons_some hp] at ha
      exact List.head_eq_of_cons_eq ha
    exact ⟨0, b, i, blk, .refl, h, hJ, hp, ha⟩
  · have hstep : SilentStep F obs BBs b i (I :: is) := by
      by_cases hlt : i < blk.instrs.length
      · have hJ : blk.instrs[i]? = some blk.instrs[i] := List.getElem?_eq_getElem hlt
        have hp : blk.instrs[i].place = none := by
          by_contra hp
          exact hnext ⟨_, hJ, hp⟩
        cases b with
        | zero =>
          obtain rfl : blk = { name := entryName, instrs := [entryJump] } :=
            Option.some.inj (h.block.symm.trans hs.entry)
          obtain rfl : i = 0 := by simpa using hlt
          exact silent_entry hs hw h ha
        | succ b => exact silent_sentinel hs hw h ha hJ hp
      · obtain rfl : i = blk.instrs.length := Nat.le_antisymm h.le (Nat.le_of_not_lt hlt)
        exact silent_tail hs hw h ha
    obtain ⟨b₁, i₁, blk₁, hev, hex, h₁, ha₁, hdec⟩ := hstep
    have hb := (List.getElem?_eq_some_iff.mp h.block).1
    have hle₁ := h₁.le
    have hsame : b₁ = b → blk₁ = blk := by
      rintro rfl
      exact Option.some.inj (h₁.block.symm.trans h.block)
    obtain ⟨n, b', i', blk', hsil, hrest⟩ := reach obs hs hw h₁ ha₁
    exact ⟨n + 1, b', i', blk', .step hev hex hsil, hrest⟩
termination_by (BBs.length - b, blk.instrs.length - i)
decreasing_by
  rcases hdec with ⟨rfl, rfl⟩ | rfl
  · obtain rfl := hsame rfl
    exact Prod.Lex.right _ (by omega)
  · exact Prod.Lex.left _ _ (by omega)

/-- Control of the lifted function is at `p` with the instructions `is` ahead. -/
def Stands (BBs : List MCBasicBlock) (is : List MCInst) : Pos → Prop
  | .init => is = restAt BBs 0
  | .block b i => ∃ blk, Here BBs b i blk ∧ ahead BBs b i blk = is

theorem stands_of_find (hs : Shaped BBs) {l : String} (h : findBlockByName BBs l = some b) :
    Stands BBs (restAt BBs b) (.block b 0) := by
  obtain ⟨blk, hb, _⟩ := findBlockByName_some h
  exact ⟨blk, here_start hs hb, (restAt_eq hb).symm⟩

theorem reach_of_stands (obs : MCInst → ε) (hs : Shaped BBs) (hw : Wired BBs F) {p : Pos}
    (h : Stands BBs (I :: is) p) :
    ∃ n b i blk, (F.flow obs).Silent n p (.block (b + 1) i) ∧ Here BBs (b + 1) i blk ∧
      blk.instrs[i]? = some I ∧ I.place ≠ none ∧ ahead BBs (b + 1) i blk = I :: is := by
  have hfrom : ∀ {b i : Nat} {blk : MCBasicBlock}, Here BBs b i blk → ahead BBs b i blk = I :: is →
      ∃ n b' i' blk', (F.flow obs).Silent n (.block b i) (.block (b' + 1) i') ∧ Here BBs (b' + 1) i' blk' ∧
        blk'.instrs[i']? = some I ∧ I.place ≠ none ∧ ahead BBs (b' + 1) i' blk' = I :: is := by
    intro b i blk hhere ha
    obtain ⟨n, b', i', blk', hsil, hhere', hI, hp, ha'⟩ := reach obs hs hw hhere ha
    cases b' with
    | zero =>
      -- the entry block has only its own jump
      obtain rfl : blk' = { name := entryName, instrs := [entryJump] } :=
        Option.some.inj (hhere'.block.symm.trans hs.entry)
      obtain rfl : I = entryJump := List.mem_singleton.mp (List.mem_of_getElem? hI)
      exact absurd rfl hp
    | succ b' => exact ⟨n, b', i', blk', hsil, hhere', hI, hp, ha'⟩
  cases p with
  | block b i =>
    obtain ⟨blk, hhere, ha⟩ := h
    exact hfrom hhere ha
  | init =>
    obtain ⟨blk, hhere, ha⟩ := here_of_restAt (b := 0) hs h.symm
    obtain ⟨n, b', i', blk', hsil, hrest⟩ := hfrom hhere ha
    have hreg : F.region? .init = some F.init := rfl
    refine ⟨n + 1, b', i', blk', .step (flow_event_none (Or.inl rfl)) ?_ hsil, hrest⟩
    rw [flow_exit hreg, hw.init]
    rfl

theorem drop_of_terminator (hs : Shaped BBs) (hb : BBs[b]? = some blk) (hI : blk.instrs[i]? = some I)
    (ht : I.opcode.isTerminator = true) : blk.instrs.drop (i + 1) = [] := by
  obtain ⟨hi, rfl⟩ := List.getElem?_eq_some_iff.mp hI
  refine List.drop_eq_nil_of_le (Nat.le_of_not_lt fun hlt => ?_)
  have hi' : i < blk.instrs.dropLast.length := by
    rw [List.length_dropLast]
    omega
  have hmem : blk.instrs[i] ∈ blk.instrs.dropLast := by
    rw [← List.getElem_dropLast hi']
    exact List.getElem_mem hi'
  rw [hs.inner blk (List.mem_of_getElem? hb) _ hmem] at ht
  cases ht

/-- **The lifted function simulates what walks along its machine instructions.** -/
theorem wired_sim {At : κ → List MCInst → Prop} (hs : Shaped BBs) (hw : Wired BBs F)
    (hM : Follows M obs BBs At) :
    Flow.Sim M (F.flow obs) fun k p => M.exit k = .fell ∨ ∃ is, At k is ∧ Stands BBs is p := by
  intro k p hk hne
  obtain ⟨is, hat, hst⟩ := hk.resolve_left hne
  cases is with
  | nil => exact absurd (hM.fell k hat) hne
  | cons I is =>
    obtain ⟨n, b, i, blk, hsil, hhere, hI, hp, ha⟩ := reach_of_stands obs hs hw hst
    obtain ⟨B, x, hB, hx, rfl, hreg, hinst⟩ := hw.here hhere.block hI
    have hahead : is = placed (blk.instrs.drop (i + 1)) ++ restAt BBs (b + 1 + 1) := by
      obtain ⟨hlt, hget⟩ := List.getElem?_eq_some_iff.mp hI
      rw [ahead, List.drop_eq_getElem_cons hlt, hget, placed_cons_some hp] at ha
      exact (List.tail_eq_of_cons_eq ha).symm
    refine ⟨n, _, hsil, ?_, ?_⟩
    · rw [hM.event k _ _ hat]
      simp [LFunction.flow, hinst, Option.isSome_iff_ne_none, hp]
    rw [flow_exit hreg]
    have hexit := hw.inst b B hB x hx
    generalize exits x.code = ts at hexit
    cases hexit with
    | straight ht =>
      obtain ⟨k', hk', hat'⟩ := hM.straight k _ _ hat ht
      rw [hk']
      exact .goto (Or.inr ⟨is, hat', blk, here_next hs hhere.block hI ht, hahead.symm⟩)
    | ret v hr =>
      rw [hM.ret k _ _ hat hr]
      exact .stop
    | jump hu hl hf =>
      obtain ⟨k', hk', hat'⟩ := hM.jump k _ _ _ _ hat hu hl hf
      rw [hk']
      exact .goto (Or.inr ⟨_, hat', stands_of_find hs hf⟩)
    | cond c hc hl hf =>
      obtain ⟨k', k'', hk', hat', hat''⟩ := hM.cond k _ _ _ _ hat hc hl hf
      have ht := (Opcode.cond_flags hc).1
      have hrest : is = restAt BBs (b + 1 + 1) := by
        rw [hahead, drop_of_terminator hs hhere.block hI ht]
        rfl
      rw [hk']
      refine .cond (Or.inr ⟨_, hat', stands_of_find hs hf⟩) ?_
      by_cases hlt : b + 1 + 1 < BBs.length
      · rw [if_pos hlt]
        have hb : BBs[b + 1 + 1]? = some BBs[b + 1 + 1] := List.getElem?_eq_getElem hlt
        exact Or.inr ⟨is, hat'', _, here_start hs hb, (restAt_eq hb).symm.trans hrest.symm⟩
      · -- behind the last block there is nothing
        rw [restAt, List.drop_eq_nil_of_le (Nat.le_of_not_lt hlt)] at hrest
        obtain rfl : is = [] := hrest
        exact Or.inl (hM.fell k'' hat'')

end flow

/-- Outcomes that take a loop once. -/
def once (i : Nat) : Bool := i = 0

end BpfTv
