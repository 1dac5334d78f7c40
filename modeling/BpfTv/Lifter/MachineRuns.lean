import BpfTv.Lifter.EntryState
import BpfTv.Lifter.InsnRegions

/-!
# Running a machine

A lifted function whose regions do what a machine does at the same event performs this machine
(`performs`), and halts exactly as it does from the state that `platformInit` makes
(`eval_performed`). What the code of an instruction reads from the unspecified state depends on the offset
that it was written at (`LInst.WrittenAt`); the instructions read one behind the other
(`fills_written`).
-/

namespace BpfTv

open Control Emit StateTransition Bytes

variable {κ ε χ : Type} {env : Env} {W : World} {F : LFunction} {obs : MCInst → ε} {regs : Regs} {mem : Mem}
  {p p' : Pos} {r : Region} {rt : Rt} {t : Option Term} {M : Machine κ ε (BpfState χ) (BpfOutcome χ)}
  {shown : χ → String × List RVal} {BBs : List MCBasicBlock}

/-! ## Leaving a region -/

theorem leave_goto (h : exitOf p t.toList = .goto p') : leave p t rt = some (.entering p' rt) := by
  cases t with
  | none =>
    cases h
    rfl
  | some t =>
    cases t with
    | br t =>
      cases t with
      | bb b =>
        cases h
        rfl
      | sub k => cases h
    | condBr c t f => cases t <;> cases f <;> cases h
    | ret v => cases h

theorem leave_cond {pt pf : Pos} {b : Bool} (h : exitOf p t.toList = .cond pt pf)
    (hv : ∀ v t' f', t = some (.condBr v t' f') → v.evalInt rt 1 = .ok (BitVec.ofBool b)) :
    leave p t rt = some (.entering (if b then pt else pf) rt) := by
  cases t with
  | none => cases h
  | some t =>
    cases t with
    | br t => cases t <;> cases h
    | ret v => cases h
    | condBr c t f =>
      cases t with
      | sub k => cases h
      | bb bt =>
        cases f with
        | sub k => cases h
        | bb bf =>
          cases h
          have hb := hv c _ _ rfl
          cases b <;> simp only [leave, hb] <;> rfl

theorem leave_stop (h : exitOf p t.toList = .stop)
    (hv : ∀ v, t = some (.ret v) → Option.Rel (fun u x => u.eval rt = .ok x) v (env.retVal (rt.regs 0))) :
    leave p t rt = some (.halted (.returned (env.retVal (rt.regs 0)) rt.mem rt.calls)) := by
  cases t with
  | none => cases h
  | some t =>
    cases t with
    | br t => cases t <;> cases h
    | condBr c t f => cases t <;> cases f <;> cases h
    | ret v =>
      have hrel := hv v rfl
      generalize env.retVal (rt.regs 0) = x at hrel ⊢
      cases hrel with
      | none => rfl
      | some hu => simp only [leave, hu]

theorem exits_lift {I : MCInst} {s s' : LState} (h : (region none (lift env I)).run s = .ok (r, s')) :
    exits r = r.term.toList := by
  by_cases hterm : I.opcode.isTerminator = true
  · obtain ⟨t, hexits, ht, _⟩ := region_term hterm h
    rw [hexits, ht]
    rfl
  · obtain ⟨hexits, ht⟩ := region_straight (eq_false_of_ne_true hterm) h
    rw [hexits, ht]
    rfl

/-! ## Performing a machine -/

/-- Where the lifted function is when the machine has halted. -/
def Env.halted (env : Env) (shown : χ → String × List RVal) (o : BpfOutcome χ) : FnState :=
  .halted (env.outcome shown o)

/-- A function whose regions do what the machine does at the same event performs it. -/
theorem performs {G : Globals} (hwr : Written env G F) (hs : Shaped BBs) (hw : Wired BBs F)
    (hregion : ∀ k p, M.Matched (F.flow obs) k p → ∃ r, F.region? p = some r ∧ exits r = r.term.toList ∧
      r.Executes env W shown (M.act k) (M.test k))
    (hresult : ∀ k m, M.result k m = .returned (m.regs 0) m.mem m.calls) :
    M.Performs (F.flow obs) F.step FnState.entering (env.halted shown) (Represents W shown) (· ≠ .init) where
  closed _ _ _ _ hl := leads_ne_init hl
  silent p p' m rt hp hev hex hm := by
    obtain ⟨r, hr, hbare⟩ := silent_bare hs hw hwr hp hev hex
    exact ⟨rt, hm, hbare.moves hr hex⟩
  error k p m rt o _ hp hm hact := by
    obtain ⟨r, hr, _, hexec⟩ := hregion k p hp
    have h := hexec m rt hm
    rw [hact] at h
    obtain ⟨htrap, y, hruns, hstep⟩ := h
    rw [Env.halted, htrap]
    exact Relation.TransGen.trans_right (reaches_region hr hruns) (.single (step_trapped hr hstep))
  goto k p p' m m' rt _ hp hm hact hex := by
    obtain ⟨r, hr, hexits, hexec⟩ := hregion k p hp
    have h := hexec m rt hm
    rw [hact] at h
    obtain ⟨rt', hruns, hend, hm', _⟩ := h
    rw [flow_exit hr, hexits] at hex
    exact ⟨rt', hm', reaches_leave hr hruns hend (leave_goto hex)⟩
  cond k p pt pf m m' rt _ hp hm hact hex := by
    obtain ⟨r, hr, hexits, hexec⟩ := hregion k p hp
    have h := hexec m rt hm
    rw [hact] at h
    obtain ⟨rt', hruns, hend, hm', hcond, _⟩ := h
    rw [flow_exit hr, hexits] at hex
    exact ⟨rt', hm', reaches_leave hr hruns hend (leave_cond hex hcond)⟩
  stop k p m m' rt _ hp hm hact hex := by
    obtain ⟨r, hr, hexits, hexec⟩ := hregion k p hp
    have h := hexec m rt hm
    rw [hact] at h
    obtain ⟨rt', hruns, hend, hm', _, hret⟩ := h
    rw [flow_exit hr, hexits] at hex
    rw [← hm'.regs] at hret
    have hleave := leave_stop hex hret
    rw [hm'.regs, hm'.mem, hm'.calls] at hleave
    rw [hresult]
    exact reaches_leave hr hruns hend hleave
  halted _ := rfl

theorem inst_of_event {e : ε} (h : (F.flow obs).event p = some e) :
    ∃ y ∈ F.insts, F.region? p = some y.code ∧ y.inst.place.isSome = true ∧ obs y.inst = e := by
  cases p with
  | init => cases h
  | block b j =>
    obtain ⟨I, hI, hobs⟩ := Option.map_eq_some_iff.mp h
    obtain ⟨hinst, hplace⟩ := Option.filter_eq_some_iff.mp hI
    obtain ⟨y, hy, rfl⟩ := Option.map_eq_some_iff.mp hinst
    obtain ⟨B, hB, hyB⟩ := Option.bind_eq_some_iff.mp hy
    exact ⟨y, List.mem_flatMap.mpr ⟨B, List.mem_of_getElem? hB, List.mem_of_getElem? hyB⟩, (flow_inst hB hyB).1,
      hplace, hobs⟩

/-- **Performing a machine.** From the registers that `platformInit` makes, the lifted function halts exactly
as the machine. -/
theorem eval_performed {R : κ → Pos → Prop} {k : κ} {G : Globals} (hwr : Written env G F) (hargs : env.ArgsTyped W)
    (hinit : InitRegs env W regs)
    (hperf : M.Performs (F.flow obs) F.step FnState.entering (env.halted shown) (Represents W shown) (· ≠ .init))
    (hsim : Flow.Sim M.toFlow (F.flow obs) R) (hR : R k (.block 0 0)) (regs₀ : Fin 12 → BitVec 64) (mem : Mem)
    (hsafe : M.Safe (.running k { regs, mem })) (y : FnState) : y ∈ eval F.step (fnStart W regs₀ mem) ↔
      ∃ o, .halted o ∈ eval M.step (.running k { regs, mem }) ∧ env.halted shown o = y := by
  obtain ⟨s₁, _, hcode, _⟩ := hwr.init
  obtain ⟨_, _, rt, hruns, hend, hterm, hworld, hmem, hcalls, hregs⟩ := init_region hargs hcode regs₀ mem
  have hm : Represents W shown { regs, mem } rt := ⟨hworld, hregs.unique hinit, hmem, hcalls⟩
  have hstart : Reaches F.step (fnStart W regs₀ mem) (.entering (.block 0 0) rt) :=
    (reaches_leave (p := .init) rfl hruns hend (by rw [hterm]; rfl)).to_reflTransGen
  have hiff := hperf.eval_iff hsim hsafe (fun h : Pos.block 0 0 = .init => nomatch h) hR hm (y := y)
  rwa [← reaches_eval hstart] at hiff

/-! ## The unspecified state -/

/-- No two instructions of the input are at one place. -/
def LFunction.Apart (F : LFunction) : Prop :=
  ∀ y ∈ F.insts, ∀ z ∈ F.insts, ∀ u, y.inst.place = some u → z.inst.place = some u → y = z

theorem exists_written {γ : Type} [Inhabited γ] {Q : Nat → LInst → γ → Nat → Prop} {G : Globals}
    (hwr : Written env G F) (hapart : F.Apart)
    (h : ∀ y ∈ F.insts, ∀ u, y.inst.place = some u → ∀ off, ∃ c, Q u y c off) :
    ∃ C : Nat → γ, ∀ y ∈ F.insts, ∀ u, y.inst.place = some u → y.WrittenAt env G (Q u y (C u)) := by
  have hone : ∀ u : Nat, ∃ c : γ, ∀ y ∈ F.insts, y.inst.place = some u → y.WrittenAt env G (Q u y c) := by
    intro u
    by_cases hu : ∃ y ∈ F.insts, y.inst.place = some u
    · obtain ⟨y, hy, hyu⟩ := hu
      obtain ⟨names, succs, s, s', hn, hG, hcode, _⟩ := hwr.inst y hy
      obtain ⟨c, hc⟩ := h y hy u hyu s.unspecifiedOff
      refine ⟨c, fun z hz hzu => ?_⟩
      obtain rfl := hapart y hy z hz u hyu hzu
      exact ⟨names, succs, s, s', hn, hG, hcode, hc⟩
    · exact ⟨default, fun y hy hyu => absurd ⟨y, hy, hyu⟩ hu⟩
  choose C hC using hone
  exact ⟨C, fun y hy u hyu => hC u y hy hyu⟩

/-- The instructions read parts of the unspecified state that can be filled independently. -/
theorem fills_written {a b : LState} {ys : List LInst} {Q : Nat → LInst → (Nat → BitVec 8) → Nat → Prop}
    (h : WrittenInsts env a b ys) (hn : a.globals.Named env.module) (hidle : a.globals.deferredGlobs = [])
    (hQ : ∀ y ∈ ys, ∀ u, y.inst.place = some u → ∀ names succs s s', s.globals.Named env.module →
      (region none (lift { env with bbNames := names, succs := succs } y.inst)).run s = .ok (y.code, s') →
        Fills s.unspecifiedOff s'.unspecifiedOff fun k => Q u y k s.unspecifiedOff) :
    Fills a.unspecifiedOff b.unspecifiedOff fun k =>
      ∀ y ∈ ys, ∀ u, y.inst.place = some u → y.WrittenAt env b.globals (Q u y k) := by
  induction h with
  | nil _ => exact .of_true fun _ y hy => nomatch hy
  | @cons a b y ys names succs s s' h hy hys ih =>
    obtain ⟨hQy, hQys⟩ := List.forall_mem_cons.mp hQ
    have hlook : Looks { env with bbNames := names, succs := succs } (env.requests y.inst) s s' := lift_looks hy
    have hidle' := hlook.empty (h.globals ▸ hidle)
    have hn₁ : s.globals.Named env.module := h.globals ▸ hn
    have hone : Fills s.unspecifiedOff s'.unspecifiedOff fun k => ∀ u, y.inst.place = some u →
        y.WrittenAt env b.globals (Q u y k) := by
      cases hu : y.inst.place with
      | none => exact .of_true fun _ u hu => nomatch hu
      | some u =>
        refine (hQy u hu names succs s s' hn₁ hy).mono fun k hk u' hu' => ?_
        obtain rfl := Option.some.inj hu'
        exact ⟨names, succs, s, s', hn₁, fun e he => hys.looks.entries hidle' he, hy, hk⟩
    have hrest := hone.and (ih (hlook.names hn₁) hidle' hQys) (allocated_lift hy).le hys.le
    exact (hrest.widen h.off (Nat.le_refl _)).mono fun k ⟨h₁, h₂⟩ => List.forall_mem_cons.mpr ⟨h₁, h₂⟩

end BpfTv
