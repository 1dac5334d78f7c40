import BpfTv.Lifter.BytesMode

/-!
# Programs that run past their end

Where the last instruction of a byte program does not leave it, `runBytes` still lifts the program: the
last block gets a return, or its conditional branch goes to the target on both outcomes. The edges and
the returns of the lifted function are those of the BPF machine exactly when control cannot run past
the end (`run_off_end`).
-/

namespace BpfTv

open Control

/-- The last instruction is reachable, and is neither `exit` nor an unconditional jump. -/
def RunsOff (dis : Disassembler) (bytes : List (BitVec 8)) : Prop :=
  ∃ (u : Nat) (x : Disassembled), (bpfFlow dis bytes).Reaches 0 u ∧ dis (unitBytes bytes u) = some x ∧
    8 * u + x.size = bytes.length ∧ x.opcode.isReturn = false ∧ x.opcode.isUnconditionalBranch = false

/-- Every edge that the lifted function reaches is one of the machine, for the same outcome, and every
return it reaches is at an instruction where the machine stops. -/
structure Exact (M : Flow Int (Nat × Opcode)) (F : LFunction) : Prop where
  edge : ∀ p u op, (F.flow unitObs).Reaches .init p → (F.flow unitObs).event p = some (u, op) →
    ∀ o u' op', (F.flow unitObs).Next p o (u', op') → Flow.Leads (M.exit u) o u'
  ret : ∀ p, (F.flow unitObs).Reaches .init p → (F.flow unitObs).exit p = .stop →
    ∃ u op, (F.flow unitObs).event p = some (u, op) ∧ M.exit (u : Nat) = .stop

variable {dis : Disassembler} {bytes : List (BitVec 8)} {x : Disassembled} {u : Nat} {k : Int}

/-! ## The edges of the machine -/

theorem exit_fell : (bpfFlow dis bytes).exit k = .fell ↔ k < 0 ∨ dis (unitBytes bytes k.toNat) = none := by
  by_cases hk : k < 0
  · simp [bpfFlow, hk]
  · cases hx : dis (unitBytes bytes k.toNat) with
    | none => simp [bpfFlow, hx]
    | some x =>
      simp only [bpfFlow, hx, hk, if_false, false_or, reduceCtorEq, iff_false]
      split_ifs <;> simp

theorem exit_not_fell (hx : dis (unitBytes bytes u) = some x) : (bpfFlow dis bytes).exit u ≠ .fell := by
  rw [Ne, exit_fell]
  rintro (h | h)
  · omega
  · rw [Int.toNat_natCast, hx] at h
    cases h

theorem event_of_not_fell (h : (bpfFlow dis bytes).exit k ≠ .fell) :
    ∃ (u : Nat) (x : Disassembled), k = u ∧ dis (unitBytes bytes u) = some x ∧
      (bpfFlow dis bytes).event k = some (u, x.opcode) := by
  rw [Ne, exit_fell, not_or, not_lt] at h
  obtain ⟨u, rfl⟩ := Int.eq_ofNat_of_zero_le h.1
  obtain ⟨x, hx⟩ := Option.ne_none_iff_exists'.mp h.2
  rw [Int.toNat_natCast] at hx
  exact ⟨u, x, rfl, hx, by simp [bpfFlow, hx]⟩

theorem leads_cases (hx : dis (unitBytes bytes u) = some x) {o : Option Bool}
    (h : Flow.Leads ((bpfFlow dis bytes).exit u) o k) :
    k = (u + x.size / 8 : Nat) ∧ x.opcode.isReturn = false ∧ x.opcode.isUnconditionalBranch = false ∨
      k = (u + x.size / 8 : Nat) + branchOffset (unitBytes bytes u) x.opcode ∧ x.opcode.isBranch = true := by
  have hu : ¬(u : Int) < 0 := by omega
  simp only [bpfFlow, hu, if_false, Int.toNat_natCast, hx] at h
  split at h
  · cases h
  rename_i hret
  split at h
  · rename_i hc
    cases h with
    | taken => exact Or.inr ⟨by push_cast; rfl, by rw [Opcode.isBranch_eq, hc, Bool.true_or]⟩
    | notTaken => exact Or.inl ⟨by push_cast; rfl, eq_false_of_ne_true hret, (Opcode.cond_flags hc).2.1⟩
  split at h
  · rename_i hj
    cases h
    exact Or.inr ⟨by push_cast; rfl, by rw [Opcode.isBranch_eq, hj, Bool.or_true]⟩
  · rename_i hj
    cases h
    exact Or.inl ⟨by push_cast; rfl, eq_false_of_ne_true hret, eq_false_of_ne_true hj⟩

theorem exit_cond (hx : dis (unitBytes bytes u) = some x) (hc : x.opcode.isCondJump = true) :
    (bpfFlow dis bytes).exit u = .cond ((u + x.size / 8 : Nat) + branchOffset (unitBytes bytes u) x.opcode)
      (u + x.size / 8 : Nat) := by
  simp [bpfFlow, hx, hc, (Opcode.cond_flags hc).2.2]

theorem decode_covers {P : List (BitVec 8) → Disassembled → DecodedInsn → Prop} {ds : List DecodedInsn}
    (hdis : DisassemblerSpec dis) (hc : Chain dis bytes P u ds) {fuel : Nat} {insns : List DecodedInsn}
    (h : decode dis bytes fuel (8 * u) = .ok insns) :
    ∀ d ∈ ds, dis (unitBytes bytes (d.unit + d.units)) = none → bytes.length ≤ 8 * (d.unit + d.units) := by
  induction hc generalizing fuel insns with
  | nil _ => exact fun d hd => nomatch hd
  | @cons u x d ds hx hunit hunits _ _ _ ih =>
    obtain ⟨_, fuel', rest, hr⟩ := decode_next hdis hx h
    rw [← hunits] at hr
    refine List.forall_mem_cons.mpr ⟨fun hnone => ?_, ih hr⟩
    rw [hunit] at hnone ⊢
    unfold decode at hr
    by_contra hlt
    rw [if_neg hlt] at hr
    cases fuel' with
    | zero => cases hr
    | succ fuel' =>
      rw [show dis (bytes.drop (8 * (u + d.units))) = none from hnone] at hr
      cases hr

/-! ## The positions of the machine -/

section blocks

variable {ds : List DecodedInsn} {leaders : List Nat} {MF : MCFunction} {F : LFunction}
  (hchain : Chain dis bytes (Filled (ds.map (·.unit)) leaders) 0 ds) (hinv : FillInv leaders ds MF)
include hchain hinv

omit hinv in
theorem not_fell_of_mem {d : DecodedInsn} (hd : d ∈ ds) : (bpfFlow dis bytes).exit d.unit ≠ .fell := by
  obtain ⟨j, hj⟩ := List.getElem?_of_mem hd
  have htail := hchain.drop hj
  obtain ⟨hlt, rfl⟩ := List.getElem?_eq_some_iff.mp hj
  rw [List.drop_eq_getElem_cons hlt] at htail
  cases htail with
  | cons hx _ _ _ _ _ => exact exit_not_fell hx

theorem target_not_fell {d : DecodedInsn} (hunit : d.unit = u) (hunits : d.units = x.size / 8)
    (hfill : Filled (ds.map (·.unit)) leaders (unitBytes bytes u) x d) (hbr : x.opcode.isBranch = true) :
    (bpfFlow dis bytes).exit ((u + x.size / 8 : Nat) + branchOffset (unitBytes bytes u) x.opcode) ≠ .fell := by
  obtain ⟨j, e, hj, _, htarget, _⟩ := bytes_target hinv hfill hbr
  have hne := not_fell_of_mem hchain (List.mem_of_getElem? hj)
  rwa [← htarget, hunit, hunits, ← Nat.cast_add] at hne

/-- The chain from `u` on, when the machine comes there. -/
theorem chain_reaches (hr : (bpfFlow dis bytes).Reaches 0 k) : ∃ (n : Nat) (rest : List DecodedInsn),
    k = n ∧ Chain dis bytes (Filled (ds.map (·.unit)) leaders) n rest ∧ rest <:+ ds := by
  induction hr with
  | refl => exact ⟨0, ds, rfl, hchain, List.suffix_refl ds⟩
  | @tail k₀ k _ hedge ih =>
    obtain ⟨n, rest, rfl, hrest, hsuff⟩ := ih
    have hne := Flow.edge_ne_fell hedge
    obtain ⟨o, ho⟩ := hedge
    cases hrest with
    | nil hx => exact absurd (exit_fell.mpr (Or.inr hx)) hne
    | @cons _ x d rest hx hunit hunits _ hfill hrest =>
      rcases leads_cases hx ho with ⟨hk, _⟩ | ⟨hk, hbr⟩
      · refine ⟨_, rest, ?_, hrest, (List.suffix_cons d rest).trans hsuff⟩
        rw [hk, hunits]
      · obtain ⟨j, e, hj, _, htarget, _⟩ := bytes_target hinv hfill hbr
        refine ⟨e.unit, ds.drop j, ?_, hchain.drop hj, List.drop_suffix j ds⟩
        rw [hk, ← htarget, hunit, hunits]
        push_cast
        rfl

/-- Only behind a last instruction that is reachable does the machine run past the end. -/
theorem reaches_not_fell (hdis : DisassemblerSpec dis) {insns : List DecodedInsn}
    (hdec : decode dis bytes bytes.length 0 = .ok insns) (hne : ds ≠ []) (hno : ¬RunsOff dis bytes)
    (hr : (bpfFlow dis bytes).Reaches 0 k) : (bpfFlow dis bytes).exit k ≠ .fell := by
  rcases Relation.ReflTransGen.cases_tail hr with rfl | ⟨k₀, hr₀, hedge⟩
  · cases hchain with
    | nil _ => exact absurd rfl hne
    | cons hx _ _ _ _ _ => exact exit_not_fell hx
  obtain ⟨n, rest, rfl, hrest, hsuff⟩ := chain_reaches hchain hinv hr₀
  have hne₀ := Flow.edge_ne_fell hedge
  obtain ⟨o, ho⟩ := hedge
  cases hrest with
  | nil hx => exact absurd (exit_fell.mpr (Or.inr hx)) hne₀
  | @cons _ x d rest hx hunit hunits hpos hfill hrest =>
    rcases leads_cases hx ho with ⟨rfl, hret, huncond⟩ | ⟨hk, hbr⟩
    · intro hfell
      have hnone := (exit_fell.mp hfell).resolve_left (by omega)
      rw [Int.toNat_natCast] at hnone
      have hend := decode_covers (u := 0) hdis hchain hdec d (hsuff.mem List.mem_cons_self)
      rw [hunit, hunits] at hend
      obtain ⟨hsize, hle⟩ := hdis.size _ _ hx
      rw [unitBytes, List.length_drop] at hle
      have hlen := hend hnone
      exact hno ⟨n, x, hr₀, hx, by omega, hret, huncond⟩
    · rw [hk]
      exact target_not_fell hchain hinv hunit hunits hfill hbr

/-! ## The lifted function -/

omit hinv in
theorem place_ne_none (hflat : flat MF.BBs = ds.map (·.inst)) {b : Nat} {blk : MCBasicBlock}
    (hb : (checkEntryBlock (removeEmptyBlocks MF.BBs))[b + 1]? = some blk) :
    ∀ I ∈ blk.instrs, I.place ≠ none := by
  intro I hI
  have hblk : blk ∈ MF.BBs := (List.mem_filter.mp (List.mem_of_getElem? hb)).1
  have hmem : I ∈ flat MF.BBs := List.mem_flatMap.mpr ⟨blk, hblk, hI⟩
  rw [hflat] at hmem
  obtain ⟨d, hd, rfl⟩ := List.mem_map.mp hmem
  obtain ⟨_, _, ⟨_, hpl, _⟩, _⟩ := hchain.exists_mem d hd
  rw [hpl]
  exact nofun

theorem last_block {b : Nat} (h : restAt (checkEntryBlock (removeEmptyBlocks MF.BBs)) (b + 1) = []) :
    (checkEntryBlock (removeEmptyBlocks MF.BBs)).length ≤ b + 1 := by
  by_contra hlt
  have hb := List.getElem?_eq_getElem (Nat.lt_of_not_le hlt)
  have hs := bytes_shaped hchain hinv
  rw [restAt_eq hb, ahead, List.drop_zero] at h
  have hplaced := placed_of_forall (place_ne_none hchain hinv.flat hb)
  rw [hplaced] at h
  exact hs.nonempty _ (List.mem_of_getElem? hb) (List.append_eq_nil_iff.mp h).1

/-- **Inside.** Where the machine cannot run past its end, the lifted function is exact. -/
theorem exact_of_inside (hw : Wired (checkEntryBlock (removeEmptyBlocks MF.BBs)) F)
    (hin : ∀ k, (bpfFlow dis bytes).Reaches 0 k → (bpfFlow dis bytes).exit k ≠ .fell) :
    Exact (bpfFlow dis bytes) F := by
  obtain ⟨R, hsim, hstart⟩ : ∃ R : Int → Pos → Prop,
      Flow.Sim (bpfFlow dis bytes) (F.flow unitObs) R ∧ R 0 .init :=
    ⟨_, wired_sim (bytes_shaped hchain hinv) hw (bytes_follows hchain hinv),
      Or.inr ⟨_, ⟨0, ds, rfl, hchain, rfl⟩, stands_init hchain hinv⟩⟩
  -- where the lifted function has an event or stops, it is at the position of the machine
  have hat : ∀ p, (F.flow unitObs).Reaches .init p →
      (F.flow unitObs).event p ≠ none ∨ (F.flow unitObs).exit p = .stop →
      ∃ (u : Nat) (x : Disassembled), (bpfFlow dis bytes).Reaches 0 u ∧
        (F.flow unitObs).event p = some (u, x.opcode) ∧
        Flow.Exit.Rel R ((bpfFlow dis bytes).exit u) ((F.flow unitObs).exit p) := by
    intro p hp hkind
    obtain ⟨k₁, n, l, hr, hsil, hev, hexit⟩ := hsim.covers hstart hin hp
    obtain ⟨u, x, rfl, _, hevu⟩ := event_of_not_fell (hin k₁ hr)
    cases hsil with
    | refl => exact ⟨u, x, hr, hev.trans hevu, hexit⟩
    | step hnone hgoto _ =>
      rcases hkind with hne | hstop
      · exact absurd hnone hne
      · rw [hgoto] at hstop
        cases hstop
  refine ⟨fun p u op hp hev o u' op' hnext => ?_, fun p hp hstop => ?_⟩
  · obtain ⟨u₁, x₁, hr, hev₁, hexit⟩ := hat p hp (Or.inl (by rw [hev]; exact nofun))
    rw [hev] at hev₁
    cases hev₁
    obtain ⟨q₁, m, q, hto, hsil, hevq⟩ := hnext
    obtain ⟨k₂, hto₂, hrel⟩ := hexit.to hto
    have hin₂ := hin k₂ (hr.tail ⟨o, hto₂⟩)
    -- both silent ways from `q₁` come to the next event
    obtain ⟨n, l, hsil₂, hevl, _⟩ := hsim k₂ q₁ hrel hin₂
    obtain ⟨u₂, x₂, rfl, _, hev₂⟩ := event_of_not_fell hin₂
    rw [hev₂] at hevl
    obtain rfl := hsil.unique hsil₂ (by rw [hevq]; exact nofun) (by rw [hevl]; exact nofun)
    rw [hevl] at hevq
    cases hevq
    exact hto₂
  · obtain ⟨u, x, _, hev, hexit⟩ := hat p hp (Or.inr hstop)
    rw [hstop] at hexit
    generalize hM : (bpfFlow dis bytes).exit u = e at hexit
    cases hexit
    exact ⟨u, _, hev, hM⟩

/-- **Running off.** Where the machine may run past its end, the lifted function returns behind the
last instruction, or goes from it to the target of the branch that has not been taken. -/
theorem not_exact_of_runsOff (hdis : DisassemblerSpec dis)
    (hw : Wired (checkEntryBlock (removeEmptyBlocks MF.BBs)) F) (hoff : RunsOff dis bytes) :
    ¬Exact (bpfFlow dis bytes) F := by
  intro hexact
  have hs := bytes_shaped hchain hinv
  have hfollows := bytes_follows hchain hinv
  have hsim := wired_sim hs hw hfollows
  obtain ⟨u, x, hr, hx, hlen, hret, huncond⟩ := hoff
  obtain ⟨p, hp, hrel⟩ := hsim.reaches
    (Or.inr ⟨_, ⟨0, ds, rfl, hchain, rfl⟩, stands_init hchain hinv⟩) hr
  obtain ⟨is, ⟨n, rest, hn, hrest, rfl⟩, hst⟩ := hrel.resolve_left (exit_not_fell hx)
  obtain rfl : u = n := by omega
  -- nothing is behind the last instruction
  have hrest' := hrest
  obtain ⟨d, hunit, hunits, hfill, rfl⟩ : ∃ d : DecodedInsn, d.unit = u ∧ d.units = x.size / 8 ∧
      Filled (ds.map (·.unit)) leaders (unitBytes bytes u) x d ∧ rest = [d] := by
    have hsize := (hdis.size _ _ hx).1
    have hend : dis (unitBytes bytes (u + x.size / 8)) = none := dis_end hdis (by omega)
    cases hrest with
    | nil hnone =>
      rw [hx] at hnone
      cases hnone
    | @cons _ x' d rest hx' hunit hunits _ hfill hrest =>
      rw [hx] at hx'
      cases hx'
      refine ⟨d, hunit, hunits, hfill, ?_⟩
      cases hrest with
      | nil _ => rfl
      | cons hy _ _ _ _ _ =>
        rw [hunits, hend] at hy
        cases hy
  obtain ⟨m, b, i, blk, hsil, hhere, hI, hpl, ha⟩ := reach_of_stands unitObs hs hw hst
  obtain ⟨B, y, hB, hy, hyinst, hreg, hinst⟩ := hw.here hhere.block hI
  have hop : y.inst.opcode = x.opcode := by rw [hyinst, hfill.1.1]
  have hreach := hp.trans hsil.reaches
  obtain ⟨hi, hget⟩ := List.getElem?_eq_some_iff.mp hI
  obtain ⟨hdrop, hrest⟩ : blk.instrs.drop (i + 1) = [] ∧
      restAt (checkEntryBlock (removeEmptyBlocks MF.BBs)) (b + 1 + 1) = [] := by
    rw [ahead, List.drop_eq_getElem_cons hi, hget, placed_cons_some hpl] at ha
    obtain ⟨hdrop, hrest⟩ := List.append_eq_nil_iff.mp (List.tail_eq_of_cons_eq ha)
    refine ⟨?_, hrest⟩
    rwa [placed_of_forall fun I hI => place_ne_none hchain hinv.flat hhere.block I (List.mem_of_mem_drop hI)]
      at hdrop
  have hlast := last_block hchain hinv hrest
  have hexit := hw.inst b B hB y hy
  have hflow : (F.flow unitObs).exit _ = _ := flow_exit hreg
  generalize exits y.code = ts at hexit hflow
  cases hexit with
  | ret v h =>
    rw [hop, hret] at h
    cases h
  | jump h =>
    rw [hop, huncond] at h
    cases h
  | straight ht =>
    -- the code behind the block returns
    have hnext := here_next hs hhere.block hI (hyinst ▸ ht)
    have hlen : i + 1 = blk.instrs.length :=
      Nat.le_antisymm hi (List.drop_eq_nil_iff.mp hdrop)
    obtain ⟨r, hr⟩ := Option.isSome_iff_exists.mp
      ((hw.isSome_tail (b + 1) blk B hhere.block hB).mpr (hnext.falls hlen))
    obtain ⟨hreg', hinst'⟩ := flow_tail hB hr
    have hbody : B.body.length = i + 1 := by
      rw [hlen, ← hw.insts (b + 1) blk B hhere.block hB, List.length_map]
    rw [hbody] at hreg' hinst'
    have hstop : (F.flow unitObs).exit (.block (b + 1) (i + 1)) = .stop := by
      have htail := hw.tail b B r hB hr
      rw [flow_exit hreg']
      generalize exits r = ts at htail
      cases htail with
      | next hlt => omega
      | last v _ => rfl
    have hedge : (F.flow unitObs).Edge (.block (b + 1) i) (.block (b + 1) (i + 1)) := by
      refine ⟨none, ?_⟩
      rw [hflow]
      exact .goto
    obtain ⟨_, _, hev, _⟩ := hexact.ret _ (hreach.tail hedge) hstop
    rw [flow_event_none (Or.inl hinst')] at hev
    cases hev
  | cond c hc hl hf =>
    -- both outcomes lead to the target
    rw [if_neg (by omega)] at hflow
    rw [hyinst] at hc hl
    obtain ⟨k', k'', hcond, hat', hat''⟩ := hfollows.cond u d.inst [] _ _ ⟨u, [d], rfl, hrest', rfl⟩ hc hl hf
    have hk' : k' = (u + x.size / 8 : Nat) + branchOffset (unitBytes bytes u) x.opcode := by
      rw [exit_cond hx (hfill.1.1 ▸ hc)] at hcond
      cases hcond
      rfl
    have hne := target_not_fell hchain hinv hunit hunits hfill
      (by rw [Opcode.isBranch_eq, ← hfill.1.1, hc, Bool.true_or])
    rw [← hk'] at hne
    obtain ⟨m', q, hsil', hevq, _⟩ := hsim k' _ (Or.inr ⟨_, hat', stands_of_find hs hf⟩) hne
    obtain ⟨u', x', rfl, _, hev'⟩ := event_of_not_fell hne
    have hev : (F.flow unitObs).event (.block (b + 1) i) = some (u, x.opcode) := by
      simp [LFunction.flow, hinst, unitObs, hfill.1.1, hfill.1.2.1, hunit]
    have hedge := hexact.edge _ u _ hreach hev (some false) u' x'.opcode
      ⟨_, m', q, by rw [hflow]; exact .notTaken, hsil', hevq.trans hev'⟩
    rw [hcond] at hedge
    cases hedge
    exact hne (hfollows.fell _ hat'')

end blocks

/-- The lifted function is exact if and only if the program cannot run past its end. -/
theorem exact_iff {env : Env} {F : LFunction} (hdis : DisassemblerSpec dis)
    (hF : runBytes env dis bytes = .ok F) : Exact (bpfFlow dis bytes) F ↔ ¬RunsOff dis bytes := by
  obtain ⟨insns, leaders, ds, MF, hinsns, _, hchain, hinv, hw⟩ := runBytes_wired hdis hF
  refine ⟨fun hexact hoff => not_exact_of_runsOff hchain hinv hdis hw hoff hexact, fun hno => ?_⟩
  obtain ⟨decoded, hdec⟩ : ∃ decoded, decode dis bytes bytes.length 0 = .ok decoded := by
    unfold decodeProgram at hinsns
    cases hd : decode dis bytes bytes.length 0 with
    | ok decoded => exact ⟨decoded, rfl⟩
    | error e =>
      rw [hd] at hinsns
      cases hinsns
  have hne : ds ≠ [] := by
    rintro rfl
    obtain ⟨hext, hne⟩ := decodeProgram_chain hdis hinsns
    cases hchain with
    | nil hnone =>
      cases hext with
      | nil _ => exact hne rfl
      | cons hx _ _ _ _ _ =>
        rw [hnone] at hx
        cases hx
  exact exact_of_inside hchain hinv hw fun k hr => reaches_not_fell hchain hinv hdis hdec hne hno hr

/-- **Running off the end.** A program that is lifted is rejected where it may run past its end, and has
only the edges and the returns of the machine, if and only if it cannot run past its end. -/
theorem run_off_end (env : Env) (dis : Disassembler) (bytes : List (BitVec 8)) (hdis : DisassemblerSpec dis)
    (F : LFunction) (hF : runBytes env dis bytes = .ok F) :
    ((RunsOff dis bytes → ∃ e, runBytes env dis bytes = .error e) ∧ Exact (bpfFlow dis bytes) F) ↔
      ¬RunsOff dis bytes :=
  ⟨fun h => (exact_iff hdis hF).mp h.2,
    fun h => ⟨fun hoff => absurd hoff h, (exact_iff hdis hF).mpr h⟩⟩

theorem loopBytes_reaches {k : Int} (h : (bpfFlow loopDisassembler loopBytes).Reaches 0 k) :
    k = 0 ∨ k = 2 ∨ k = 3 := by
  have hgoto : (bpfFlow loopDisassembler loopBytes).exit 0 = .goto 2 := by decide +kernel
  have hcond : (bpfFlow loopDisassembler loopBytes).exit 2 = .cond 0 3 := by decide +kernel
  have hstop : (bpfFlow loopDisassembler loopBytes).exit 3 = .stop := by decide +kernel
  induction h with
  | refl => exact Or.inl rfl
  | tail _ hedge ih =>
    obtain ⟨o, hedge⟩ := hedge
    rcases ih with rfl | rfl | rfl
    · rw [hgoto] at hedge
      cases hedge
      exact Or.inr (Or.inl rfl)
    · rw [hcond] at hedge
      cases hedge with
      | taken => exact Or.inl rfl
      | notTaken => exact Or.inr (Or.inr rfl)
    · rw [hstop] at hedge
      cases hedge

theorem loopBytes_not_runsOff : ¬RunsOff loopDisassembler loopBytes := by
  rintro ⟨u, x, hr, hx, hlen, hret, _⟩
  have hbranch : loopDisassembler (unitBytes loopBytes 2) =
      some ⟨.JNE_ri, [.reg (.R 1), .imm 0, .imm 65533], 8⟩ := by decide +kernel
  have hexit : loopDisassembler (unitBytes loopBytes 3) = some ⟨.RET, [], 8⟩ := by decide +kernel
  have hsize := (loopDisassembler_spec.size _ _ hx).1
  rw [show loopBytes.length = 32 from rfl] at hlen
  rcases loopBytes_reaches hr with hu | hu | hu
  · omega
  · obtain rfl : u = 2 := by omega
    rw [hbranch] at hx
    cases hx
    cases hlen
  · obtain rfl : u = 3 := by omega
    rw [hexit] at hx
    cases hx
    cases hret

theorem run_off_end_exit : ∃ F : LFunction, Exact (bpfFlow loopDisassembler loopBytes) F := by
  have hF : (runBytes { module := ⟨"loop", ⟨.void, []⟩, [], [], []⟩ } loopDisassembler
      loopBytes).toOption.isSome = true := by decide +kernel
  obtain ⟨F, hF⟩ := ok_of_isSome hF
  exact ⟨F, ((run_off_end _ _ _ loopDisassembler_spec F hF).mpr loopBytes_not_runsOff).2⟩

/-- The loop without its exit: both edges of the branch go back. -/
def branchBytes : List (BitVec 8) := loopBytes.take 24

/-- The first instruction of the loop. -/
def constBytes : List (BitVec 8) := loopBytes.take 16

/-- Both run off their end, and both are lifted. -/
theorem run_off_end_fails :
    (RunsOff loopDisassembler constBytes ∧
      ∃ F, runBytes { module := ⟨"loop", ⟨.void, []⟩, [], [], []⟩ } loopDisassembler constBytes = .ok F) ∧
    RunsOff loopDisassembler branchBytes ∧
      ∃ F, runBytes { module := ⟨"loop", ⟨.void, []⟩, [], [], []⟩ } loopDisassembler branchBytes = .ok F := by
  have hconst : RunsOff loopDisassembler constBytes :=
    ⟨0, ⟨.LD_imm64, [.reg (.R 1), .imm 0], 16⟩, .refl, by decide +kernel, by decide +kernel, rfl, rfl⟩
  have hbranch : RunsOff loopDisassembler branchBytes := by
    have hgoto : (bpfFlow loopDisassembler branchBytes).exit 0 = .goto 2 := by decide +kernel
    refine ⟨2, ⟨.JNE_ri, [.reg (.R 1), .imm 0, .imm 65533], 8⟩, .single ⟨none, ?_⟩,
      by decide +kernel, by decide +kernel, rfl, rfl⟩
    rw [hgoto]
    exact .goto
  exact ⟨⟨hconst, ok_of_isSome (by decide +kernel)⟩, hbranch, ok_of_isSome (by decide +kernel)⟩

end BpfTv
