import BpfTv.Driver.Collapse

/-!
# Runs of functions with collapsed round trips

A run of a function is matched by a run of the function in which a round trip has been collapsed: the
two integers are skipped, and the `gep` gets the value of the `inttoptr`, since the integers still have
what their operands give when the `inttoptr` is reached.
-/

namespace BpfTv.Ssa

open Control

variable {V W : Type} {F : Fn} {T : RoundTrip} {M : Semantics V W} {c c' d : SsaCfg V W} {i : Instr}
  {b : Block} {v : Val} {a w next : Nat} {world : W}

/-! ## One address -/

theorem eval_ptrtoint {xs : List (Datum V)} {n : Datum V}
    (h : evalAddress .ptrtoint (.int w) xs = some n) : ∃ p, xs = [.ptr p] := by
  unfold evalAddress at h
  split at h <;> simp_all

theorem eval_add {m s : Datum V} {n : BitVec w} (h : evalAddress (.binop .add) (.int w) [.int w n, m] = some s ∨
    evalAddress (.binop .add) (.int w) [m, .int w n] = some s) : ∃ x, m = .int w x := by
  cases m with
  | int w' x =>
    by_cases hw : w' = w
    · subst hw
      exact ⟨x, rfl⟩
    · simp [evalAddress, hw] at h
  | ptr p => simp [evalAddress] at h
  | other o => simp [evalAddress] at h
  | undef => simp [evalAddress] at h

namespace RoundTrip

/-- Where the `inttoptr` is reached, the `gep` computes what it computes. -/
theorem Setup.gep_eval (S : T.Setup F next) (hw : T.Shares w) (hle : 64 ≤ w) (hc : F.Reaches M world c)
    (hnode : c.node = .body T.intToPtr.id) {x : Datum V}
    (h : evalAddress T.intToPtr.op T.intToPtr.ty (T.intToPtr.ops.map (·.eval M c.env)) = some x) :
    evalAddress (T.gep next).op (T.gep next).ty ((T.gep next).ops.map (·.eval M c.env)) = some x := by
  have hf := S.found
  have hdom := S.ssa.dom_operand hf.intToPtr_mem hf.op_inst_mem hf.op_inst_use
  have hdom' := S.ssa.dom_operand hf.op_inst_mem hf.ptrToInt_mem hf.ptrToInt_use
  -- both integers still have their values
  have hadd : T.op_inst.Computed M c.env :=
    computed_of_dom S.ssa hf.op_inst_mem (by rw [hf.op_inst_op, hw.op_inst]; rfl) hc (hnode ▸ hdom)
  have hptr : T.ptrToInt.Computed M c.env :=
    computed_of_dom S.ssa hf.ptrToInt_mem (by rw [hf.ptrToInt_op, hw.ptrToInt]; rfl) hc
      (hnode ▸ hdom'.trans hdom)
  unfold Instr.Computed at hadd hptr
  rw [hf.ptrToInt_ops, List.map_singleton] at hptr
  rw [hf.intToPtr_ops, List.map_singleton] at h
  have hptr' := hptr
  rw [hf.ptrToInt_op, hw.ptrToInt] at hptr'
  obtain ⟨p, hp⟩ := eval_ptrtoint hptr'
  obtain hp : T.ptr.eval M c.env = .ptr p := List.singleton_inj.mp hp
  rw [hp] at hptr' hptr
  obtain hn : Datum.int w (p.setWidth w) = c.env T.ptrToInt.id := Option.some.inj hptr'
  have hops : T.op_inst.ops.map (·.eval M c.env) =
      if T.ptrOnLeft then [c.env T.ptrToInt.id, T.int.eval M c.env]
      else [T.int.eval M c.env, c.env T.ptrToInt.id] := by
    rw [hf.op_inst_ops]
    split <;> rfl
  rw [hops] at hadd
  have hint : ∃ y, T.int.eval M c.env = .int w y := by
    have hadd' := hadd
    rw [hf.op_inst_op, hw.op_inst, ← hn] at hadd'
    refine eval_add (n := p.setWidth w) (s := c.env T.op_inst.id) ?_
    split at hadd'
    · exact Or.inl hadd'
    · exact Or.inr hadd'
  obtain ⟨y, hy⟩ := hint
  rw [hy] at hadd
  have haddress : (T.address p y : Option (Datum V)) = some x := by
    simp only [address, hptr, Option.bind_eq_bind, Option.bind_some, hadd]
    exact h
  rw [(hf.address_iff hw).mpr hle p y] at haddress
  show evalAddress _ _ [T.ptr.eval M c.env, T.int.eval M c.env] = _
  rw [hp, hy]
  exact haddress

/-! ## One step -/

/-- The configuration of the new function that stands for one of the old function. -/
structure Matches (T : RoundTrip) (next : Nat) (c c' : SsaCfg V W) : Prop where
  blk : c'.blk = c.blk
  pred : c'.pred = c.pred
  world : c'.world = c.world
  rest : c'.rest = c.rest.map (T.remaining next)
  env : ∀ a, a ∉ T.erased → a ≠ next → c'.env a = c.env a
  gep : c'.env next = c.env T.intToPtr.id

theorem Matches.eval (h : T.Matches next c c') (hv : T.Stays next v) :
    (Val.subst T.intToPtr.id (.inst next) v).eval M c'.env = v.eval M c.env := by
  by_cases hitp : v = .inst T.intToPtr.id
  · rw [hitp, Val.subst_self]
    exact h.gep
  · rw [Val.subst_ne hitp]
    refine eval_congr fun a ha => ?_
    subst ha
    refine h.env a ?_ fun heq => hv.2.2 (congrArg _ heq)
    simp only [erased, List.mem_cons, List.not_mem_nil, or_false, not_or]
    exact ⟨fun heq => hitp (congrArg _ heq), fun heq => hv.1 (congrArg _ heq),
      fun heq => hv.2.1 (congrArg _ heq)⟩

theorem Matches.map_eval (h : T.Matches next c c') {vs : List Val} (hvs : ∀ v ∈ vs, T.Stays next v) :
    (vs.map (T.edits next T.erased).subst).map (·.eval M c'.env) = vs.map (·.eval M c.env) := by
  rw [List.map_map]
  exact List.map_congr_left fun v hv => h.eval (hvs v hv)

theorem result_block {k : Nat} (hb : F.blocks[k]? = some b) :
    (T.result F next).blocks[k]? = some (b.edit (T.edits next T.erased)) := by
  rw [result, edit_blocks rfl, List.getElem?_map, hb]
  rfl

section setup

variable (S : T.Setup F next)
include S

theorem Setup.enter (hb : b ∈ F.blocks) (h : T.Matches next c c') :
    (∀ a, a ∉ T.erased → a ≠ next →
      (b.edit (T.edits next T.erased)).enter M c'.pred c'.env a = b.enter M c.pred c.env a) ∧
    (b.edit (T.edits next T.erased)).enter M c'.pred c'.env next =
      b.enter M c.pred c.env T.intToPtr.id := by
  have hfind : ∀ a, (b.edit (T.edits next T.erased)).phis.find? (·.id = a) =
      (b.phis.find? (·.id = a)).map (·.map (T.edits next T.erased).subst) := fun a => List.find?_map ..
  have hnone : ∀ a, a ∉ b.phis.map (·.id) → b.phis.find? (·.id = a) = none := by
    intro a ha
    refine List.find?_eq_none.mpr fun p hp hid => ha ?_
    have hid' : p.id = a := by simpa using hid
    exact hid' ▸ List.mem_map_of_mem hp
  constructor
  · intro a ha hnext
    unfold Block.enter
    rw [hfind, h.pred]
    cases hp : b.phis.find? (·.id = a) with
    | none => exact h.env a ha hnext
    | some p =>
      have hmem := List.mem_of_find?_eq_some hp
      show (((p.incoming.map fun e => (e.1, (T.edits next T.erased).subst e.2)).lookup c.pred).map _).getD _ =
        ((p.incoming.lookup c.pred).map _).getD _
      rw [Fn.lookup_map]
      cases hl : p.incoming.lookup c.pred with
      | none => rfl
      | some v =>
        have hv : v ∈ p.incoming.map (·.2) := List.mem_map_of_mem (Fn.mem_of_lookup hl)
        exact h.eval (S.stays (.phi hb hmem hv) nofun nofun)
  · have hitp : T.intToPtr.id ∉ b.phis.map (·.id) := fun hin =>
      S.phi_ne hb hin S.found.intToPtr_mem rfl
    have hnext : next ∉ b.phis.map (·.id) := fun hin =>
      S.ne_next (List.mem_flatMap.mpr ⟨b, hb, List.mem_append_left _ hin⟩) rfl
    unfold Block.enter
    rw [hfind, hnone _ hnext, hnone _ hitp]
    exact h.gep

theorem Setup.match_skip {rest : List Instr} {x : Datum V} (hi : i.id = T.op_inst.id ∨ i.id = T.ptrToInt.id)
    (hrest : c.rest = some (i :: rest)) (h : T.Matches next c c') :
    T.Matches next { c with rest := some rest, env := Function.update c.env i.id x } c' where
  blk := h.blk
  pred := h.pred
  world := h.world
  rest := by
    obtain ⟨hadd, hptr, _⟩ := S.ids_ne
    have hnew : (T.edits next T.erased).new i = [] := by
      rcases hi with hi | hi <;> simp [edits, erased, hi, hadd, hptr]
    rw [h.rest, hrest]
    show some (T.remaining next (i :: rest)) = some (T.remaining next rest)
    rw [remaining, List.flatMap_cons, hnew]
    rfl
  env a ha hne := by
    have hai : a ≠ i.id := by
      rintro rfl
      rcases hi with hi | hi <;> simp [erased, hi] at ha
    rw [h.env a ha hne]
    exact (Function.update_of_ne hai ..).symm
  gep := by
    obtain ⟨hadd, hptr, _⟩ := S.ids_ne
    have hne : T.intToPtr.id ≠ i.id := by
      rcases hi with hi | hi
      · rw [hi]
        exact hadd.symm
      · rw [hi]
        exact hptr.symm
    rw [h.gep]
    exact (Function.update_of_ne hne ..).symm

theorem Setup.match_same {rest : List Instr} {x : Datum V} {world' : W} (hi : i ∈ F.instrs)
    (hgone : i.id ∉ T.erased) (hrest : c.rest = some (i :: rest)) (h : T.Matches next c c')
    (hrun : M.run i.op i.ty (i.ops.map (·.eval M c.env)) c.world = some (x, world')) :
    ∃ d', (T.result F next).step M c' = some d' ∧ T.Matches next
      { c with rest := some rest, env := Function.update c.env i.id x, world := world' } d' := by
  have hne : i.id ≠ T.intToPtr.id ∧ i.id ≠ T.op_inst.id ∧ i.id ≠ T.ptrToInt.id := by
    simpa [erased] using hgone
  have hnew : (T.edits next T.erased).new i = [i] := by
    simp [edits, erased, hne]
  have hrest' : c'.rest = some (i.map (T.edits next T.erased).subst :: T.remaining next rest) := by
    rw [h.rest, hrest]
    show some (T.remaining next (i :: rest)) = _
    rw [remaining, List.flatMap_cons, hnew]
    rfl
  have hops : (i.ops.map (T.edits next T.erased).subst).map (·.eval M c'.env) = i.ops.map (·.eval M c.env) :=
    h.map_eval fun v hv => S.stays (.instr hi hv) (fun heq => hne.1 (User.instr.inj heq ▸ rfl))
      fun heq => hne.2.1 (User.instr.inj heq ▸ rfl)
  refine ⟨{ c' with rest := some (T.remaining next rest), env := Function.update c'.env i.id x, world := world' },
    ?_, h.blk, h.pred, rfl, rfl, fun a ha hnext => ?_, ?_⟩
  · unfold Fn.step
    rw [hrest']
    show (M.run i.op i.ty ((i.ops.map _).map _) c'.world).bind _ = _
    rw [hops, h.world, hrun]
    rfl
  · show Function.update c'.env i.id x a = Function.update c.env i.id x a
    by_cases hai : a = i.id
    · rw [hai, Function.update_self, Function.update_self]
    · rw [Function.update_of_ne hai, Function.update_of_ne hai]
      exact h.env a ha hnext
  · show Function.update c'.env i.id x next = Function.update c.env i.id x T.intToPtr.id
    rw [Function.update_of_ne (S.ne_next (mem_ids hi)).symm, Function.update_of_ne hne.1.symm]
    exact h.gep

theorem Setup.match_gep {rest : List Instr} {x : Datum V} {world' : W} (hw : T.Shares w) (hle : 64 ≤ w)
    (hc : F.Reaches M world c) (hrest : c.rest = some (T.intToPtr :: rest)) (h : T.Matches next c c')
    (hrun : M.run T.intToPtr.op T.intToPtr.ty (T.intToPtr.ops.map (·.eval M c.env)) c.world =
      some (x, world')) :
    ∃ d', (T.result F next).step M c' = some d' ∧ T.Matches next
      { c with rest := some rest, env := Function.update c.env T.intToPtr.id x, world := world' } d' := by
  have hnew : (T.edits next T.erased).new T.intToPtr = [T.gep next] := by
    simp [edits, erased]
  have hrest' : c'.rest =
      some ((T.gep next).map (T.edits next T.erased).subst :: T.remaining next rest) := by
    rw [h.rest, hrest]
    show some (T.remaining next (T.intToPtr :: rest)) = _
    rw [remaining, List.flatMap_cons, hnew]
    rfl
  have haddr : T.intToPtr.op.isAddress T.intToPtr.ty = true := by
    rw [S.found.intToPtr_op, hw.intToPtr]
    rfl
  rw [Semantics.run, if_pos haddr, Option.map_eq_some_iff] at hrun
  obtain ⟨x', hx, hxw⟩ := hrun
  cases hxw
  have haddr' : (T.gep next).op.isAddress (T.gep next).ty = true := rfl
  have hgep := S.gep_eval hw hle hc (by rw [SsaCfg.node, hrest]) hx
  refine ⟨{ c' with rest := some (T.remaining next rest), env := Function.update c'.env next x },
    ?_, h.blk, h.pred, h.world, rfl, fun a ha hnext => ?_, ?_⟩
  · unfold Fn.step
    rw [hrest']
    show (M.run (T.gep next).op (T.gep next).ty (((T.gep next).ops.map _).map _) c'.world).bind _ = _
    rw [h.map_eval fun v hv => S.stays_gep hv, Semantics.run, if_pos haddr', hgep]
    rfl
  · have hitp : a ≠ T.intToPtr.id := by
      rintro rfl
      exact ha (List.mem_cons_self ..)
    show Function.update c'.env next x a = Function.update c.env T.intToPtr.id x a
    rw [Function.update_of_ne hnext, Function.update_of_ne hitp]
    exact h.env a ha hnext
  · show Function.update c'.env next x next = Function.update c.env T.intToPtr.id x T.intToPtr.id
    rw [Function.update_self, Function.update_self]

/-- A step is matched by at most one step. -/
theorem Setup.match_step (hw : T.Shares w) (hle : 64 ≤ w) (hc : F.Reaches M world c)
    (hs : F.step M c = some d) (h : T.Matches next c c') :
    ∃ d', Relation.ReflGen (fun c c' => (T.result F next).step M c = some c') c' d' ∧
      T.Matches next d d' := by
  have hfits := fits_reaches hc
  rcases step_cases hs with ⟨hrest, b, hb, rfl⟩ | ⟨i, rest, x, world', hrest, hrun, rfl⟩ |
    ⟨b, n, world', s, hrest, hb, hjump, hsucc, rfl⟩
  · have hb' : (T.result F next).blocks[c.blk]? = some (b.edit (T.edits next T.erased)) := result_block hb
    obtain ⟨henv, hgep⟩ := S.enter (M := M) (List.mem_of_getElem? hb) h
    refine ⟨{ c' with rest := some (T.remaining next b.body),
                      env := (b.edit (T.edits next T.erased)).enter M c'.pred c'.env },
      .single ?_, h.blk, h.pred, h.world, rfl, henv, hgep⟩
    unfold Fn.step
    rw [h.rest, hrest, h.blk]
    show ((T.result F next).blocks[c.blk]?).bind _ = _
    rw [hb']
    rfl
  · have hi := hfits.mem hrest (List.mem_cons_self ..)
    by_cases hgone : i.id ∈ T.erased
    · simp only [erased, List.mem_cons, List.not_mem_nil, or_false] at hgone
      rcases hgone with hid | hid
      · obtain rfl : i = T.intToPtr := S.ssa.inj hi S.found.intToPtr_mem hid
        obtain ⟨d', hd', hm⟩ := S.match_gep hw hle hc hrest h hrun
        exact ⟨d', .single hd', hm⟩
      · have haddr : i.op.isAddress i.ty = true := by
          rcases hid with hid | hid
          · rw [S.ssa.inj hi S.found.op_inst_mem hid, S.found.op_inst_op, hw.op_inst]
            rfl
          · rw [S.ssa.inj hi S.found.ptrToInt_mem hid, S.found.ptrToInt_op, hw.ptrToInt]
            rfl
        rw [Semantics.run, if_pos haddr, Option.map_eq_some_iff] at hrun
        obtain ⟨x', _, hxw⟩ := hrun
        cases hxw
        exact ⟨c', .refl, S.match_skip hid hrest h⟩
    · obtain ⟨d', hd', hm⟩ := S.match_same hi hgone hrest h hrun
      exact ⟨d', .single hd', hm⟩
  · have hb' : (T.result F next).blocks[c.blk]? = some (b.edit (T.edits next T.erased)) := result_block hb
    have hops : (b.term.ops.map (T.edits next T.erased).subst).map (·.eval M c'.env) =
        b.term.ops.map (·.eval M c.env) :=
      h.map_eval fun v hv => S.stays (.term (List.mem_of_getElem? hb) hv) (fun heq => User.noConfusion heq)
        fun heq => User.noConfusion heq
    refine ⟨{ c' with blk := s, pred := c'.blk, rest := none, world := world' }, .single ?_, rfl, h.blk, rfl,
      rfl, h.env, h.gep⟩
    unfold Fn.step
    rw [h.rest, hrest]
    show ((T.result F next).blocks[c'.blk]?).bind _ = _
    rw [h.blk, hb']
    show (M.jump b.term.op ((b.term.ops.map _).map _) c'.world).bind _ = _
    rw [hops, h.world, hjump]
    show (b.term.succs[n]?).bind _ = _
    rw [hsucc]
    rfl

/-- A run is matched by a run. -/
theorem Setup.match_run (hw : T.Shares w) (hle : 64 ≤ w) (hc : F.Reaches M world c) :
    ∃ c', (T.result F next).Reaches M world c' ∧ T.Matches next c c' := by
  induction hc with
  | refl => exact ⟨SsaCfg.start world, .refl, rfl, rfl, rfl, rfl, fun _ _ _ => rfl, rfl⟩
  | tail hc hs ih =>
    obtain ⟨c', hc', hm⟩ := ih
    obtain ⟨d', hd', hm'⟩ := S.match_step hw hle hc hs hm
    exact ⟨d', Relation.ReflTransGen.trans hc' hd'.to_reflTransGen, hm'⟩

end setup

end RoundTrip

/-! ## Runs with the same values -/

variable {K : List Nat} {id : Nat} {ids : List Nat}

theorem RoundTrip.Setup.agree (S : T.Setup F next) (h : T.Matches next c c')
    (hK : ∀ a ∈ K, a ∈ F.ids ∧ a ∉ T.erased) : c.Agree K c' := by
  refine ⟨h.blk, h.pred, h.world, ?_, fun a ha => h.env a (hK a ha).2 (S.ne_next (hK a ha).1)⟩
  have hfilter : ∀ xs : List Nat,
      ((xs.filter T.keeps).map (T.rename next)).filter (· ∈ K) = xs.filter (· ∈ K) := by
    have hnext : next ∉ K := fun h => S.ne_next (hK next h).1 rfl
    intro xs
    induction xs with
    | nil => rfl
    | cons x xs ih =>
      by_cases hgone : x ∈ T.erased
      · have hx : x ∉ K := fun h => (hK x h).2 hgone
        rw [List.filter_cons_of_neg (p := (· ∈ K)) (by simp [hx]), ← ih, List.filter_cons]
        split
        · rename_i hk
          have hitp : x = T.intToPtr.id := by
            simp only [RoundTrip.keeps, Bool.and_eq_true, decide_eq_true_eq] at hk
            simpa [RoundTrip.erased, hk] using hgone
          rw [List.map_cons, RoundTrip.rename, if_pos hitp, List.filter_cons_of_neg (by simp [hnext])]
        · rfl
      · have hne : x ≠ T.intToPtr.id ∧ x ≠ T.op_inst.id ∧ x ≠ T.ptrToInt.id := by
          simpa [RoundTrip.erased] using hgone
        have hk : T.keeps x = true := by simp [RoundTrip.keeps, hne]
        rw [List.filter_cons_of_pos hk, List.map_cons, RoundTrip.rename, if_neg hne.1, List.filter_cons,
          List.filter_cons, ih]
  rw [h.rest, Option.map_map]
  congr 1
  funext is
  show ((T.remaining next is).map (·.id)).filter _ = _
  rw [S.remaining_ids, hfilter]

/-! ## The sweep -/

/-- The values that the sweep does not erase. -/
def Fn.kept (F : Fn) (next : Nat) (ids : List Nat) : List Nat :=
  F.ids.filter fun a => (F.collapses next ids).all fun C => a ∉ C.trip.erased

theorem collapses_cons_some (h : F.roundTrip? id = some T) (S : T.Setup F next) :
    F.collapses next (id :: ids) = ⟨F, T, next⟩ :: (T.result F next).collapses (next + 1) ids ∧
      F.sweep next (id :: ids) = (T.result F next).sweep (next + 1) ids := by
  rw [Fn.collapses, Fn.sweep, h, ← S.collapse_eq]
  exact ⟨rfl, rfl⟩

theorem collapses_cons_none (h : F.roundTrip? id = none) :
    F.collapses next (id :: ids) = F.collapses next ids ∧
      F.sweep next (id :: ids) = F.sweep next ids := by
  rw [Fn.collapses, Fn.sweep, h]
  exact ⟨rfl, rfl⟩

/-- Every round trip of the sweep is found in a function in SSA form, and was there at the start. -/
theorem collapses_setup : ∀ (ids : List Nat) (F : Fn) (next : Nat), F.SsaForm → (∀ a ∈ F.ids, a < next) →
    ∀ C ∈ F.collapses next ids, C.trip.Setup C.fn C.next ∧ ∃ id T₀, F.roundTrip? id = some T₀ ∧
      ∀ w, C.trip.Shares w → T₀.Shares w := by
  intro ids
  induction ids with
  | nil => exact fun _ _ _ _ _ hC => nomatch hC
  | cons id ids ih =>
    intro F next hssa hlt C hC
    cases hT : F.roundTrip? id with
    | none =>
      rw [(collapses_cons_none hT).1] at hC
      exact ih F next hssa hlt C hC
    | some T =>
      have S : T.Setup F next := ⟨(roundTrip?_some hT).1, hssa, hlt⟩
      rw [(collapses_cons_some hT S).1] at hC
      rcases List.mem_cons.mp hC with rfl | hC
      · exact ⟨S, id, T, hT, fun _ hw => hw⟩
      · obtain ⟨hS, id', T', hT', hw'⟩ := ih _ _ S.ssaForm S.lt_succ C hC
        obtain ⟨T₀, hT₀, h₁, h₂, h₃⟩ := S.roundTrip?_result hT'
        exact ⟨hS, _, T₀, hT₀, fun w hw =>
          ⟨h₁.trans (hw' w hw).intToPtr, h₂.trans (hw' w hw).op_inst, h₃.trans (hw' w hw).ptrToInt⟩⟩

/-- Runs go the same way after the sweep when the integers are wide enough. -/
theorem sweep_simulates : ∀ (ids : List Nat) (F : Fn) (next : Nat), F.SsaForm → (∀ a ∈ F.ids, a < next) →
    (∀ id T, F.roundTrip? id = some T → ∃ w, T.Shares w ∧ 64 ≤ w) →
    F.Simulates (F.sweep next ids) (F.kept next ids) := by
  intro ids
  induction ids with
  | nil => exact fun F _ _ _ _ V W M world c hc => ⟨c, hc, .refl c⟩
  | cons id ids ih =>
    intro F next hssa hlt hwide V W M world c hc
    cases hT : F.roundTrip? id with
    | none =>
      rw [Fn.kept, (collapses_cons_none hT).1, (collapses_cons_none hT).2]
      exact ih F next hssa hlt hwide V W M world c hc
    | some T =>
      have S : T.Setup F next := ⟨(roundTrip?_some hT).1, hssa, hlt⟩
      obtain ⟨w, hw, hle⟩ := hwide id T hT
      have hwide' : ∀ id T', (T.result F next).roundTrip? id = some T' → ∃ w, T'.Shares w ∧ 64 ≤ w := by
        intro id' T' hT'
        obtain ⟨T₀, hT₀, h₁, h₂, h₃⟩ := S.roundTrip?_result hT'
        obtain ⟨w', hw', hle'⟩ := hwide _ T₀ hT₀
        exact ⟨w', ⟨h₁ ▸ hw'.intToPtr, h₂ ▸ hw'.op_inst, h₃ ▸ hw'.ptrToInt⟩, hle'⟩
      obtain ⟨c₁, hc₁, hm⟩ := S.match_run hw hle hc
      obtain ⟨c', hc', hagree⟩ := ih _ _ S.ssaForm S.lt_succ hwide' V W M world c₁ hc₁
      rw [Fn.kept, (collapses_cons_some hT S).1, (collapses_cons_some hT S).2]
      have hK : ∀ a ∈ F.ids.filter (fun a => (⟨F, T, next⟩ :: (T.result F next).collapses (next + 1) ids).all
          fun C => a ∉ C.trip.erased), (a ∈ F.ids ∧ a ∉ T.erased) ∧
            a ∈ (T.result F next).kept (next + 1) ids := by
        intro a ha
        rw [List.mem_filter, List.all_cons, Bool.and_eq_true, decide_eq_true_eq] at ha
        exact ⟨⟨ha.1, ha.2.1⟩, List.mem_filter.mpr ⟨S.mem_ids_iff.mpr (Or.inr ⟨ha.1, ha.2.1⟩), ha.2.2⟩⟩
      exact ⟨c', hc', (S.agree hm fun a ha => (hK a ha).1).trans (hagree.mono fun a ha => (hK a ha).2)⟩

/-! ## What the sweep preserves -/

/-- What a collapse of a round trip keeps. -/
structure RoundTrip.Preserves (T : RoundTrip) (F : Fn) (next : Nat) : Prop where
  address : ∀ w, T.Shares w → ∀ (V : Type) (p : BitVec 64) (x : BitVec w),
    (T.address p x : Option (Datum V)) = T.gepAddress p x
  unused : T.Unused F next

structure Fn.RoundTripsPreserved (F : Fn) : Prop where
  /-- `tryReplaceRoundTrip` on any instruction -/
  call : ∀ id T, F.roundTrip? id = some T → T.Preserves F F.fresh
  sweep : ∀ C ∈ F.collapses F.fresh (F.instrs.map (·.id)), C.trip.Preserves C.fn C.next
  values : F.Simulates F.tryReplacePtrtoInt (F.kept F.fresh (F.instrs.map (·.id)))

/-- A sweep keeps the addresses and the other values exactly when every round trip goes through integers
of at least 64 bits. -/
theorem round_trip_collapse (hssa : F.SsaForm)
    (hint : ∀ id T, F.roundTrip? id = some T → ∃ w, T.Shares w) :
    F.RoundTripsPreserved ↔ ∀ id T, F.roundTrip? id = some T → ∀ w, T.Shares w → 64 ≤ w := by
  have hlt : ∀ a ∈ F.ids, a < F.fresh := fun a ha => lt_fresh ha
  constructor
  · intro h id T hT w hw
    exact ((roundTrip?_some hT).1.address_iff hw).mp ((h.call id T hT).address w hw Unit)
  · intro hwide
    refine ⟨fun id T hT => ?_, fun C hC => ?_, ?_⟩
    · have S : T.Setup F F.fresh := ⟨(roundTrip?_some hT).1, hssa, hlt⟩
      exact ⟨fun w hw V => (S.found.address_iff hw).mpr (hwide id T hT w hw),
        S.found.unused S.erased_ne⟩
    · obtain ⟨S, id, T₀, hT₀, hshares⟩ := collapses_setup _ F F.fresh hssa hlt C hC
      exact ⟨fun w hw V => (S.found.address_iff hw).mpr (hwide id T₀ hT₀ w (hshares w hw)),
        S.found.unused S.erased_ne⟩
    · refine sweep_simulates _ F F.fresh hssa hlt fun id T hT => ?_
      obtain ⟨w, hw⟩ := hint id T hT
      exact ⟨w, hw, hwide id T hT w hw⟩

/-- `*(char *)(p + x)` through an integer of `w` bits. -/
def roundTripFn (w : Nat) : Fn where
  args := [.ptr, .int w]
  blocks := [{ body := [{ id := 0, ty := .int w, op := .ptrtoint, ops := [.arg 0] },
                        { id := 1, ty := .int w, op := .binop .add, ops := [.inst 0, .arg 1] },
                        { id := 2, ty := .ptr, op := .inttoptr, ops := [.inst 1] },
                        { id := 3, ty := .int 8, op := .load 1, ops := [.inst 2] }]
               term := { op := .ret, ops := [.inst 3], succs := [] } }]

theorem roundTripFn_ssa (w : Nat) : (roundTripFn w).SsaForm :=
  Fn.StraightLine.ssaForm ⟨rfl, rfl, rfl, by simp [straight, Val.definedIn], by simp [Val.definedIn]⟩

theorem roundTripFn_trip (w : Nat) (id : Nat) (T : RoundTrip) (h : (roundTripFn w).roundTrip? id = some T) :
    T.Shares w := by
  obtain ⟨hf, _⟩ := roundTrip?_some h
  have hmem : ∀ i ∈ (roundTripFn w).instrs, (i.op = .inttoptr → i.ty = .ptr) ∧
      (i.op = .binop .add ∨ i.op = .ptrtoint → i.ty = .int w) := by
    intro i hi
    simp only [roundTripFn, Fn.instrs, List.flatMap_cons, List.flatMap_nil, List.append_nil, List.mem_cons,
      List.not_mem_nil, or_false] at hi
    rcases hi with rfl | rfl | rfl | rfl <;> simp
  exact ⟨(hmem _ hf.intToPtr_mem).1 hf.intToPtr_op, (hmem _ hf.op_inst_mem).2 (Or.inl hf.op_inst_op),
    (hmem _ hf.ptrToInt_mem).2 (Or.inr hf.ptrToInt_op)⟩

/-- Integers as wide as pointers. -/
theorem round_trip_collapse_i64 : (roundTripFn 64).RoundTripsPreserved ∧
    ((roundTripFn 64).collapses 4 [0, 1, 2, 3]).length = 1 ∧
    (roundTripFn 64).tryReplacePtrtoInt.ids = [4, 3] :=
  ⟨(round_trip_collapse (roundTripFn_ssa 64) fun id T h => ⟨64, roundTripFn_trip 64 id T h⟩).mpr
    fun id T h w hw => by
      have hty := (roundTripFn_trip 64 id T h).ptrToInt
      rw [hw.ptrToInt] at hty
      exact (Ty.int.inj hty).ge, by decide, by decide⟩

/-- Integers of 32 bits lose the upper half of the pointer. -/
theorem round_trip_collapse_fails : ¬(∀ F : Fn, F.SsaForm →
    (∀ id T, F.roundTrip? id = some T → ∃ w, T.Shares w) → F.RoundTripsPreserved) := by
  intro h
  have hall := h (roundTripFn 32) (roundTripFn_ssa 32) fun id T h => ⟨32, roundTripFn_trip 32 id T h⟩
  cases hT : (roundTripFn 32).roundTrip? 2 with
  | none => exact absurd hT (by decide)
  | some T =>
    have hw := roundTripFn_trip 32 2 T hT
    have heq := (hall.call 2 T hT).address 32 hw Unit 0x100000000 0
    rw [(roundTrip?_some hT).1.address_eq hw, gepAddress_eq] at heq
    have hne : ((0x100000000 : BitVec 64).setWidth 32 + 0#32).setWidth 64 ≠
        0x100000000 + (0#32).signExtend 64 := by decide
    exact hne (Datum.ptr.inj (Option.some.inj heq))

end BpfTv.Ssa
