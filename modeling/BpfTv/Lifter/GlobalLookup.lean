import BpfTv.Lib.Worklist
import BpfTv.Lifter.Globals

/-!
# The deferred globals as a worklist

On the names of its symbols `lookupGlobal` is a worklist: `LLVMglobals` holds the names that are
done and `deferredGlobs` the queue (`processAll_run`, `exists_processAll`). An item is looked up
under its own spelling while both hold demangled names, so that a reference is recognised only when
it is spelled like its name. The loop ends exactly when no cycle of references that are spelled
otherwise is reachable from the requests.
-/

namespace BpfTv

/-! ## What a symbol stands for -/

inductive Resolution
  | liftedFn
  | object (name : String) (kind : GlobalKind)
  | data (g : MCGlobal)
  deriving DecidableEq

/-- The branch of `lazyAddGlobal` for a name. -/
def ModuleInfo.resolve (M : ModuleInfo) (name : String) : Option Resolution :=
  let newGlobal := (intrinsic_names.lookup name).getD name
  if newGlobal = "__stack_chk_fail" then
    some (.object "__stack_chk_fail" (.declaration false none))
  else if newGlobal = M.liftedFnName then
    some .liftedFn
  else
    match M.functions.find? fun f => f.name = newGlobal with
    | some f => some (.object newGlobal (.function (copyFunctionToTarget f)))
    | none =>
      match M.MCglobals.find? fun g => demangle g.name = newGlobal with
      | some g => some (.data g)
      | none =>
        match M.globals.find? fun g => g.isDeclaration && g.name = newGlobal with
        | some g => some (.object g.name (.declaration g.isConstant g.align))
        | none =>
          match implicit_intrinsics.lookup newGlobal with
          | some ty => some (.object newGlobal (.function { name := newGlobal, ty }))
          | none => none

/-- The value of `lazyAddGlobal` in each branch. -/
def Resolution.build (G : Globals) : Resolution → Nat × Globals
  | .liftedFn => (liftedFnId, G)
  | .object name kind => G.create name kind
  | .data g =>
    (G.initItems g.data).2.create (demangle g.name)
      (.data (G.initItems g.data).1 g.isConstant g.align)

theorem lazyAddGlobal_eq (M : ModuleInfo) (name : String) (G : Globals) :
    (∃ r, M.resolve name = some r ∧ lazyAddGlobal M name G = .ok (r.build G)) ∨
      M.resolve name = none ∧ ∃ msg, lazyAddGlobal M name G = .error (.exit msg) := by
  unfold ModuleInfo.resolve lazyAddGlobal
  simp only
  generalize (intrinsic_names.lookup name).getD name = newGlobal
  by_cases hchk : newGlobal = "__stack_chk_fail"
  · rw [if_pos hchk, if_pos hchk]
    exact Or.inl ⟨_, rfl, rfl⟩
  rw [if_neg hchk, if_neg hchk]
  by_cases hself : newGlobal = M.liftedFnName
  · rw [if_pos hself, if_pos hself]
    exact Or.inl ⟨_, rfl, rfl⟩
  rw [if_neg hself, if_neg hself]
  cases M.functions.find? fun f => f.name = newGlobal with
  | some f => exact Or.inl ⟨_, rfl, rfl⟩
  | none =>
    cases M.MCglobals.find? fun g => demangle g.name = newGlobal with
    | some g => exact Or.inl ⟨_, rfl, rfl⟩
    | none =>
      cases M.globals.find? fun g => g.isDeclaration && g.name = newGlobal with
      | some g => exact Or.inl ⟨_, rfl, rfl⟩
      | none =>
        cases implicit_intrinsics.lookup newGlobal with
        | some ty => exact Or.inl ⟨_, rfl, rfl⟩
        | none => exact Or.inr ⟨rfl, _, rfl⟩

theorem lazyAddGlobal_of_resolve {M : ModuleInfo} {name : String} {r : Resolution}
    (h : M.resolve name = some r) (G : Globals) : lazyAddGlobal M name G = .ok (r.build G) := by
  rcases lazyAddGlobal_eq M name G with ⟨r', hr', hok⟩ | ⟨hnone, _⟩
  · rw [h, Option.some_inj] at hr'
    rw [hr', hok]
  · rw [h] at hnone
    cases hnone

theorem resolve_of_ok {M : ModuleInfo} {name : String} {G : Globals} {p : Nat × Globals}
    (h : lazyAddGlobal M name G = .ok p) : ∃ r, M.resolve name = some r ∧ p = r.build G := by
  rcases lazyAddGlobal_eq M name G with ⟨r, hr, hok⟩ | ⟨_, _, herr⟩
  · rw [hok, Except.ok.injEq] at h
    exact ⟨r, hr, h.symm⟩
  · rw [herr] at h
    cases h

/-- The symbols of an initializer, as they are spelled. -/
def symsOf (data : List RODataItem) : List String :=
  data.filterMap fun
    | .byte _ => none
    | .offsetSym sym _ => some sym

/-- The symbols that are referred to by the global behind a name. -/
def ModuleInfo.refs (M : ModuleInfo) (name : String) : List String :=
  match M.resolve name with
  | some (.data g) => symsOf g.data
  | _ => []

/-- References between the globals of a module. Only a reference that is spelled like its name is
found in `LLVMglobals` and in the queue. -/
def ModuleInfo.refGraph (M : ModuleInfo) : Worklist.Graph String String :=
  { refs := M.refs, target := demangle, tracked := fun sym => demangle sym = sym }

/-- The names that `LLVMglobals` and `deferredGlobs` hold. -/
def Globals.names (G : Globals) : Worklist.State String :=
  ⟨G.LLVMglobals.map Prod.fst, G.deferredGlobs.map Prod.fst⟩

theorem resolve_data_mem {M : ModuleInfo} {name : String} {g : MCGlobal}
    (h : M.resolve name = some (.data g)) : g ∈ M.MCglobals := by
  unfold ModuleInfo.resolve at h
  simp only at h
  split at h
  · cases h
  split at h
  · cases h
  split at h
  · cases h
  split at h
  · rename_i hfind
    rw [Option.some_inj, Resolution.data.injEq] at h
    exact h ▸ List.mem_of_find?_eq_some hfind
  split at h
  · cases h
  split at h
  · cases h
  · cases h

/-- Every symbol of an initializer. -/
def ModuleInfo.syms (M : ModuleInfo) : List String := M.MCglobals.flatMap fun g => symsOf g.data

theorem refs_subset_syms (M : ModuleInfo) (name : String) : M.refs name ⊆ M.syms := by
  intro sym hsym
  unfold ModuleInfo.refs at hsym
  split at hsym
  · rename_i g hg
    exact List.mem_flatMap.mpr ⟨g, resolve_data_mem hg, hsym⟩
  · cases hsym

/-! ## One iteration -/

/-- Every name that is done or queued is spelled like itself. -/
def Globals.Plain (G : Globals) : Prop :=
  ∀ n, n ∈ G.names.done ∨ n ∈ G.names.queue → demangle n = n

/-- What a symbol stands for is not mangled once more. -/
def ModuleInfo.Spelled (M : ModuleInfo) : Prop :=
  ∀ sym ∈ M.syms, demangle (demangle sym) = demangle sym

instance (M : ModuleInfo) : Decidable M.Spelled :=
  inferInstanceAs (Decidable (∀ sym ∈ M.syms, demangle (demangle sym) = demangle sym))

variable {M : ModuleInfo} {G G' : Globals} {n sym : String} {r : Resolution}

theorem find?_eq_none_iff : G.find? n = none ↔ n ∉ G.names.done := by
  rw [Globals.find?, List.lookup_eq_none_iff]
  constructor
  · intro h hmem
    obtain ⟨p, hp, hpn⟩ := List.mem_map.mp hmem
    exact bne_iff_ne.mp (h p hp) hpn.symm
  · intro h p hp
    exact bne_iff_ne.mpr fun heq => h (heq ▸ List.mem_map_of_mem hp)

theorem mem_of_find? {id : Nat} (h : G.find? n = some id) : (n, id) ∈ G.LLVMglobals := by
  obtain ⟨l₁, l₂, heq, _⟩ := List.lookup_eq_some_iff.mp h
  rw [heq]
  exact List.mem_append_right _ (List.mem_cons_self ..)

theorem refSym_names (sym : String) (hp : G.Plain) :
    (G.refSym sym).2.names = ⟨G.names.done, M.refGraph.enqueue G.names.done G.names.queue [sym]⟩ := by
  have hknown : (G.find? sym ≠ none ∨ (G.deferredGlobs.find? fun d => d.1 = sym) ≠ none) ↔
      (demangle sym = sym ∧ (demangle sym ∈ G.names.done ∨ demangle sym ∈ G.names.queue)) := by
    have hqueue : (G.deferredGlobs.find? fun d => d.1 = sym) ≠ none ↔ sym ∈ G.names.queue := by
      simp [Globals.names, List.find?_eq_none]
    rw [ne_eq, find?_eq_none_iff, not_not, hqueue]
    constructor
    · intro h
      have heq := hp sym h
      exact ⟨heq, by rwa [heq]⟩
    · rintro ⟨heq, h⟩
      rwa [heq] at h
  have henqueue : M.refGraph.enqueue G.names.done G.names.queue [sym] =
      if demangle sym = sym ∧ (demangle sym ∈ G.names.done ∨ demangle sym ∈ G.names.queue) then
        G.names.queue else G.names.queue ++ [demangle sym] := by
    refine if_congr ?_ rfl rfl
    rw [Bool.and_eq_true, Bool.or_eq_true, decide_eq_true_eq, decide_eq_true_eq]
    exact and_congr_left' decide_eq_true_iff
  rw [henqueue]
  unfold Globals.refSym
  split
  · rename_i id hid
    rw [if_pos (hknown.mp (Or.inl (by simp [hid])))]
  · rename_i hnone
    split
    · rename_i d hd
      rw [if_pos (hknown.mp (Or.inr (by simp [hd])))]
    · rename_i hq
      rw [if_neg fun h => (hknown.mpr h).elim (absurd hnone) (absurd hq)]
      simp [Globals.names, Globals.create]

theorem plain_of_names {q : List String} (hp : G.Plain) (hsyms : ∀ sym ∈ q, demangle (demangle sym) =
    demangle sym) (hG : G'.names = ⟨G.names.done, M.refGraph.enqueue G.names.done G.names.queue q⟩) :
    G'.Plain := by
  intro n hn
  rw [hG] at hn
  rcases hn with hn | hn
  · exact hp n (Or.inl hn)
  · rcases Worklist.mem_enqueue hn with hn | ⟨sym, hsym, rfl⟩
    · exact hp n (Or.inr hn)
    · exact hsyms sym hsym

theorem initItems_names (data : List RODataItem) (hp : G.Plain)
    (hsyms : ∀ sym ∈ symsOf data, demangle (demangle sym) = demangle sym) :
    (G.initItems data).2.names =
      ⟨G.names.done, M.refGraph.enqueue G.names.done G.names.queue (symsOf data)⟩ := by
  induction data generalizing G with
  | nil => rfl
  | cons item data ih =>
    cases item with
    | byte b => exact ih hp hsyms
    | offsetSym sym offset =>
      obtain ⟨hsym, hsyms⟩ := List.forall_mem_cons.mp hsyms
      have hG := refSym_names (M := M) sym hp
      have hp' := plain_of_names hp (by simpa using hsym) hG
      show ((G.refSym sym).2.initItems data).2.names = _
      rw [ih hp' hsyms, hG]
      rfl

theorem build_names (hM : M.Spelled) (hp : G.Plain) (hr : M.resolve n = some r) :
    (r.build G).2.names = ⟨G.names.done, M.refGraph.enqueue G.names.done G.names.queue (M.refs n)⟩ := by
  cases r with
  | liftedFn => simp [Resolution.build, ModuleInfo.refs, hr, Worklist.Graph.enqueue]
  | object name kind =>
    simp [Resolution.build, ModuleInfo.refs, hr, Worklist.Graph.enqueue, Globals.create, Globals.names]
  | data g =>
    have hrefs : M.refs n = symsOf g.data := by simp [ModuleInfo.refs, hr]
    rw [hrefs, ← initItems_names g.data hp fun sym hsym =>
      hM sym (refs_subset_syms M n (hrefs ▸ hsym))]
    rfl

theorem build_plain (hM : M.Spelled) (hp : G.Plain) (hr : M.resolve n = some r) :
    (r.build G).2.Plain :=
  plain_of_names hp (fun sym hsym => hM sym (refs_subset_syms M n hsym)) (build_names hM hp hr)

theorem setGlobal_plain {id : Nat} (hp : G.Plain) (hn : demangle n = n) : (G.setGlobal n id).Plain := by
  rintro m (hm | hm)
  · rcases List.mem_cons.mp hm with rfl | hm
    · exact hn
    · exact hp m (Or.inl hm)
  · exact hp m (Or.inr hm)

/-- The module after an iteration of the loop that took `d` from the queue. -/
def Globals.afterDeferred (G : Globals) (d : String × Nat) (rest : List (String × Nat))
    (r : Resolution) : Globals :=
  let built := r.build { G with deferredGlobs := rest }
  (built.2.patch d.2 built.1).setGlobal d.1 built.1

theorem processDeferred_ok {d : String × Nat} {rest : List (String × Nat)} :
    G.processDeferred M d rest = .ok G' ↔
      ∃ r, M.resolve d.1 = some r ∧ G' = G.afterDeferred d rest r := by
  constructor
  · intro h
    obtain ⟨p, hp, hG'⟩ := except_bind_ok h
    obtain ⟨r, hr, rfl⟩ := resolve_of_ok hp
    exact ⟨r, hr, (Except.ok.inj hG').symm⟩
  · rintro ⟨r, hr, rfl⟩
    unfold Globals.processDeferred
    rw [lazyAddGlobal_of_resolve hr]
    rfl

theorem afterDeferred_names {d : String × Nat} {rest : List (String × Nat)} (hM : M.Spelled)
    (hp : G.Plain) (hq : G.deferredGlobs = d :: rest) (hr : M.resolve d.1 = some r) :
    M.refGraph.Step G.names (G.afterDeferred d rest r).names ∧ (G.afterDeferred d rest r).Plain := by
  have hrest : ({ G with deferredGlobs := rest } : Globals).Plain := by
    rintro m (hm | hm)
    · exact hp m (Or.inl hm)
    · refine hp m (Or.inr ?_)
      rw [Globals.names, hq]
      exact List.mem_cons_of_mem _ hm
  have hd : demangle d.1 = d.1 := hp d.1 (Or.inr (by rw [Globals.names, hq]; exact List.mem_cons_self ..))
  have hnames := build_names hM hrest hr
  refine ⟨?_, setGlobal_plain (build_plain hM hrest hr) hd⟩
  have hafter : (G.afterDeferred d rest r).names = ⟨d.1 :: G.names.done,
      M.refGraph.enqueue G.names.done (rest.map Prod.fst) (M.refs d.1)⟩ := by
    rw [Worklist.State.mk.injEq] at hnames
    exact congrArg₂ Worklist.State.mk (congrArg (d.1 :: ·) hnames.1) hnames.2
  have hbefore : G.names = ⟨G.names.done, d.1 :: rest.map Prod.fst⟩ := by
    rw [Globals.names, hq]
    rfl
  rw [hafter, hbefore]
  exact Worklist.Graph.Step.mk _ _ _

/-! ## The loop -/

theorem processAll_nil (fuel : Nat) (hq : G.deferredGlobs = []) : G.processAll M fuel = .ok G := by
  unfold Globals.processAll
  rw [hq]

theorem processAll_zero {d : String × Nat} {rest : List (String × Nat)}
    (hq : G.deferredGlobs = d :: rest) : G.processAll M 0 = .error .outOfFuel := by
  unfold Globals.processAll
  rw [hq]

theorem processAll_succ {d : String × Nat} {rest : List (String × Nat)} (fuel : Nat)
    (hq : G.deferredGlobs = d :: rest) :
    G.processAll M (fuel + 1) = G.processDeferred M d rest >>= Globals.processAll M fuel := by
  rw [Globals.processAll, hq]

/-- A loop that comes to an end is a run of the worklist. -/
theorem processAll_run {fuel : Nat} (hM : M.Spelled) (hp : G.Plain)
    (h : G.processAll M fuel = .ok G') :
    M.refGraph.Run G.names G'.names ∧ G'.deferredGlobs = [] ∧ G'.Plain := by
  induction fuel generalizing G with
  | zero =>
    cases hq : G.deferredGlobs with
    | nil =>
      rw [processAll_nil 0 hq, Except.ok.injEq] at h
      exact h ▸ ⟨Relation.ReflTransGen.refl, hq, hp⟩
    | cons d rest =>
      rw [processAll_zero hq] at h
      cases h
  | succ fuel ih =>
    cases hq : G.deferredGlobs with
    | nil =>
      rw [processAll_nil _ hq, Except.ok.injEq] at h
      exact h ▸ ⟨Relation.ReflTransGen.refl, hq, hp⟩
    | cons d rest =>
      rw [processAll_succ fuel hq] at h
      obtain ⟨G₁, hstep, h⟩ := except_bind_ok h
      obtain ⟨r, hr, rfl⟩ := processDeferred_ok.mp hstep
      obtain ⟨hnames, hp₁⟩ := afterDeferred_names hM hp hq hr
      obtain ⟨hrun, hend⟩ := ih hp₁ h
      exact ⟨Relation.ReflTransGen.head hnames hrun, hend⟩

/-- More iterations than needed do not change the result. -/
theorem processAll_mono {fuel fuel' : Nat} (hle : fuel ≤ fuel') (h : G.processAll M fuel = .ok G') :
    G.processAll M fuel' = .ok G' := by
  induction fuel generalizing G fuel' with
  | zero =>
    cases hq : G.deferredGlobs with
    | nil => rwa [processAll_nil _ hq] at h ⊢
    | cons d rest =>
      rw [processAll_zero hq] at h
      cases h
  | succ fuel ih =>
    cases hq : G.deferredGlobs with
    | nil => rwa [processAll_nil _ hq] at h ⊢
    | cons d rest =>
      obtain ⟨k, rfl⟩ : ∃ k, fuel' = k + 1 := ⟨fuel' - 1, by omega⟩
      rw [processAll_succ fuel hq] at h
      obtain ⟨G₁, hstep, h⟩ := except_bind_ok h
      rw [processAll_succ k hq, hstep]
      exact ih (by omega) h

/-- Every symbol that is referred to is defined or declared. -/
def ModuleInfo.Resolves (M : ModuleInfo) : Prop :=
  ∀ sym ∈ M.syms, (M.resolve (demangle sym)).isSome

instance (M : ModuleInfo) : Decidable M.Resolves :=
  inferInstanceAs (Decidable (∀ sym ∈ M.syms, (M.resolve (demangle sym)).isSome))

theorem queue_resolves {σ σ' : Worklist.State String} (hres : M.Resolves)
    (hq : ∀ n ∈ σ.queue, (M.resolve n).isSome) (h : M.refGraph.Step σ σ') :
    ∀ n ∈ σ'.queue, (M.resolve n).isSome := by
  cases h with
  | mk done rest k =>
    intro n hn
    rcases Worklist.mem_enqueue hn with hn | ⟨sym, hsym, rfl⟩
    · exact hq n (List.mem_cons_of_mem _ hn)
    · exact hres sym (refs_subset_syms M k hsym)

theorem exists_processAll {done' : List String} (hM : M.Spelled) (hres : M.Resolves) (hp : G.Plain)
    (hq : ∀ n ∈ G.names.queue, (M.resolve n).isSome) (h : M.refGraph.Run G.names ⟨done', []⟩) :
    ∃ fuel G', G.processAll M fuel = .ok G' ∧ G'.names.done = done' := by
  generalize hG : G.names = σ at h
  induction h using Relation.ReflTransGen.head_induction_on generalizing G with
  | refl =>
    have hnil : G.deferredGlobs = [] := List.map_eq_nil_iff.mp (congrArg Worklist.State.queue hG)
    exact ⟨0, G, processAll_nil 0 hnil, congrArg Worklist.State.done hG⟩
  | @head σ σ' hstep _ ih =>
    cases hd : G.deferredGlobs with
    | nil =>
      rw [← hG, Globals.names, hd] at hstep
      cases hstep
    | cons d rest =>
      have hmem : d.1 ∈ G.names.queue := by
        rw [Globals.names, hd]
        exact List.mem_cons_self ..
      obtain ⟨r, hr⟩ := Option.isSome_iff_exists.mp (hq d.1 hmem)
      obtain ⟨hnames, hp₁⟩ := afterDeferred_names hM hp hd hr
      have hσ' : (G.afterDeferred d rest r).names = σ' := Worklist.step_unique (hG ▸ hnames) hstep
      obtain ⟨fuel, G', hall, hdone⟩ := ih hp₁ (queue_resolves hres hq hnames) hσ'
      refine ⟨fuel + 1, G', ?_, hdone⟩
      rw [processAll_succ fuel hd, processDeferred_ok.mpr ⟨r, hr, rfl⟩]
      exact hall

/-! ## Calls of `lookupGlobal` -/

/-- The module when the loop of a call of `lookupGlobal` starts. -/
def Globals.afterRequest (G : Globals) (name : String) (r : Resolution) : Globals :=
  (r.build G).2.setGlobal name (r.build G).1

theorem lookupGlobal_known {fuel id : Nat} {nm : String} (h : G.find? (demangle nm) = some id) :
    lookupGlobal M fuel nm G = .ok (id, G) := by
  simp only [lookupGlobal, h]

theorem lookupGlobal_new {fuel : Nat} {nm : String} {p : Nat × Globals}
    (h : G.find? (demangle nm) = none) :
    lookupGlobal M fuel nm G = .ok p ↔ ∃ r, M.resolve (demangle nm) = some r ∧
      p.1 = (r.build G).1 ∧ (G.afterRequest (demangle nm) r).processAll M fuel = .ok p.2 := by
  simp only [lookupGlobal, h]
  constructor
  · intro hok
    obtain ⟨q, hq, hok⟩ := except_bind_ok hok
    obtain ⟨G', hG', hok⟩ := except_bind_ok hok
    obtain ⟨r, hr, rfl⟩ := resolve_of_ok hq
    obtain rfl := Except.ok.inj hok
    exact ⟨r, hr, rfl, hG'⟩
  · rintro ⟨r, hr, hid, hall⟩
    obtain ⟨id, G'⟩ := p
    obtain rfl := hid
    rw [lazyAddGlobal_of_resolve hr]
    show (Globals.processAll M fuel (G.afterRequest (demangle nm) r) >>= _) = _
    rw [hall]
    rfl

theorem afterRequest_names (hM : M.Spelled) (hp : G.Plain) (hq : G.deferredGlobs = [])
    (hn : demangle n = n) (hr : M.resolve n = some r) :
    M.refGraph.Step ⟨G.names.done, [n]⟩ (G.afterRequest n r).names ∧ (G.afterRequest n r).Plain := by
  have hnames := build_names hM hp hr
  rw [Worklist.State.mk.injEq] at hnames
  have hqueue : G.names.queue = [] := List.map_eq_nil_iff.mpr hq
  refine ⟨?_, setGlobal_plain (build_plain hM hp hr) hn⟩
  have hafter : (G.afterRequest n r).names =
      ⟨n :: G.names.done, M.refGraph.enqueue G.names.done [] (M.refs n)⟩ :=
    congrArg₂ Worklist.State.mk (congrArg (n :: ·) hnames.1) (by rw [← hqueue]; exact hnames.2)
  rw [hafter]
  exact Worklist.Graph.Step.mk _ _ _

/-- A sequence of calls; the returned objects are collected. -/
def lookupAll (M : ModuleInfo) (fuel : Nat) :
    List String → Globals → Except LiftError (List Nat × Globals)
  | [], G => .ok ([], G)
  | nm :: nms, G => do
    let (id, G) ← lookupGlobal M fuel nm G
    let (ids, G) ← lookupAll M fuel nms G
    return (id :: ids, G)

theorem lookupAll_cons {fuel : Nat} {nm : String} {nms : List String} {p : List Nat × Globals} :
    lookupAll M fuel (nm :: nms) G = .ok p ↔ ∃ id G₁ ids, lookupGlobal M fuel nm G = .ok (id, G₁) ∧
      lookupAll M fuel nms G₁ = .ok (ids, p.2) ∧ p.1 = id :: ids := by
  constructor
  · intro h
    obtain ⟨⟨id, G₁⟩, h₁, h⟩ := except_bind_ok h
    obtain ⟨⟨ids, G₂⟩, h₂, h⟩ := except_bind_ok h
    obtain rfl := Except.ok.inj h
    exact ⟨id, G₁, ids, h₁, h₂, rfl⟩
  · rintro ⟨id, G₁, ids, h₁, h₂, hp⟩
    obtain ⟨ids', G₂⟩ := p
    obtain rfl := hp
    rw [lookupAll, h₁]
    show (lookupAll M fuel nms G₁ >>= _) = _
    rw [h₂]
    rfl

/-- The module between two calls: the queue is empty. -/
structure Globals.Idle (G : Globals) : Prop where
  plain : G.Plain
  empty : G.deferredGlobs = []

theorem idle_init (M : ModuleInfo) : (Globals.init M).Idle := by
  refine ⟨?_, rfl⟩
  rintro n (hn | hn)
  · cases hn
  · cases hn

theorem Globals.Idle.names {G : Globals} (h : G.Idle) : G.names = ⟨G.names.done, []⟩ :=
  congrArg (Worklist.State.mk _) (List.map_eq_nil_iff.mpr h.empty)

/-- One call of `lookupGlobal` is one request of the worklist. -/
theorem lookupGlobal_run {fuel id : Nat} {nm : String} (hM : M.Spelled) (hG : G.Idle)
    (hnm : demangle (demangle nm) = demangle nm) (h : lookupGlobal M fuel nm G = .ok (id, G')) :
    G'.Idle ∧ (demangle nm ∈ G.names.done ∧ G' = G ∨ demangle nm ∉ G.names.done ∧
      M.refGraph.Run ⟨G.names.done, [demangle nm]⟩ ⟨G'.names.done, []⟩) := by
  cases hf : G.find? (demangle nm) with
  | some id' =>
    rw [lookupGlobal_known hf, Except.ok.injEq, Prod.mk.injEq] at h
    obtain ⟨_, rfl⟩ := h
    refine ⟨hG, Or.inl ⟨?_, rfl⟩⟩
    exact List.mem_map_of_mem (f := Prod.fst) (mem_of_find? hf)
  | none =>
    obtain ⟨r, hr, _, hall⟩ := (lookupGlobal_new hf).mp h
    obtain ⟨hstep, hp⟩ := afterRequest_names hM hG.plain hG.empty hnm hr
    obtain ⟨hrun, hempty, hplain⟩ := processAll_run hM hp hall
    have hidle : G'.Idle := ⟨hplain, hempty⟩
    refine ⟨hidle, Or.inr ⟨find?_eq_none_iff.mp hf, ?_⟩⟩
    rw [← hidle.names]
    exact Relation.ReflTransGen.head hstep hrun

theorem lookupAll_lookups {fuel : Nat} {nms : List String} {ids : List Nat} (hM : M.Spelled)
    (hG : G.Idle) (hnms : ∀ nm ∈ nms, demangle (demangle nm) = demangle nm)
    (h : lookupAll M fuel nms G = .ok (ids, G')) :
    G'.Idle ∧ Worklist.Lookups M.refGraph G.names.done (nms.map demangle) G'.names.done := by
  induction nms generalizing G ids with
  | nil =>
    obtain ⟨_, rfl⟩ := Prod.mk.inj (Except.ok.inj h)
    exact ⟨hG, Worklist.Lookups.nil _⟩
  | cons nm nms ih =>
    obtain ⟨id, G₁, ids', h₁, h₂, _⟩ := lookupAll_cons.mp h
    obtain ⟨hnm, hnms⟩ := List.forall_mem_cons.mp hnms
    obtain ⟨hG₁, hrun⟩ := lookupGlobal_run hM hG hnm h₁
    obtain ⟨hG', hlook⟩ := ih hG₁ hnms h₂
    refine ⟨hG', ?_⟩
    rcases hrun with ⟨hdone, rfl⟩ | ⟨hnew, hrun⟩
    · exact Worklist.Lookups.skip hdone hlook
    · exact Worklist.Lookups.run hnew hrun hlook

theorem lookupGlobal_mono {fuel fuel' : Nat} {nm : String} {p : Nat × Globals} (hle : fuel ≤ fuel')
    (h : lookupGlobal M fuel nm G = .ok p) : lookupGlobal M fuel' nm G = .ok p := by
  cases hf : G.find? (demangle nm) with
  | some id' => rwa [lookupGlobal_known hf] at h ⊢
  | none =>
    obtain ⟨r, hr, hid, hall⟩ := (lookupGlobal_new hf).mp h
    exact (lookupGlobal_new hf).mpr ⟨r, hr, hid, processAll_mono hle hall⟩

theorem lookupAll_mono {fuel fuel' : Nat} {nms : List String} {p : List Nat × Globals}
    (hle : fuel ≤ fuel') (h : lookupAll M fuel nms G = .ok p) : lookupAll M fuel' nms G = .ok p := by
  induction nms generalizing G p with
  | nil => exact h
  | cons nm nms ih =>
    obtain ⟨id, G₁, ids, h₁, h₂, hp⟩ := lookupAll_cons.mp h
    exact lookupAll_cons.mpr ⟨id, G₁, ids, lookupGlobal_mono hle h₁, ih h₂, hp⟩

/-- Requests that are all served are answered by the calls, with enough iterations. -/
theorem exists_lookupAll {nms done' : List String} (hM : M.Spelled) (hres : M.Resolves)
    (hG : G.Idle) (hnms : ∀ nm ∈ nms, demangle (demangle nm) = demangle nm)
    (hreq : ∀ nm ∈ nms, (M.resolve (demangle nm)).isSome)
    (h : Worklist.Lookups M.refGraph G.names.done (nms.map demangle) done') :
    ∃ fuel p, lookupAll M fuel nms G = .ok p := by
  induction nms generalizing G with
  | nil => exact ⟨0, ([], G), rfl⟩
  | cons nm nms ih =>
    obtain ⟨hnm, hnms⟩ := List.forall_mem_cons.mp hnms
    obtain ⟨hreqn, hreq⟩ := List.forall_mem_cons.mp hreq
    rw [List.map_cons] at h
    cases h with
    | skip hn h =>
      have hf : G.find? (demangle nm) ≠ none := fun hnone => find?_eq_none_iff.mp hnone hn
      obtain ⟨id, hid⟩ := Option.ne_none_iff_exists'.mp hf
      obtain ⟨fuel, p, hp⟩ := ih hG hnms hreq h
      exact ⟨fuel, (id :: p.1, p.2), lookupAll_cons.mpr ⟨id, G, p.1, lookupGlobal_known hid, hp, rfl⟩⟩
    | @run _ mid _ _ _ hn hrun h =>
      have hf : G.find? (demangle nm) = none := find?_eq_none_iff.mpr hn
      obtain ⟨r, hr⟩ := Option.isSome_iff_exists.mp hreqn
      obtain ⟨hstep, hp⟩ := afterRequest_names hM hG.plain hG.empty hnm hr
      obtain ⟨σ, hhead, hrest⟩ : ∃ σ, M.refGraph.Step ⟨G.names.done, [demangle nm]⟩ σ ∧
          M.refGraph.Run σ ⟨mid, []⟩ := by
        rcases Relation.ReflTransGen.cases_head hrun with heq | h
        · cases congrArg Worklist.State.queue heq
        · exact h
      obtain rfl := Worklist.step_unique hhead hstep
      have hq := queue_resolves hres (by simpa using hreqn) hstep
      obtain ⟨fuel₁, G₁, hall, rfl⟩ := exists_processAll hM hres hp hq hrest
      have hlook : lookupGlobal M fuel₁ nm G = .ok ((r.build G).1, G₁) :=
        (lookupGlobal_new hf).mpr ⟨r, hr, rfl, hall⟩
      obtain ⟨_, hempty, hplain⟩ := processAll_run hM hp hall
      obtain ⟨fuel₂, p, hp⟩ := ih ⟨hplain, hempty⟩ hnms hreq h
      exact ⟨max fuel₁ fuel₂, ((r.build G).1 :: p.1, p.2), lookupAll_cons.mpr
        ⟨_, G₁, p.1, lookupGlobal_mono (Nat.le_max_left ..) hlook,
          lookupAll_mono (Nat.le_max_right ..) hp, rfl⟩⟩

/-! ## Termination -/

/-- The spellings of the assembler: the name itself, a name behind `.L` when it starts with a dot,
and the local alias of a name. -/
inductive Spelling (name : String) : String → Prop
  | plain : Spelling name name
  | private_ (h : ".".toList <+: name.toList) : Spelling name (".L" ++ name)
  | local_ : Spelling name (".L" ++ name ++ "$local")

theorem demangle_plain {name : String} (h : ¬ ".L".toList <+: name.toList) : demangle name = name := by
  have hdot : ¬ ".L.".toList <+: name.toList := fun hp => h (List.IsPrefix.trans (by decide) hp)
  simp only [demangle]
  rw [if_neg fun hp => h hp.1, if_neg hdot]

theorem demangle_spelling {name sym : String} (h : ¬ ".L".toList <+: name.toList)
    (hl : ¬ "$local".toList <:+ name.toList) (hs : Spelling name sym) : demangle sym = name := by
  cases hs with
  | plain => exact demangle_plain h
  | private_ hdot =>
    have hlist : (".L" ++ name).toList = ".L".toList ++ name.toList := String.toList_append
    have hmem : '.' ∈ name.toList := hdot.subset (by decide)
    have hsuffix : ¬ "$local".toList <:+ (".L" ++ name).toList := by
      rw [hlist]
      intro hsuf
      rcases List.suffix_or_suffix_of_suffix hsuf (List.suffix_append _ _) with hsuf | hsuf
      · exact hl hsuf
      · exact absurd (hsuf.subset hmem) (by decide)
    have hprefix : ".L.".toList <+: (".L" ++ name).toList := by
      rw [hlist]
      exact (List.prefix_append_right_inj ".L".toList).mpr hdot
    simp only [demangle]
    rw [if_neg fun hp => hsuffix hp.2, if_pos hprefix, hlist]
    simp
  | local_ =>
    have hlist : (".L" ++ name ++ "$local").toList = ".L".toList ++ name.toList ++ "$local".toList := by
      rw [String.toList_append, String.toList_append]
    have hlength : "$local".length = 6 := by decide
    simp only [demangle]
    rw [if_pos]
    · rw [hlist, hlength]
      simp
    · rw [hlist]
      refine ⟨?_, List.suffix_append _ _⟩
      rw [List.append_assoc]
      exact List.prefix_append _ _

/-- A symbol of the assembler: a spelling of a name that does not look like another spelling. -/
def AssemblerSymbol (sym : String) : Prop :=
  ∃ name : String, ¬ ".L".toList <+: name.toList ∧ ¬ "$local".toList <:+ name.toList ∧ Spelling name sym

theorem AssemblerSymbol.demangle_twice {sym : String} (h : AssemblerSymbol sym) :
    demangle (demangle sym) = demangle sym := by
  obtain ⟨name, hL, hlocal, hs⟩ := h
  rw [demangle_spelling hL hlocal hs, demangle_plain hL]

theorem ModuleInfo.spelled_of_assembler {M : ModuleInfo} (h : ∀ sym ∈ M.syms, AssemblerSymbol sym) :
    M.Spelled :=
  fun sym hsym => (h sym hsym).demangle_twice

/-- Calls that all return, with an empty queue. -/
def Terminates (M : ModuleInfo) (nms : List String) : Prop :=
  ∃ fuel ids G, lookupAll M fuel nms (Globals.init M) = .ok (ids, G) ∧ G.deferredGlobs = []

theorem terminates_iff {M : ModuleInfo} {nms : List String} (hM : M.Spelled) (hres : M.Resolves)
    (hnms : ∀ nm ∈ nms, demangle (demangle nm) = demangle nm)
    (hreq : ∀ nm ∈ nms, (M.resolve (demangle nm)).isSome) :
    Terminates M nms ↔ ∃ done, Worklist.Lookups M.refGraph [] (nms.map demangle) done := by
  constructor
  · rintro ⟨fuel, ids, G, h, _⟩
    exact ⟨_, (lookupAll_lookups hM (idle_init M) hnms h).2⟩
  · rintro ⟨done, h⟩
    obtain ⟨fuel, ⟨ids, G⟩, hall⟩ := exists_lookupAll hM hres (idle_init M) hnms hreq h
    exact ⟨fuel, ids, G, hall, (lookupAll_lookups hM (idle_init M) hnms hall).1.empty⟩

/-- A global has a way to a cycle of globals in which every reference to the next one is spelled
otherwise than its name. -/
def ModuleInfo.MisspelledCycle (M : ModuleInfo) (name : String) : Prop :=
  ∃ c, Relation.ReflTransGen (fun a b => ∃ sym ∈ M.refs a, demangle sym = b) name c ∧
    Relation.TransGen (fun a b => ∃ sym ∈ M.refs a, demangle sym ≠ sym ∧ demangle sym = b) c c

theorem misspelledCycle_iff (M : ModuleInfo) (name : String) :
    M.MisspelledCycle name ↔ M.refGraph.Bad name := by
  have huntracked : (fun a b => ∃ sym ∈ M.refs a, demangle sym ≠ sym ∧ demangle sym = b) =
      M.refGraph.Untracked := by
    funext a b
    simp only [Worklist.Graph.Untracked, ModuleInfo.refGraph, decide_eq_false_iff_not]
  unfold ModuleInfo.MisspelledCycle
  rw [huntracked]
  rfl

theorem lookups_iff_not_bad (M : ModuleInfo) (nms : List String) :
    (∃ done, Worklist.Lookups M.refGraph [] (nms.map demangle) done) ↔
      ∀ nm ∈ nms, ¬ M.refGraph.Bad (demangle nm) := by
  let S := ((nms ++ M.syms).map demangle).toFinset
  have hS : ∀ a ∈ S, ∀ c, M.refGraph.Edge a c → c ∈ S := by
    rintro a _ _ ⟨sym, hsym, rfl⟩
    refine List.mem_toFinset.mpr (List.mem_map_of_mem ?_)
    exact List.mem_append_right _ (refs_subset_syms M a hsym)
  have hstart : ∀ n ∈ nms.map demangle, n ∈ S := fun n hn => by
    rw [List.mem_toFinset, List.map_append]
    exact List.mem_append_left _ hn
  rw [Worklist.lookups_iff S hS hstart]
  simp only [List.forall_mem_map]

/-- The loops end for all requests exactly when none of them has a way to such a cycle. -/
theorem global_lifting_terminates (M : ModuleInfo) (nms : List String) (hM : M.Spelled)
    (hres : M.Resolves) (hnms : ∀ nm ∈ nms, demangle (demangle nm) = demangle nm)
    (hreq : ∀ nm ∈ nms, (M.resolve (demangle nm)).isSome) :
    Terminates M nms ↔ ∀ nm ∈ nms, ¬ M.MisspelledCycle (demangle nm) := by
  rw [terminates_iff hM hres hnms hreq, lookups_iff_not_bad]
  simp only [misspelledCycle_iff]

/-- A module whose data globals are the given ones. -/
def ModuleInfo.ofGlobals (MCglobals : List MCGlobal) : ModuleInfo :=
  { liftedFnName := "f", liftedFnTy := ⟨.void, []⟩, functions := [], globals := [], MCglobals }

/-- `tbl: .quad .L.foo; .quad tbl` and `.L.foo: .quad tbl`. -/
def mutualReferences : ModuleInfo := ModuleInfo.ofGlobals
  [{ name := "tbl", align := 8, section_ := ".data", data := [.offsetSym ".L.foo" 0, .offsetSym "tbl" 8] },
    { name := ".L.foo", align := 8, section_ := ".rodata", data := [.offsetSym "tbl" 0] }]

theorem mutualReferences_symbols : ∀ sym ∈ ["tbl", ".L.foo"], AssemblerSymbol sym := by
  intro sym hsym
  rcases List.mem_cons.mp hsym with rfl | hsym
  · exact ⟨"tbl", by decide, by decide, .plain⟩
  · obtain rfl := List.mem_singleton.mp hsym
    exact ⟨".foo", by decide, by decide, .private_ (by decide)⟩

theorem global_lifting_terminates_mutual : Terminates mutualReferences ["tbl", ".L.foo"] := by
  have hsyms : ∀ sym ∈ mutualReferences.syms, sym ∈ ["tbl", ".L.foo"] := by decide +kernel
  refine (global_lifting_terminates mutualReferences ["tbl", ".L.foo"]
    (ModuleInfo.spelled_of_assembler fun sym hsym => mutualReferences_symbols sym (hsyms sym hsym))
    (by decide +kernel) (fun nm hnm => (mutualReferences_symbols nm hnm).demangle_twice)
    (by decide +kernel)).mpr ?_
  rintro nm _ ⟨c, _, hcycle⟩
  obtain ⟨b, ⟨sym, hsym, hne, _⟩, _⟩ := Relation.TransGen.head'_iff.mp hcycle
  obtain ⟨a, _, sym', hsym', hne', hc⟩ := Relation.TransGen.tail'_iff.mp hcycle
  have hfoo : ∀ s ∈ mutualReferences.syms, demangle s ≠ s → demangle s = ".foo" := by decide +kernel
  have hplain : ∀ s ∈ mutualReferences.refs ".foo", demangle s = s := by decide +kernel
  rw [hfoo sym' (refs_subset_syms _ _ hsym') hne'] at hc
  exact hne (hplain sym (hc ▸ hsym))

/-- `.L.foo: .quad .L.foo`. -/
def selfReference : ModuleInfo := ModuleInfo.ofGlobals
  [{ name := ".L.foo", align := 8, section_ := ".data", data := [.offsetSym ".L.foo" 0] }]

theorem global_lifting_terminates_fails :
    ¬ ∀ (M : ModuleInfo) (nms : List String), M.Spelled → M.Resolves →
      (∀ nm ∈ nms, demangle (demangle nm) = demangle nm) →
      (∀ nm ∈ nms, (M.resolve (demangle nm)).isSome) → Terminates M nms := by
  intro h
  have hM : selfReference.Spelled := by decide +kernel
  have hres : selfReference.Resolves := by decide +kernel
  have hnms : ∀ nm ∈ [".L.foo"], demangle (demangle nm) = demangle nm := by decide +kernel
  have hreq : ∀ nm ∈ [".L.foo"], (selfReference.resolve (demangle nm)).isSome := by decide +kernel
  obtain ⟨done, hlook⟩ := (terminates_iff hM hres hnms hreq).mp (h _ _ hM hres hnms hreq)
  have hcycle : selfReference.refGraph.OnCycle ".foo" :=
    Relation.TransGen.single ⟨".L.foo", by decide +kernel, by decide +kernel, by decide +kernel⟩
  have hfoo : ".foo" ∈ [".L.foo"].map demangle := by decide +kernel
  refine hlook.not_bad ?_ ?_ ".foo" hfoo ⟨".foo", Relation.ReflTransGen.refl, hcycle⟩
  · exact fun _ hn => absurd hn List.not_mem_nil
  · exact fun _ hn => absurd hn List.not_mem_nil

end BpfTv
