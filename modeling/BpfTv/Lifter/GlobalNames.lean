import BpfTv.Lifter.CalleeAgreement
import BpfTv.Lifter.GlobalDefinitions

/-!
# The object behind a name

Whatever has been looked up before, the object that `lookupGlobal` gives for a symbol has the name and the
kind that the module says (`lookupGlobal_names`). No condition on how the references are spelled is needed:
an object that is lifted once more is called the same.
-/

namespace BpfTv

variable {M : ModuleInfo} {G G' : Globals} {n nm : String} {r : Resolution} {o : GlobalObj} {id : Nat}

/-- The lifted function in its module. -/
def ModuleInfo.liftedObj (M : ModuleInfo) : GlobalObj :=
  ⟨liftedFnId, M.liftedFnName, .function { name := M.liftedFnName, ty := M.liftedFnTy }⟩

/-- The object is called what `r` says, and is of its kind. -/
def Resolution.Names (M : ModuleInfo) (o : GlobalObj) : Resolution → Prop
  | .liftedFn => o = M.liftedObj
  | .object name kind => o.name = name ∧ o.kind = kind
  | .data g => o.name = demangle g.name ∧ ∃ items, o.kind = .data items g.isConstant g.align

/-- The name of the object. -/
def Resolution.name (M : ModuleInfo) : Resolution → String
  | .liftedFn => M.liftedFnName
  | .object name _ => name
  | .data g => demangle g.name

/-- The function that the object is. -/
def Resolution.function? (M : ModuleInfo) : Resolution → Option Function
  | .liftedFn => some { name := M.liftedFnName, ty := M.liftedFnTy }
  | .object name (.function f) => some { f with name }
  | _ => none

theorem Resolution.Names.name_eq (h : r.Names M o) : o.name = r.name M := by
  cases r with
  | liftedFn => rw [show o = M.liftedObj from h]; rfl
  | object name kind => exact h.1
  | data g => exact h.1

/-- The function that an object is. -/
def GlobalObj.function? (o : GlobalObj) : Option Function :=
  match o.kind with
  | .function f => some { f with name := o.name }
  | _ => none

theorem functionOf_eq {s : LState} (ho : s.globals.obj? id = some o) :
    (functionOf id).run s = .ok (o.function?, s) := by
  obtain ⟨oid, name, kind⟩ := o
  have hget : (get : LiftM LState).run s = .ok (s, s) := rfl
  rw [functionOf, StateT.run_bind, hget]
  simp only [bind, Except.bind, ho]
  cases kind <;> rfl

theorem Resolution.Names.function?_eq (h : r.Names M o) : o.function? = r.function? M := by
  cases r with
  | liftedFn => rw [show o = M.liftedObj from h]; rfl
  | object name kind =>
    rw [GlobalObj.function?, h.1, h.2]
    cases kind <;> rfl
  | data g =>
    obtain ⟨_, items, hkind⟩ := h
    rw [GlobalObj.function?, hkind]
    rfl

/-- Every name in `LLVMglobals` has its object. -/
structure Globals.Named (M : ModuleInfo) (G : Globals) : Prop where
  fresh : ∀ o ∈ G.objs, o.id < G.nextId
  self : G.obj? liftedFnId = some M.liftedObj
  pending : ∀ d ∈ G.deferredGlobs, ∃ o, G.obj? d.2 = some o ∧ o.kind = .dummy
  pendingIds : (G.deferredGlobs.map Prod.snd).Nodup
  mapped : ∀ e ∈ G.LLVMglobals, ∃ r o, M.resolve e.1 = some r ∧ G.obj? e.2 = some o ∧ r.Names M o

theorem named_init (M : ModuleInfo) : (Globals.init M).Named M where
  fresh := by simp [Globals.init, liftedFnId]
  self := rfl
  pending := by simp [Globals.init]
  pendingIds := List.nodup_nil
  mapped := by simp [Globals.init]

/-! ## New objects -/

/-- The objects of `G` are still there, and the placeholders that have joined the queue are new. -/
structure Globals.Extends (G G' : Globals) : Prop where
  obj : ∀ {id o}, G.obj? id = some o → G'.obj? id = some o
  next : G.nextId ≤ G'.nextId
  queue : ∀ d ∈ G'.deferredGlobs, d ∈ G.deferredGlobs ∨ G.nextId ≤ d.2

theorem Globals.Extends.refl (G : Globals) : G.Extends G := ⟨fun ho => ho, Nat.le_refl _, fun _ => Or.inl⟩

theorem Globals.Extends.trans {G₁ G₂ G₃ : Globals} (h : G₁.Extends G₂) (h' : G₂.Extends G₃) : G₁.Extends G₃ where
  obj ho := h'.obj (h.obj ho)
  next := h.next.trans h'.next
  queue d hd := (h'.queue d hd).elim (h.queue d) fun hle => Or.inr (h.next.trans hle)

theorem obj?_lt (h : G.Named M) (ho : G.obj? id = some o) : id < G.nextId := by
  have hid : o.id = id := by simpa using List.find?_some ho
  exact hid ▸ h.fresh o (List.mem_of_find?_eq_some ho)

theorem extends_create (G : Globals) (name : String) (kind : GlobalKind) :
    G.Extends (G.create name kind).2 where
  obj {id o} ho := by
    show (G.objs ++ [_]).find? _ = _
    rw [List.find?_append, show G.objs.find? _ = some o from ho]
    rfl
  next := Nat.le_succ _
  queue _ := Or.inl

theorem extends_defer (G : Globals) (sym : String) : G.Extends (G.defer sym) where
  obj := (extends_create G _ _).obj
  next := Nat.le_succ _
  queue d hd := by
    refine (List.mem_append.mp hd).imp_right fun hd => ?_
    rw [List.mem_singleton.mp hd]

theorem obj?_create (h : G.Named M) (name : String) (kind : GlobalKind) :
    (G.create name kind).2.obj? G.nextId = some ⟨G.nextId, name, kind⟩ := by
  have hnone : G.objs.find? (fun o => o.id = G.nextId) = none := by
    refine List.find?_eq_none.mpr fun o ho => ?_
    have hlt := h.fresh o ho
    simp only [decide_eq_true_eq]
    omega
  show (G.objs ++ [_]).find? _ = _
  rw [List.find?_append, hnone]
  simp

theorem Globals.Named.create (h : G.Named M) (name : String) (kind : GlobalKind) :
    (G.create name kind).2.Named M where
  fresh o ho := by
    rcases List.mem_append.mp ho with ho | ho
    · exact Nat.lt_succ_of_lt (h.fresh o ho)
    · rw [List.mem_singleton.mp ho]
      exact Nat.lt_succ_self _
  self := (extends_create G name kind).obj h.self
  pending d hd := by
    obtain ⟨o, ho, hdummy⟩ := h.pending d hd
    exact ⟨o, (extends_create G name kind).obj ho, hdummy⟩
  pendingIds := h.pendingIds
  mapped e he := by
    obtain ⟨r, o, hr, ho, hnames⟩ := h.mapped e he
    exact ⟨r, o, hr, (extends_create G name kind).obj ho, hnames⟩

theorem Globals.Named.defer (h : G.Named M) (sym : String) : (G.defer sym).Named M := by
  have hcreate := h.create (sym ++ "_tmp") .dummy
  refine { fresh := hcreate.fresh, self := hcreate.self, pending := fun d hd => ?_, pendingIds := ?_
           mapped := hcreate.mapped }
  · rcases List.mem_append.mp hd with hd | hd
    · exact hcreate.pending d hd
    · rw [List.mem_singleton.mp hd]
      exact ⟨_, obj?_create h _ _, rfl⟩
  · show ((G.deferredGlobs ++ [(demangle sym, G.nextId)]).map Prod.snd).Nodup
    rw [List.map_append]
    refine List.nodup_append.mpr ⟨h.pendingIds, List.nodup_singleton _, ?_⟩
    rintro a ha b hb rfl
    obtain ⟨d, hd, rfl⟩ := List.mem_map.mp ha
    obtain ⟨o, ho, _⟩ := h.pending d hd
    exact Nat.ne_of_lt (obj?_lt h ho) (List.mem_singleton.mp hb)

theorem Globals.Named.refSym (h : G.Named M) (sym : String) :
    (G.refSym sym).2.Named M ∧ G.Extends (G.refSym sym).2 := by
  unfold Globals.refSym
  split
  · exact ⟨h, .refl G⟩
  · split
    · exact ⟨h, .refl G⟩
    · exact ⟨h.defer sym, extends_defer G sym⟩

theorem Globals.Named.initItems (h : G.Named M) (data : List RODataItem) :
    (G.initItems data).2.Named M ∧ G.Extends (G.initItems data).2 := by
  induction data generalizing G with
  | nil => exact ⟨h, .refl G⟩
  | cons item data ih =>
    cases item with
    | byte b => exact ih h
    | offsetSym sym offset =>
      obtain ⟨h₁, hext⟩ := h.refSym sym
      obtain ⟨h₂, hext'⟩ := ih h₁
      exact ⟨h₂, hext.trans hext'⟩

theorem Globals.Named.build (h : G.Named M) (hr : M.resolve n = some r) :
    (r.build G).2.Named M ∧ G.Extends (r.build G).2 ∧
      ∃ o, (r.build G).2.obj? (r.build G).1 = some o ∧ r.Names M o := by
  cases r with
  | liftedFn => exact ⟨h, .refl G, _, h.self, rfl⟩
  | object name kind =>
    exact ⟨h.create name kind, extends_create G name kind, _, obj?_create h name kind, rfl, rfl⟩
  | data g =>
    obtain ⟨h₁, hext⟩ := h.initItems g.data
    exact ⟨h₁.create _ _, hext.trans (extends_create _ _ _), _, obj?_create h₁ _ _, rfl, _, rfl⟩

theorem Globals.Named.setGlobal (h : G.Named M) (hr : M.resolve n = some r) (ho : G.obj? id = some o)
    (hnames : r.Names M o) : (G.setGlobal n id).Named M where
  fresh := h.fresh
  self := h.self
  pending := h.pending
  pendingIds := h.pendingIds
  mapped := List.forall_mem_cons.mpr ⟨⟨r, o, hr, ho, hnames⟩, h.mapped⟩

/-! ## Replacing a placeholder -/

theorem obj?_patch {dummy id' : Nat} (hne : id ≠ dummy) (ho : G.obj? id = some o) :
    (G.patch dummy id').obj? id = some (o.replace dummy id') := by
  have hkeep : (G.objs.filter fun o => o.id ≠ dummy).find? (fun o => o.id = id) = some o := by
    rw [List.find?_filter, ← ho]
    refine congrArg (fun p => G.objs.find? p) (funext fun o => ?_)
    by_cases hid : o.id = id
    · simp [hid, hne]
    · simp [hid]
  show ((G.objs.filter _).map _).find? _ = _
  rw [List.find?_map]
  have hid : ((fun o : GlobalObj => decide (o.id = id)) ∘ GlobalObj.replace dummy id') = fun o => decide (o.id = id) :=
    funext fun o => by simp
  rw [hid, hkeep]
  rfl

theorem Resolution.Names.ne_dummy (hr : M.resolve n = some r) (h : r.Names M o) : o.kind ≠ .dummy := by
  intro hdummy
  cases r with
  | liftedFn =>
    rw [show o = M.liftedObj from h] at hdummy
    cases hdummy
  | object name kind =>
    rw [h.2] at hdummy
    exact (resolve_object_plain hr).ne_dummy hdummy
  | data g =>
    obtain ⟨_, items, hkind⟩ := h
    rw [hkind] at hdummy
    cases hdummy

theorem Resolution.Names.replace {old new : Nat} (hr : M.resolve n = some r) (h : r.Names M o) :
    r.Names M (o.replace old new) := by
  cases r with
  | liftedFn =>
    rw [show o = M.liftedObj from h]
    rfl
  | object name kind =>
    refine ⟨(replace_name old new o).trans h.1, ?_⟩
    rw [replace_kind_plain old new (h.2 ▸ resolve_object_plain hr)]
    exact h.2
  | data g =>
    obtain ⟨hname, items, hkind⟩ := h
    refine ⟨(replace_name old new o).trans hname, items.map (InitItem.replace old new), ?_⟩
    unfold GlobalObj.replace
    split
    · rename_i hk
      rw [hkind] at hk
      cases hk
      rfl
    · rename_i hk
      exact absurd hkind (hk _ _ _)

theorem Globals.Named.patch {dummy id' : Nat} (h : G.Named M) (hd : ∃ o, G.obj? dummy = some o ∧ o.kind = .dummy)
    (hq : ∀ d ∈ G.deferredGlobs, d.2 ≠ dummy) : (G.patch dummy id').Named M := by
  obtain ⟨od, hod, hdummy⟩ := hd
  have hne : ∀ {id o}, G.obj? id = some o → o.kind ≠ .dummy → id ≠ dummy := by
    rintro id o ho hkind rfl
    obtain rfl := Option.some.inj (ho.symm.trans hod)
    exact hkind hdummy
  refine { fresh := fun o ho => ?_, self := ?_, pending := fun d hd => ?_, pendingIds := h.pendingIds
           mapped := fun e he => ?_ }
  · obtain ⟨o', ho', rfl⟩ := List.mem_map.mp ho
    rw [replace_id]
    exact h.fresh o' (List.mem_of_mem_filter ho')
  · exact obj?_patch (hne h.self nofun) h.self
  · obtain ⟨o, ho, hkind⟩ := h.pending d hd
    exact ⟨_, obj?_patch (hq d hd) ho, (replace_kind_dummy _ _ o).mpr hkind⟩
  · obtain ⟨r, o, hr, ho, hnames⟩ := h.mapped e he
    exact ⟨r, _, hr, obj?_patch (hne ho (hnames.ne_dummy hr)) ho, hnames.replace hr⟩

/-! ## Lookups -/

theorem Globals.Named.afterRequest (h : G.Named M) (hr : M.resolve n = some r) : (G.afterRequest n r).Named M := by
  obtain ⟨h₁, _, o, ho, hnames⟩ := h.build hr
  exact h₁.setGlobal hr ho hnames

theorem Globals.Named.afterDeferred {d : String × Nat} {rest : List (String × Nat)} (h : G.Named M)
    (hq : G.deferredGlobs = d :: rest) (hr : M.resolve d.1 = some r) : (G.afterDeferred d rest r).Named M := by
  have hids := h.pendingIds
  rw [hq, List.map_cons, List.nodup_cons] at hids
  obtain ⟨od, hod, hdummy⟩ := h.pending d (hq ▸ List.mem_cons_self)
  have hpop : ({ G with deferredGlobs := rest } : Globals).Named M :=
    { h with pending := fun d' hd' => h.pending d' (hq ▸ List.mem_cons_of_mem _ hd'), pendingIds := hids.2 }
  obtain ⟨h₁, hext, o, ho, hnames⟩ := hpop.build hr
  have hne : ∀ {id o}, (r.build { G with deferredGlobs := rest }).2.obj? id = some o → o.kind ≠ .dummy → id ≠ d.2 := by
    rintro id o ho hkind rfl
    obtain rfl := Option.some.inj (ho.symm.trans (hext.obj hod))
    exact hkind hdummy
  refine (h₁.patch ⟨od, hext.obj hod, hdummy⟩ fun d' hd' => ?_).setGlobal hr
    (obj?_patch (hne ho (hnames.ne_dummy hr)) ho) (hnames.replace hr)
  -- an entry of the queue has been in it before, or is new
  rcases hext.queue d' hd' with hmem | hle
  · rintro heq
    exact hids.1 (heq ▸ List.mem_map_of_mem hmem)
  · exact (Nat.ne_of_lt (Nat.lt_of_lt_of_le (obj?_lt h hod) hle)).symm

theorem Globals.Named.lookup {fuel : Nat} {p : Nat × Globals} (h : G.Named M)
    (hl : lookupGlobal M fuel nm G = .ok p) : p.2.Named M :=
  lookupGlobal_invariant (P := fun _ _ => True) (fun _ _ hr _ hG => hG.afterRequest hr)
    (fun _ _ _ _ hq hr _ hG => hG.afterDeferred hq hr) (fun _ _ => trivial) h hl

/-- **Names.** The object of a symbol. -/
theorem lookupGlobal_names {fuel : Nat} {p : Nat × Globals} (h : G.Named M)
    (hl : lookupGlobal M fuel nm G = .ok p) :
    ∃ r o, M.resolve (demangle nm) = some r ∧ p.2.obj? p.1 = some o ∧ r.Names M o :=
  (h.lookup hl).mapped _ (lookupGlobal_entry hl)

end BpfTv
