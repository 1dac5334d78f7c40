import BpfTv.Lifter.GlobalLookup

/-!
# The objects behind the globals

The invariant of the deferred globals on the objects of the module (`Globals.WF`): each object but
the lifted function belongs to one entry of `LLVMglobals` or of the queue, an entry of `LLVMglobals`
is what its name stands for, and an entry of the queue is a placeholder. While a deferred global is
built, its own entry has left the queue and its placeholder is still there; the argument `cur` of the
invariant holds that entry.
-/

namespace BpfTv

variable {M : ModuleInfo} {G G' : Globals} {cur L L' : List (String × Nat)} {n sym : String}
  {id : Nat} {r : Resolution} {o : GlobalObj}

/-- The entries of `LLVMglobals`, of `cur` and of the queue. -/
def Globals.known (G : Globals) (cur : List (String × Nat)) : List (String × Nat) :=
  G.LLVMglobals ++ (cur ++ G.deferredGlobs)

/-- An item of an initializer refers to the object of its symbol and keeps the offset. -/
inductive ItemOf (L : List (String × Nat)) : RODataItem → InitItem → Prop
  | byte (b : BitVec 8) : ItemOf L (.byte b) (.byte b)
  | offsetSym {sym : String} {t : Nat} (offset : Int) (h : (demangle sym, t) ∈ L) :
    ItemOf L (.offsetSym sym offset) (.ptr t offset)

theorem ItemOf.mono {item : RODataItem} {v : InitItem} (hL : L ⊆ L') (h : ItemOf L item v) :
    ItemOf L' item v := by
  cases h with
  | byte b => exact ItemOf.byte b
  | offsetSym offset h => exact ItemOf.offsetSym offset (hL h)

/-- Functions and declarations have no initializer. -/
def GlobalKind.Plain : GlobalKind → Prop
  | .function _ => True
  | .declaration _ _ => True
  | .data _ _ _ => False
  | .dummy => False

theorem GlobalKind.Plain.ne_dummy {kind : GlobalKind} (h : kind.Plain) : kind ≠ .dummy := by
  rintro rfl
  exact h

/-- The object is what `r` says. -/
def Resolution.Matches (L : List (String × Nat)) (o : GlobalObj) : Resolution → Prop
  | .liftedFn => o.id = liftedFnId ∧ o.kind.Plain
  | .object name kind => o.id ≠ liftedFnId ∧ o.name = name ∧ o.kind = kind
  | .data g => o.id ≠ liftedFnId ∧ o.name = demangle g.name ∧
    ∃ items, o.kind = .data items g.isConstant g.align ∧ List.Forall₂ (ItemOf L) g.data items

theorem Resolution.Matches.mono (hL : L ⊆ L') (h : r.Matches L o) : r.Matches L' o := by
  cases r with
  | liftedFn => exact h
  | object name kind => exact h
  | data g =>
    obtain ⟨hid, hname, items, hkind, hitems⟩ := h
    exact ⟨hid, hname, items, hkind, hitems.imp fun _ _ hitem => hitem.mono hL⟩

theorem resolve_object_plain {name : String} {kind : GlobalKind}
    (h : M.resolve n = some (.object name kind)) : kind.Plain := by
  unfold ModuleInfo.resolve at h
  simp only at h
  split at h
  · cases h
    trivial
  split at h
  · cases h
  split at h
  · cases h
    trivial
  split at h
  · cases h
  split at h
  · cases h
    trivial
  split at h
  · cases h
    trivial
  · cases h

theorem Resolution.Matches.kind_ne_dummy (hr : M.resolve n = some r) (h : r.Matches L o) :
    o.kind ≠ .dummy := by
  intro hdummy
  cases r with
  | liftedFn => exact h.2.ne_dummy hdummy
  | object name kind => exact (resolve_object_plain hr).ne_dummy (h.2.2 ▸ hdummy)
  | data g =>
    obtain ⟨_, _, items, hkind, _⟩ := h
    rw [hkind] at hdummy
    cases hdummy

/-- The invariant; `cur` is the entry that is being processed. -/
structure Globals.WF (M : ModuleInfo) (cur : List (String × Nat)) (G : Globals) : Prop where
  fresh : ∀ o ∈ G.objs, o.id < G.nextId
  nodup : (G.objs.map GlobalObj.id).Nodup
  self : ∃ o ∈ G.objs, o.id = liftedFnId ∧ o.kind.Plain
  pending : ∀ d ∈ cur ++ G.deferredGlobs, ∃ o ∈ G.objs, o.id = d.2 ∧ o.kind = .dummy
  pendingIds : ((cur ++ G.deferredGlobs).map Prod.snd).Nodup
  mapped : ∀ e ∈ G.LLVMglobals, ∃ r, M.resolve e.1 = some r ∧
    ∃ o ∈ G.objs, o.id = e.2 ∧ r.Matches (G.known cur) o
  owned : ∀ o ∈ G.objs, o.id = liftedFnId ∨ ∃ n, (n, o.id) ∈ G.known cur
  ids : ∀ p ∈ G.known cur, ∀ q ∈ G.known cur, p.2 = q.2 → p.2 ≠ liftedFnId → p.1 = q.1

theorem Globals.WF.obj_unique {o' : GlobalObj} (h : G.WF M cur) (ho : o ∈ G.objs) (ho' : o' ∈ G.objs)
    (hid : o.id = o'.id) : o = o' :=
  List.inj_on_of_nodup_map h.nodup ho ho' hid

theorem Globals.WF.known_obj {p : String × Nat} (h : G.WF M cur) (hp : p ∈ G.known cur) :
    ∃ o ∈ G.objs, o.id = p.2 := by
  rcases List.mem_append.mp hp with hp | hp
  · obtain ⟨_, _, o, ho, hid, _⟩ := h.mapped p hp
    exact ⟨o, ho, hid⟩
  · obtain ⟨o, ho, hid, _⟩ := h.pending p hp
    exact ⟨o, ho, hid⟩

theorem Globals.WF.known_lt {p : String × Nat} (h : G.WF M cur) (hp : p ∈ G.known cur) :
    p.2 < G.nextId := by
  obtain ⟨o, ho, hid⟩ := h.known_obj hp
  exact hid ▸ h.fresh o ho

theorem Globals.WF.mapped_ne_pending {e d : String × Nat} (h : G.WF M cur) (he : e ∈ G.LLVMglobals)
    (hd : d ∈ cur ++ G.deferredGlobs) : e.2 ≠ d.2 := by
  intro heq
  obtain ⟨r, hr, o, ho, hid, hmatch⟩ := h.mapped e he
  obtain ⟨o', ho', hid', hdummy⟩ := h.pending d hd
  obtain rfl := h.obj_unique ho ho' (by rw [hid, hid', heq])
  exact hmatch.kind_ne_dummy hr hdummy

theorem Globals.WF.pending_ne_liftedFn {d : String × Nat} (h : G.WF M cur)
    (hd : d ∈ cur ++ G.deferredGlobs) : d.2 ≠ liftedFnId := by
  intro heq
  obtain ⟨o, ho, hid, hkind⟩ := h.self
  obtain ⟨o', ho', hid', hdummy⟩ := h.pending d hd
  obtain rfl := h.obj_unique ho ho' (by rw [hid, hid', heq])
  exact hkind.ne_dummy hdummy

theorem Globals.WF.dummy_pending (h : G.WF M cur) (ho : o ∈ G.objs) (hdummy : o.kind = .dummy) :
    ∃ d ∈ cur ++ G.deferredGlobs, d.2 = o.id := by
  rcases h.owned o ho with hself | ⟨n, hn⟩
  · obtain ⟨o', ho', hid', hkind⟩ := h.self
    obtain rfl := h.obj_unique ho ho' (by rw [hself, hid'])
    exact absurd hdummy hkind.ne_dummy
  · rcases List.mem_append.mp hn with hn | hn
    · obtain ⟨r, hr, o', ho', hid', hmatch⟩ := h.mapped _ hn
      obtain rfl := h.obj_unique ho ho' hid'.symm
      exact absurd hdummy (hmatch.kind_ne_dummy hr)
    · exact ⟨_, hn, rfl⟩

theorem Globals.WF.nodup_create (h : G.WF M cur) (name : String) (kind : GlobalKind) :
    ((G.create name kind).2.objs.map GlobalObj.id).Nodup := by
  show ((G.objs ++ [(⟨G.nextId, name, kind⟩ : GlobalObj)]).map GlobalObj.id).Nodup
  rw [List.map_append]
  refine List.nodup_append.mpr ⟨h.nodup, List.nodup_singleton _, ?_⟩
  rintro a ha b hb rfl
  obtain ⟨o, ho, rfl⟩ := List.mem_map.mp ha
  exact Nat.ne_of_lt (h.fresh o ho) (List.mem_singleton.mp hb)

theorem wf_init (M : ModuleInfo) : (Globals.init M).WF M [] where
  fresh := by simp [Globals.init, liftedFnId]
  nodup := by simp [Globals.init]
  self := ⟨_, List.mem_cons_self .., rfl, trivial⟩
  pending := by simp [Globals.init]
  pendingIds := by simp [Globals.init]
  mapped := by simp [Globals.init]
  owned := by simp [Globals.init]
  ids := by simp [Globals.init, Globals.known]

/-! ## Items -/

/-- A new placeholder joins the queue. -/
def Globals.defer (G : Globals) (sym : String) : Globals :=
  { (G.create (sym ++ "_tmp") .dummy).2 with
    deferredGlobs := G.deferredGlobs ++ [(demangle sym, G.nextId)] }

theorem known_defer (sym : String) : (G.defer sym).known cur =
    G.LLVMglobals ++ (cur ++ (G.deferredGlobs ++ [(demangle sym, G.nextId)])) := rfl

theorem known_subset_defer (sym : String) : G.known cur ⊆ (G.defer sym).known cur := by
  intro p hp
  rw [known_defer, ← List.append_assoc, ← List.append_assoc]
  rw [Globals.known, ← List.append_assoc] at hp
  exact List.mem_append_left _ hp

theorem mem_known_defer {p : String × Nat} (h : p ∈ (G.defer sym).known cur) :
    p ∈ G.known cur ∨ p = (demangle sym, G.nextId) := by
  rw [known_defer, ← List.append_assoc, ← List.append_assoc] at h
  rw [Globals.known, ← List.append_assoc]
  rcases List.mem_append.mp h with h | h
  · exact Or.inl h
  · exact Or.inr (List.mem_singleton.mp h)

theorem defer_mem_known (G : Globals) (cur : List (String × Nat)) (sym : String) :
    (demangle sym, G.nextId) ∈ (G.defer sym).known cur := by
  simp [known_defer]

theorem Globals.WF.defer (h : G.WF M cur) (sym : String) : (G.defer sym).WF M cur where
  fresh := by
    intro o ho
    rcases List.mem_append.mp ho with ho | ho
    · exact Nat.lt_succ_of_lt (h.fresh o ho)
    · rw [List.mem_singleton.mp ho]
      exact Nat.lt_succ_self _
  nodup := h.nodup_create _ _
  self := by
    obtain ⟨o, ho, hself⟩ := h.self
    exact ⟨o, List.mem_append_left _ ho, hself⟩
  pending := by
    show ∀ d ∈ cur ++ (G.deferredGlobs ++ [(demangle sym, G.nextId)]), _
    intro d hd
    rw [← List.append_assoc] at hd
    rcases List.mem_append.mp hd with hd | hd
    · obtain ⟨o, ho, hdummy⟩ := h.pending d hd
      exact ⟨o, List.mem_append_left _ ho, hdummy⟩
    · rw [List.mem_singleton.mp hd]
      exact ⟨_, List.mem_append_right _ (List.mem_singleton_self _), rfl, rfl⟩
  pendingIds := by
    show ((cur ++ (G.deferredGlobs ++ [(demangle sym, G.nextId)])).map Prod.snd).Nodup
    rw [← List.append_assoc, List.map_append]
    refine List.nodup_append.mpr ⟨h.pendingIds, List.nodup_singleton _, ?_⟩
    rintro a ha b hb rfl
    obtain ⟨d, hd, rfl⟩ := List.mem_map.mp ha
    exact Nat.ne_of_lt (h.known_lt (List.mem_append_right _ hd)) (List.mem_singleton.mp hb)
  mapped := by
    intro e he
    obtain ⟨r, hr, o, ho, hid, hmatch⟩ := h.mapped e he
    exact ⟨r, hr, o, List.mem_append_left _ ho, hid, hmatch.mono (known_subset_defer sym)⟩
  owned := by
    intro o ho
    rcases List.mem_append.mp ho with ho | ho
    · exact (h.owned o ho).imp_right fun ⟨n, hn⟩ => ⟨n, known_subset_defer sym hn⟩
    · rw [List.mem_singleton.mp ho]
      exact Or.inr ⟨_, defer_mem_known G cur sym⟩
  ids := by
    intro p hp q hq heq hself
    rcases mem_known_defer hp with hp | rfl
    · rcases mem_known_defer hq with hq | rfl
      · exact h.ids p hp q hq heq hself
      · exact absurd heq (Nat.ne_of_lt (h.known_lt hp))
    · rcases mem_known_defer hq with hq | rfl
      · exact absurd heq.symm (Nat.ne_of_lt (h.known_lt hq))
      · rfl

/-- The name is neither in `LLVMglobals` nor queued. -/
def Globals.Unknown (G : Globals) (n : String) : Prop := n ∉ G.names.done ∧ n ∉ G.names.queue

/-- The item is spelled like its name, or its spelling is not found. -/
def Globals.ItemOk (G : Globals) (sym : String) : Prop := demangle sym = sym ∨ G.Unknown sym

instance (G : Globals) (n : String) : Decidable (G.Unknown n) :=
  inferInstanceAs (Decidable (n ∉ G.names.done ∧ n ∉ G.names.queue))

instance (G : Globals) (sym : String) : Decidable (G.ItemOk sym) :=
  inferInstanceAs (Decidable (demangle sym = sym ∨ G.Unknown sym))

theorem refSym_cases (cur : List (String × Nat)) (hok : G.ItemOk sym) :
    (G.refSym sym).2 = G ∧ (demangle sym, (G.refSym sym).1) ∈ G.known cur ∨
      G.Unknown sym ∧ G.refSym sym = (G.nextId, G.defer sym) := by
  unfold Globals.refSym
  cases hf : G.find? sym with
  | some id =>
    have hdone : sym ∈ G.names.done := List.mem_map_of_mem (f := Prod.fst) (mem_of_find? hf)
    have hplain := hok.resolve_right fun h => h.1 hdone
    exact Or.inl ⟨rfl, List.mem_append_left _ (hplain.symm ▸ mem_of_find? hf)⟩
  | none =>
    have hdone := find?_eq_none_iff.mp hf
    cases hd : G.deferredGlobs.find? fun d => d.1 = sym with
    | some d =>
      have hmem := List.mem_of_find?_eq_some hd
      have hname : d.1 = sym := by simpa using List.find?_some hd
      have hqueue : sym ∈ G.names.queue := hname ▸ List.mem_map_of_mem hmem
      have hplain := hok.resolve_right fun h => h.2 hqueue
      refine Or.inl ⟨rfl, List.mem_append_right _ (List.mem_append_right _ ?_)⟩
      rw [hplain, ← hname]
      exact hmem
    | none =>
      refine Or.inr ⟨⟨hdone, fun hqueue => ?_⟩, rfl⟩
      obtain ⟨d, hmem, hname⟩ := List.mem_map.mp hqueue
      exact List.find?_eq_none.mp hd d hmem (by simpa using hname)

theorem Globals.WF.refSym (h : G.WF M cur) (hok : G.ItemOk sym) :
    (G.refSym sym).2.WF M cur ∧ (demangle sym, (G.refSym sym).1) ∈ (G.refSym sym).2.known cur ∧
      G.known cur ⊆ (G.refSym sym).2.known cur := by
  rcases refSym_cases cur hok with ⟨heq, hmem⟩ | ⟨_, heq⟩
  · rw [heq]
    exact ⟨h, hmem, List.Subset.refl _⟩
  · rw [heq]
    exact ⟨h.defer sym, defer_mem_known G cur sym, known_subset_defer sym⟩

/-- Every item of an initializer meets `P` in the module in which it is looked at. -/
def Globals.EachItem (P : Globals → String → Prop) : Globals → List RODataItem → Prop
  | _, [] => True
  | G, .byte _ :: data => G.EachItem P data
  | G, .offsetSym sym _ :: data => P G sym ∧ (G.refSym sym).2.EachItem P data

instance Globals.decEachItem (P : Globals → String → Prop) [∀ G sym, Decidable (P G sym)] :
    ∀ (G : Globals) (data : List RODataItem), Decidable (G.EachItem P data)
  | _, [] => isTrue trivial
  | G, .byte _ :: data => decEachItem P G data
  | G, .offsetSym sym _ :: data => @instDecidableAnd _ _ _ (decEachItem P (G.refSym sym).2 data)

theorem Globals.EachItem.imp {P Q : Globals → String → Prop} (hPQ : ∀ G sym, P G sym → Q G sym)
    {data : List RODataItem} (h : G.EachItem P data) : G.EachItem Q data := by
  induction data generalizing G with
  | nil => trivial
  | cons item data ih =>
    cases item with
    | byte b => exact ih h
    | offsetSym sym offset => exact ⟨hPQ _ _ h.1, ih h.2⟩

theorem Globals.WF.initItems {data : List RODataItem} (h : G.WF M cur)
    (hok : G.EachItem Globals.ItemOk data) :
    (G.initItems data).2.WF M cur ∧ G.known cur ⊆ (G.initItems data).2.known cur ∧
      List.Forall₂ (ItemOf ((G.initItems data).2.known cur)) data (G.initItems data).1 := by
  induction data generalizing G with
  | nil => exact ⟨h, List.Subset.refl _, List.Forall₂.nil⟩
  | cons item data ih =>
    cases item with
    | byte b =>
      obtain ⟨hwf, hsub, hitems⟩ := ih h hok
      exact ⟨hwf, hsub, List.Forall₂.cons (ItemOf.byte b) hitems⟩
    | offsetSym sym offset =>
      obtain ⟨hwf₁, hmem, hsub₁⟩ := h.refSym hok.1
      obtain ⟨hwf, hsub, hitems⟩ := ih hwf₁ hok.2
      exact ⟨hwf, List.Subset.trans hsub₁ hsub,
        List.Forall₂.cons (ItemOf.offsetSym offset (hsub hmem)) hitems⟩

/-! ## Building a global -/

/-- A new object that is what its name stands for is entered into `LLVMglobals`. -/
theorem Globals.WF.create {name : String} {kind : GlobalKind} (h : G.WF M cur)
    (hr : M.resolve n = some r) (hmatch : r.Matches (G.known cur) ⟨G.nextId, name, kind⟩) :
    ((G.create name kind).2.setGlobal n G.nextId).WF M cur := by
  have hsub : G.known cur ⊆ ((G.create name kind).2.setGlobal n G.nextId).known cur :=
    List.subset_cons_self _ _
  refine
    { fresh := ?_
      nodup := h.nodup_create name kind
      self := ?_
      pending := ?_
      pendingIds := h.pendingIds
      mapped := ?_
      owned := ?_
      ids := ?_ }
  · intro o ho
    rcases List.mem_append.mp ho with ho | ho
    · exact Nat.lt_succ_of_lt (h.fresh o ho)
    · rw [List.mem_singleton.mp ho]
      exact Nat.lt_succ_self _
  · obtain ⟨o, ho, hself⟩ := h.self
    exact ⟨o, List.mem_append_left _ ho, hself⟩
  · intro d hd
    obtain ⟨o, ho, hdummy⟩ := h.pending d hd
    exact ⟨o, List.mem_append_left _ ho, hdummy⟩
  · intro e he
    rcases List.mem_cons.mp he with rfl | he
    · exact ⟨r, hr, _, List.mem_append_right _ (List.mem_singleton_self _), rfl, hmatch.mono hsub⟩
    · obtain ⟨r', hr', o, ho, hid, hmatch'⟩ := h.mapped e he
      exact ⟨r', hr', o, List.mem_append_left _ ho, hid, hmatch'.mono hsub⟩
  · intro o ho
    rcases List.mem_append.mp ho with ho | ho
    · exact (h.owned o ho).imp_right fun ⟨m, hm⟩ => ⟨m, hsub hm⟩
    · rw [List.mem_singleton.mp ho]
      exact Or.inr ⟨n, List.mem_cons_self ..⟩
  · intro p hp q hq heq hself
    rcases List.mem_cons.mp hp with rfl | hp
    · rcases List.mem_cons.mp hq with rfl | hq
      · rfl
      · exact absurd heq.symm (Nat.ne_of_lt (h.known_lt hq))
    · rcases List.mem_cons.mp hq with rfl | hq
      · exact absurd heq (Nat.ne_of_lt (h.known_lt hp))
      · exact h.ids p hp q hq heq hself

theorem Globals.WF.setLiftedFn (h : G.WF M cur) (hr : M.resolve n = some .liftedFn) :
    (G.setGlobal n liftedFnId).WF M cur := by
  have hsub : G.known cur ⊆ (G.setGlobal n liftedFnId).known cur := List.subset_cons_self _ _
  refine
    { fresh := h.fresh
      nodup := h.nodup
      self := h.self
      pending := h.pending
      pendingIds := h.pendingIds
      mapped := ?_
      owned := fun o ho => (h.owned o ho).imp_right fun ⟨m, hm⟩ => ⟨m, hsub hm⟩
      ids := ?_ }
  · intro e he
    rcases List.mem_cons.mp he with rfl | he
    · obtain ⟨o, ho, hid, hkind⟩ := h.self
      exact ⟨_, hr, o, ho, hid, hid, hkind⟩
    · obtain ⟨r', hr', o, ho, hid, hmatch'⟩ := h.mapped e he
      exact ⟨r', hr', o, ho, hid, hmatch'.mono hsub⟩
  · intro p hp q hq heq hself
    rcases List.mem_cons.mp hp with rfl | hp
    · exact absurd rfl hself
    · rcases List.mem_cons.mp hq with rfl | hq
      · exact absurd heq hself
      · exact h.ids p hp q hq heq hself

/-- The items of the global behind a name meet `P`, each in the module in which it is looked at. -/
def ModuleInfo.EachItem (M : ModuleInfo) (P : Globals → String → Prop) (G : Globals) (n : String) :
    Prop :=
  match M.resolve n with
  | some (.data g) => G.EachItem P g.data
  | _ => True

instance (M : ModuleInfo) (P : Globals → String → Prop) [∀ G sym, Decidable (P G sym)] (G : Globals)
    (n : String) : Decidable (M.EachItem P G n) :=
  match h : M.resolve n with
  | some (.data g) => decidable_of_iff (G.EachItem P g.data) (by simp only [ModuleInfo.EachItem, h])
  | some .liftedFn => isTrue (by simp only [ModuleInfo.EachItem, h])
  | some (.object _ _) => isTrue (by simp only [ModuleInfo.EachItem, h])
  | none => isTrue (by simp only [ModuleInfo.EachItem, h])

theorem eachItem_of_resolve {P : Globals → String → Prop} {g : MCGlobal}
    (h : M.EachItem P G n) (hr : M.resolve n = some (.data g)) : G.EachItem P g.data := by
  simpa only [ModuleInfo.EachItem, hr] using h

theorem Globals.WF.nextId_ne (h : G.WF M cur) : G.nextId ≠ liftedFnId := by
  obtain ⟨o, ho, hid, _⟩ := h.self
  have hlt := h.fresh o ho
  rw [hid] at hlt
  exact Nat.ne_of_gt hlt

theorem Globals.WF.build (h : G.WF M cur) (hr : M.resolve n = some r)
    (hok : M.EachItem Globals.ItemOk G n) :
    ((r.build G).2.setGlobal n (r.build G).1).WF M cur := by
  cases r with
  | liftedFn => exact h.setLiftedFn hr
  | object name kind => exact h.create hr ⟨h.nextId_ne, rfl, rfl⟩
  | data g =>
    obtain ⟨hwf, _, hitems⟩ := h.initItems (eachItem_of_resolve hok hr)
    exact hwf.create hr ⟨hwf.nextId_ne, rfl, _, rfl, hitems⟩

/-! ## Replacing a placeholder -/

@[simp] theorem replace_id (old new : Nat) (o : GlobalObj) : (o.replace old new).id = o.id := by
  unfold GlobalObj.replace
  split <;> rfl

@[simp] theorem replace_name (old new : Nat) (o : GlobalObj) : (o.replace old new).name = o.name := by
  unfold GlobalObj.replace
  split <;> rfl

theorem replace_kind_dummy (old new : Nat) (o : GlobalObj) :
    (o.replace old new).kind = .dummy ↔ o.kind = .dummy := by
  unfold GlobalObj.replace
  split
  · rename_i hkind
    simp [hkind]
  · rfl

theorem replace_kind_plain (old new : Nat) (h : o.kind.Plain) :
    (o.replace old new).kind = o.kind := by
  unfold GlobalObj.replace
  split
  · rename_i hkind
    rw [hkind] at h
    exact h.elim
  · rfl

theorem ItemOf.replace {old new : Nat} {item : RODataItem} {v : InitItem} (h : ItemOf L item v)
    (hold : ∀ m, (m, old) ∈ L → (m, new) ∈ L') (hother : ∀ p ∈ L, p.2 ≠ old → p ∈ L') :
    ItemOf L' item (v.replace old new) := by
  cases h with
  | byte b => exact ItemOf.byte b
  | @offsetSym sym t offset hmem =>
    refine ItemOf.offsetSym offset ?_
    by_cases ht : t = old
    · rw [if_pos ht]
      exact hold _ (ht ▸ hmem)
    · rw [if_neg ht]
      exact hother _ hmem ht

theorem Resolution.Matches.replace {old new : Nat} (hr : M.resolve n = some r) (h : r.Matches L o)
    (hold : ∀ m, (m, old) ∈ L → (m, new) ∈ L') (hother : ∀ p ∈ L, p.2 ≠ old → p ∈ L') :
    r.Matches L' (o.replace old new) := by
  cases r with
  | liftedFn => exact ⟨by rw [replace_id, h.1], by rw [replace_kind_plain old new h.2]; exact h.2⟩
  | object name kind =>
    obtain ⟨hid, hname, rfl⟩ := h
    refine ⟨by rwa [replace_id], by rwa [replace_name], ?_⟩
    exact replace_kind_plain old new (resolve_object_plain hr)
  | data g =>
    obtain ⟨hid, hname, items, hkind, hitems⟩ := h
    refine ⟨by rwa [replace_id], by rwa [replace_name], items.map (InitItem.replace old new), ?_, ?_⟩
    · simp only [GlobalObj.replace, hkind]
    · rw [List.forall₂_map_right_iff]
      exact hitems.imp fun _ _ hitem => hitem.replace hold hother

theorem Globals.WF.patch {d : String × Nat} (h : G.WF M [d]) (hid : (d.1, id) ∈ G.LLVMglobals) :
    (G.patch d.2 id).WF M [] := by
  have hd : d ∈ [d] ++ G.deferredGlobs := List.mem_cons_self ..
  have hknown : ∀ p, p ∈ G.known [d] ↔ p ∈ (G.patch d.2 id).known [] ∨ p = d := by
    intro p
    simp only [Globals.known, List.mem_append, List.mem_singleton]
    tauto
  have hdk : d ∈ G.known [d] := (hknown d).mpr (Or.inr rfl)
  have hself := h.pending_ne_liftedFn hd
  have hold : ∀ m, (m, d.2) ∈ G.known [d] → (m, id) ∈ (G.patch d.2 id).known [] := by
    intro m hm
    obtain rfl : m = d.1 := h.ids _ hm _ hdk rfl hself
    exact List.mem_append_left _ hid
  have hother : ∀ p ∈ G.known [d], p.2 ≠ d.2 → p ∈ (G.patch d.2 id).known [] := by
    intro p hp hne
    exact ((hknown p).mp hp).resolve_right fun heq => hne (heq ▸ rfl)
  have hsub : ∀ p ∈ (G.patch d.2 id).known [], p ∈ G.known [d] := fun p hp => (hknown p).mpr (Or.inl hp)
  have hmem : ∀ o ∈ G.objs, o.id ≠ d.2 → o.replace d.2 id ∈ (G.patch d.2 id).objs := by
    intro o ho hne
    exact List.mem_map_of_mem (List.mem_filter.mpr ⟨ho, by simpa using hne⟩)
  have hfrom : ∀ o ∈ (G.patch d.2 id).objs, ∃ o' ∈ G.objs, o'.id ≠ d.2 ∧ o'.replace d.2 id = o := by
    intro o ho
    obtain ⟨o', ho', rfl⟩ := List.mem_map.mp ho
    obtain ⟨ho', hne⟩ := List.mem_filter.mp ho'
    exact ⟨o', ho', by simpa using hne, rfl⟩
  refine
    { fresh := ?_
      nodup := ?_
      self := ?_
      pending := ?_
      pendingIds := (List.nodup_cons.mp h.pendingIds).2
      mapped := ?_
      owned := ?_
      ids := fun p hp q hq => h.ids p (hsub p hp) q (hsub q hq) }
  · intro o ho
    obtain ⟨o', ho', _, rfl⟩ := hfrom o ho
    rw [replace_id]
    exact h.fresh o' ho'
  · have hids : (G.patch d.2 id).objs.map GlobalObj.id =
        (G.objs.filter fun o => o.id ≠ d.2).map GlobalObj.id := by
      rw [Globals.patch, List.map_map]
      exact List.map_congr_left fun o _ => replace_id d.2 id o
    rw [hids]
    exact h.nodup.sublist (List.filter_sublist.map _)
  · obtain ⟨o, ho, hoid, hkind⟩ := h.self
    refine ⟨_, hmem o ho (by rw [hoid]; exact hself.symm), by rwa [replace_id], ?_⟩
    rwa [replace_kind_plain _ _ hkind]
  · intro e he
    obtain ⟨o, ho, hoid, hdummy⟩ := h.pending e (List.mem_cons_of_mem _ he)
    refine ⟨_, hmem o ho ?_, by rwa [replace_id], (replace_kind_dummy _ _ o).mpr hdummy⟩
    rw [hoid]
    rintro heq
    exact (List.nodup_cons.mp h.pendingIds).1 (heq ▸ List.mem_map_of_mem he)
  · intro e he
    obtain ⟨r, hr, o, ho, hoid, hmatch⟩ := h.mapped e he
    refine ⟨r, hr, _, hmem o ho ?_, by rwa [replace_id], hmatch.replace hr hold hother⟩
    rw [hoid]
    exact h.mapped_ne_pending he hd
  · intro o ho
    obtain ⟨o', ho', hne, rfl⟩ := hfrom o ho
    rw [replace_id]
    exact (h.owned o' ho').imp_right fun ⟨m, hm⟩ => ⟨m, hother _ hm hne⟩

theorem Globals.WF.pop {d : String × Nat} {rest : List (String × Nat)} (h : G.WF M [])
    (hq : G.deferredGlobs = d :: rest) : ({ G with deferredGlobs := rest } : Globals).WF M [d] := by
  have hknown : ({ G with deferredGlobs := rest } : Globals).known [d] = G.known [] := by
    rw [Globals.known, Globals.known, hq]
    rfl
  have hpending : ([d] ++ rest : List (String × Nat)) = [] ++ G.deferredGlobs := by rw [hq]; rfl
  exact
    { fresh := h.fresh
      nodup := h.nodup
      self := h.self
      pending := hpending ▸ h.pending
      pendingIds := hpending ▸ h.pendingIds
      mapped := hknown ▸ h.mapped
      owned := hknown ▸ h.owned
      ids := hknown ▸ h.ids }

theorem Globals.WF.afterRequest (h : G.WF M []) (hr : M.resolve n = some r)
    (hok : M.EachItem Globals.ItemOk G n) : (G.afterRequest n r).WF M [] := h.build hr hok

theorem Globals.WF.afterDeferred {d : String × Nat} {rest : List (String × Nat)} (h : G.WF M [])
    (hq : G.deferredGlobs = d :: rest) (hr : M.resolve d.1 = some r)
    (hok : M.EachItem Globals.ItemOk { G with deferredGlobs := rest } d.1) :
    (G.afterDeferred d rest r).WF M [] :=
  ((h.pop hq).build hr hok).patch (List.mem_cons_self ..)

/-! ## Runs -/

/-- The calls of `lazyAddGlobal` by the loop: the module each one starts from and its name. -/
def Globals.loopBuilds (M : ModuleInfo) : Nat → Globals → List (Globals × String)
  | fuel, G =>
    match G.deferredGlobs with
    | [] => []
    | d :: rest =>
      match fuel with
      | 0 => []
      | fuel + 1 =>
        ({ G with deferredGlobs := rest }, d.1) ::
          match G.processDeferred M d rest with
          | .ok G => loopBuilds M fuel G
          | .error _ => []

/-- The calls of `lazyAddGlobal` by one call of `lookupGlobal`. -/
def lookupBuilds (M : ModuleInfo) (fuel : Nat) (nm : String) (G : Globals) : List (Globals × String) :=
  match G.find? (demangle nm), M.resolve (demangle nm) with
  | none, some r => (G, demangle nm) :: (G.afterRequest (demangle nm) r).loopBuilds M fuel
  | _, _ => []

/-- The calls of `lazyAddGlobal` by a sequence of calls of `lookupGlobal`. -/
def lookupAllBuilds (M : ModuleInfo) (fuel : Nat) : List String → Globals → List (Globals × String)
  | [], _ => []
  | nm :: nms, G =>
    lookupBuilds M fuel nm G ++
      match lookupGlobal M fuel nm G with
      | .ok (_, G) => lookupAllBuilds M fuel nms G
      | .error _ => []

section Invariant

variable {I : Globals → Prop} {P : Globals → String → Prop}

/-- What every iteration keeps that starts with a call with `P` is kept by the loop. -/
theorem processAll_invariant {fuel : Nat}
    (hdeferred : ∀ (G : Globals) d rest r, G.deferredGlobs = d :: rest → M.resolve d.1 = some r →
      P { G with deferredGlobs := rest } d.1 → I G → I (G.afterDeferred d rest r))
    (hP : ∀ b ∈ G.loopBuilds M fuel, P b.1 b.2) (hI : I G) (h : G.processAll M fuel = .ok G') :
    I G' := by
  induction fuel generalizing G with
  | zero =>
    cases hq : G.deferredGlobs with
    | nil =>
      rw [processAll_nil 0 hq, Except.ok.injEq] at h
      exact h ▸ hI
    | cons d rest =>
      rw [processAll_zero hq] at h
      cases h
  | succ fuel ih =>
    cases hq : G.deferredGlobs with
    | nil =>
      rw [processAll_nil _ hq, Except.ok.injEq] at h
      exact h ▸ hI
    | cons d rest =>
      rw [processAll_succ fuel hq] at h
      obtain ⟨G₁, hstep, h⟩ := except_bind_ok h
      rw [Globals.loopBuilds, hq] at hP
      simp only [hstep, List.forall_mem_cons] at hP
      obtain ⟨r, hr, rfl⟩ := processDeferred_ok.mp hstep
      exact ih hP.2 (hdeferred G d rest r hq hr hP.1 hI) h

theorem processAll_empty {fuel : Nat} (h : G.processAll M fuel = .ok G') : G'.deferredGlobs = [] := by
  induction fuel generalizing G with
  | zero =>
    cases hq : G.deferredGlobs with
    | nil =>
      rw [processAll_nil 0 hq, Except.ok.injEq] at h
      exact h ▸ hq
    | cons d rest =>
      rw [processAll_zero hq] at h
      cases h
  | succ fuel ih =>
    cases hq : G.deferredGlobs with
    | nil =>
      rw [processAll_nil _ hq, Except.ok.injEq] at h
      exact h ▸ hq
    | cons d rest =>
      rw [processAll_succ fuel hq] at h
      obtain ⟨G₁, _, h⟩ := except_bind_ok h
      exact ih h

theorem lookupGlobal_empty {fuel : Nat} {nm : String} {p : Nat × Globals} (hq : G.deferredGlobs = [])
    (h : lookupGlobal M fuel nm G = .ok p) : p.2.deferredGlobs = [] := by
  cases hf : G.find? (demangle nm) with
  | some id =>
    rw [lookupGlobal_known hf, Except.ok.injEq] at h
    exact h ▸ hq
  | none =>
    obtain ⟨r, _, _, hall⟩ := (lookupGlobal_new hf).mp h
    exact processAll_empty hall

theorem lookupAll_empty {fuel : Nat} {nms : List String} {p : List Nat × Globals}
    (hq : G.deferredGlobs = []) (h : lookupAll M fuel nms G = .ok p) : p.2.deferredGlobs = [] := by
  induction nms generalizing G p with
  | nil =>
    obtain rfl := Except.ok.inj h
    exact hq
  | cons nm nms ih =>
    obtain ⟨id, G₁, ids, h₁, h₂, _⟩ := lookupAll_cons.mp h
    exact ih (p := (ids, p.2)) (lookupGlobal_empty hq h₁) h₂

theorem lookupGlobal_invariant {fuel : Nat} {nm : String} {p : Nat × Globals}
    (hrequest : ∀ r, G.find? (demangle nm) = none → M.resolve (demangle nm) = some r →
      P G (demangle nm) → I G → I (G.afterRequest (demangle nm) r))
    (hdeferred : ∀ (G : Globals) d rest r, G.deferredGlobs = d :: rest → M.resolve d.1 = some r →
      P { G with deferredGlobs := rest } d.1 → I G → I (G.afterDeferred d rest r))
    (hP : ∀ b ∈ lookupBuilds M fuel nm G, P b.1 b.2) (hI : I G)
    (h : lookupGlobal M fuel nm G = .ok p) : I p.2 := by
  cases hf : G.find? (demangle nm) with
  | some id =>
    rw [lookupGlobal_known hf, Except.ok.injEq] at h
    exact h ▸ hI
  | none =>
    obtain ⟨r, hr, _, hall⟩ := (lookupGlobal_new hf).mp h
    simp only [lookupBuilds, hf, hr, List.forall_mem_cons] at hP
    exact processAll_invariant hdeferred hP.2 (hrequest r hf hr hP.1 hI) hall

theorem lookupAll_invariant {fuel : Nat} {nms : List String} {p : List Nat × Globals}
    (hrequest : ∀ (G : Globals), ∀ nm ∈ nms, ∀ r, G.deferredGlobs = [] → G.find? (demangle nm) = none →
      M.resolve (demangle nm) = some r → P G (demangle nm) → I G → I (G.afterRequest (demangle nm) r))
    (hdeferred : ∀ (G : Globals) d rest r, G.deferredGlobs = d :: rest → M.resolve d.1 = some r →
      P { G with deferredGlobs := rest } d.1 → I G → I (G.afterDeferred d rest r))
    (hP : ∀ b ∈ lookupAllBuilds M fuel nms G, P b.1 b.2) (hq : G.deferredGlobs = []) (hI : I G)
    (h : lookupAll M fuel nms G = .ok p) : I p.2 := by
  induction nms generalizing G p with
  | nil =>
    obtain rfl := Except.ok.inj h
    exact hI
  | cons nm nms ih =>
    obtain ⟨id, G₁, ids, h₁, h₂, _⟩ := lookupAll_cons.mp h
    simp only [lookupAllBuilds, h₁, List.forall_mem_append] at hP
    have hI₁ : I G₁ := lookupGlobal_invariant
      (fun r => hrequest G nm (List.mem_cons_self ..) r hq) hdeferred hP.1 hI h₁
    exact ih (p := (ids, p.2)) (fun G nm hnm => hrequest G nm (List.mem_cons_of_mem _ hnm)) hP.2
      (lookupGlobal_empty hq h₁) hI₁ h₂

end Invariant

end BpfTv
