import BpfTv.Lifter.GlobalObjects
import BpfTv.Mc.Blocks

/-!
# What `lookupGlobal` leaves behind

For names that demangle to themselves every call ends, without placeholders, and `LLVMglobals` holds
what is reachable from the requests. Each symbol has one object as long as no global that is built
refers to itself, and no reference that is spelled otherwise than its name is to a symbol that is
known already: such a reference defers the symbol once more, and it is lifted once more.
-/

namespace BpfTv

variable {M : ModuleInfo} {G G' : Globals} {n sym : String} {r : Resolution}

/-! ## The reachable closure -/

theorem eachItem_itemOk (hM : M.Spelled) (hp : G.Plain) (n : String) :
    M.EachItem Globals.ItemOk G n := by
  have hdata : ∀ (data : List RODataItem) (G : Globals), G.Plain →
      (∀ sym ∈ symsOf data, demangle (demangle sym) = demangle sym) → G.EachItem Globals.ItemOk data := by
    intro data
    induction data with
    | nil => exact fun _ _ _ => trivial
    | cons item data ih =>
      intro G hp hsyms
      cases item with
      | byte b => exact ih G hp hsyms
      | offsetSym sym offset =>
        obtain ⟨hsym, hsyms⟩ := List.forall_mem_cons.mp hsyms
        refine ⟨?_, ih _ (plain_of_names hp (by simpa using hsym) (refSym_names (M := M) sym hp)) hsyms⟩
        by_cases hd : demangle sym = sym
        · exact Or.inl hd
        · exact Or.inr ⟨fun h => hd (hp sym (Or.inl h)), fun h => hd (hp sym (Or.inr h))⟩
  unfold ModuleInfo.EachItem
  split
  · rename_i g hg
    refine hdata g.data G hp fun sym hsym => hM sym ?_
    exact List.mem_flatMap.mpr ⟨g, resolve_data_mem hg, hsym⟩
  · trivial

/-- The invariant of the objects holds between two calls. -/
theorem lookupAll_wf {fuel : Nat} {nms : List String} {p : List Nat × Globals} (hM : M.Spelled)
    (hnms : ∀ nm ∈ nms, demangle (demangle nm) = demangle nm)
    (h : lookupAll M fuel nms (Globals.init M) = .ok p) : p.2.WF M [] := by
  have hinv : p.2.WF M [] ∧ p.2.Plain := by
    refine lookupAll_invariant (P := fun _ _ => True) (I := fun G => G.WF M [] ∧ G.Plain) ?_ ?_
      (fun _ _ => trivial) rfl ⟨wf_init M, (idle_init M).plain⟩ h
    · rintro G nm hnm r _ _ hr _ ⟨hwf, hp⟩
      exact ⟨hwf.afterRequest hr (eachItem_itemOk hM hp _),
        setGlobal_plain (build_plain hM hp hr) (hnms nm hnm)⟩
    · rintro G d rest r hq hr _ ⟨hwf, hp⟩
      obtain ⟨_, hp'⟩ := afterDeferred_names hM hp hq hr
      have hpop : ({ G with deferredGlobs := rest } : Globals).Plain := by
        rintro m (hm | hm)
        · exact hp m (Or.inl hm)
        · exact hp m (Or.inr (by rw [Globals.names, hq]; exact List.mem_cons_of_mem _ hm))
      exact ⟨hwf.afterDeferred hq hr (eachItem_itemOk hM hpop _), hp'⟩
  exact hinv.1

/-- No object is a placeholder, and no initializer refers to one. -/
def Globals.NoPlaceholder (G : Globals) : Prop :=
  ∀ o ∈ G.objs, o.kind ≠ .dummy ∧ ∀ items isConstant align, o.kind = .data items isConstant align →
    ∀ t offset, InitItem.ptr t offset ∈ items → ∃ o' ∈ G.objs, o'.id = t ∧ o'.kind ≠ .dummy

theorem Globals.WF.noPlaceholder (h : G.WF M []) (hq : G.deferredGlobs = []) : G.NoPlaceholder := by
  have hkind : ∀ o ∈ G.objs, o.kind ≠ .dummy := by
    intro o ho hdummy
    obtain ⟨d, hd, _⟩ := h.dummy_pending ho hdummy
    rw [List.nil_append, hq] at hd
    cases hd
  have hknown : G.known [] = G.LLVMglobals := by
    rw [Globals.known, hq, List.append_nil, List.append_nil]
  intro o ho
  refine ⟨hkind o ho, fun items isConstant align hdata t offset ht => ?_⟩
  have hnotplain : ¬ o.kind.Plain := by
    rw [hdata]
    exact id
  rcases h.owned o ho with hid | ⟨n, hn⟩
  · obtain ⟨o', ho', hid', hplain⟩ := h.self
    obtain rfl := h.obj_unique ho ho' (by rw [hid, hid'])
    exact absurd hplain hnotplain
  · rw [hknown] at hn
    obtain ⟨r, hr, o', ho', hid', hmatch⟩ := h.mapped _ hn
    obtain rfl := h.obj_unique ho ho' hid'.symm
    cases r with
    | liftedFn => exact absurd hmatch.2 hnotplain
    | object name kind =>
      exact absurd (hmatch.2.2 ▸ resolve_object_plain hr) hnotplain
    | data g =>
      obtain ⟨_, _, items', hitems', hall⟩ := hmatch
      rw [hdata, GlobalKind.data.injEq] at hitems'
      obtain ⟨rfl, _, _⟩ := hitems'
      obtain ⟨item, _, hitem⟩ := mem_right_of_forall₂ hall ht
      cases hitem with
      | offsetSym _ hmem =>
        obtain ⟨o', ho', hid'⟩ := h.known_obj hmem
        exact ⟨o', ho', hid', hkind o' ho'⟩

/-- For names that demangle to themselves the calls return, the queue is empty then and no placeholder
is left, and `LLVMglobals` holds what is reachable from the requests. -/
theorem reachable_closure (M : ModuleInfo) (nms : List String)
    (hsyms : ∀ sym ∈ M.syms, demangle sym = sym) (hres : M.Resolves)
    (hnms : ∀ nm ∈ nms, demangle nm = nm) (hreq : ∀ nm ∈ nms, (M.resolve nm).isSome) :
    (∃ fuel p, lookupAll M fuel nms (Globals.init M) = .ok p) ∧
    ∀ fuel ids G, lookupAll M fuel nms (Globals.init M) = .ok (ids, G) →
      G.deferredGlobs = [] ∧ G.NoPlaceholder ∧ ∀ n, (G.find? n).isSome ↔
        ∃ nm ∈ nms, Relation.ReflTransGen (fun a b => b ∈ M.refs a) nm n := by
  have hM : M.Spelled := fun sym hsym => by rw [hsyms sym hsym, hsyms sym hsym]
  have hnms' : ∀ nm ∈ nms, demangle (demangle nm) = demangle nm := fun nm hnm => by
    rw [hnms nm hnm, hnms nm hnm]
  have hreq' : ∀ nm ∈ nms, (M.resolve (demangle nm)).isSome := fun nm hnm => by
    rw [hnms nm hnm]
    exact hreq nm hnm
  have hmap : nms.map demangle = nms := (List.map_congr_left hnms).trans (List.map_id nms)
  have hedge : M.refGraph.Edge = fun a b => b ∈ M.refs a := by
    funext a b
    refine propext ⟨?_, fun h => ⟨b, h, hsyms b (refs_subset_syms M a h)⟩⟩
    rintro ⟨sym, hsym, rfl⟩
    show demangle sym ∈ M.refs a
    rw [hsyms sym (refs_subset_syms M a hsym)]
    exact hsym
  constructor
  · have hbad : ∀ n, ¬ M.refGraph.Bad n := by
      rintro n ⟨c, _, hcycle⟩
      obtain ⟨_, ⟨sym, hsym, htracked, _⟩, _⟩ := Relation.TransGen.head'_iff.mp hcycle
      exact of_decide_eq_false htracked (hsyms sym (refs_subset_syms M c hsym))
    obtain ⟨done, hdone⟩ := (lookups_iff_not_bad M nms).mpr fun nm _ => hbad _
    exact exists_lookupAll hM hres (idle_init M) hnms' hreq' hdone
  · intro fuel ids G h
    obtain ⟨hidle, hlook⟩ := lookupAll_lookups hM (idle_init M) hnms' h
    refine ⟨hidle.empty, (lookupAll_wf hM hnms' h).noPlaceholder hidle.empty, fun n => ?_⟩
    have hfind : (G.find? n).isSome ↔ n ∈ G.names.done := by
      rw [← not_iff_not, ← find?_eq_none_iff, Option.not_isSome_iff_eq_none]
    rw [hmap] at hlook
    rw [hfind, hlook.mem_done fun _ hn => absurd hn List.not_mem_nil, ← hedge]
    exact or_iff_right List.not_mem_nil

/-- `a: .quad b; .quad a`, `b: .quad a+4` and `c: .byte 1`. -/
def cyclicGlobals : ModuleInfo := ModuleInfo.ofGlobals
  [{ name := "a", align := 8, section_ := ".data", data := [.offsetSym "b" 0, .offsetSym "a" 0] },
    { name := "b", align := 8, section_ := ".data", data := [.offsetSym "a" 4] },
    { name := "c", align := 1, section_ := ".rodata", data := [.byte 1#8] }]

theorem reachable_closure_cyclic :
    (∃ fuel p, lookupAll cyclicGlobals fuel ["b"] (Globals.init cyclicGlobals) = .ok p) ∧
    ∀ fuel ids G, lookupAll cyclicGlobals fuel ["b"] (Globals.init cyclicGlobals) = .ok (ids, G) →
      G.deferredGlobs = [] ∧ G.NoPlaceholder ∧ ∀ n, (G.find? n).isSome ↔
        ∃ nm ∈ ["b"], Relation.ReflTransGen (fun a b => b ∈ cyclicGlobals.refs a) nm n :=
  reachable_closure cyclicGlobals ["b"] (by decide +kernel) (by decide +kernel) (by decide +kernel)
    (by decide +kernel)

/-! ## One definition per symbol -/

/-- An item whose reference does not define its symbol once more while `n` is built: it does not
refer to `n`, and unless it is spelled like its name the symbol is not known yet. The lifted function
has one definition in any case. -/
def ModuleInfo.CleanItem (M : ModuleInfo) (n : String) (G : Globals) (sym : String) : Prop :=
  G.ItemOk sym ∧ demangle sym ≠ n ∧ (demangle sym = sym ∨ G.Unknown (demangle sym) ∨
    M.resolve (demangle sym) = some .liftedFn)

instance (M : ModuleInfo) (n : String) (G : Globals) (sym : String) : Decidable (M.CleanItem n G sym) :=
  inferInstanceAs (Decidable (G.ItemOk sym ∧ demangle sym ≠ n ∧ (demangle sym = sym ∨
    G.Unknown (demangle sym) ∨ M.resolve (demangle sym) = some .liftedFn)))

/-- Every item of the global behind `n` is clean, in a module in which `n` is about to be built. -/
def ModuleInfo.CleanBuild (M : ModuleInfo) (G : Globals) (n : String) : Prop :=
  M.EachItem (M.CleanItem n) G n

instance (M : ModuleInfo) (G : Globals) (n : String) : Decidable (M.CleanBuild G n) :=
  inferInstanceAs (Decidable (M.EachItem (M.CleanItem n) G n))

/-- All entries of a name are one object. -/
def Globals.Single (M : ModuleInfo) (G : Globals) : Prop :=
  ∀ p ∈ G.known [], ∀ q ∈ G.known [], p.1 = q.1 → M.resolve p.1 ≠ some .liftedFn → p.2 = q.2

theorem mem_known_names {p : String × Nat} (hp : p ∈ G.known []) : ¬ G.Unknown p.1 := by
  rintro ⟨hdone, hqueue⟩
  rcases List.mem_append.mp hp with hp | hp
  · exact hdone (List.mem_map_of_mem hp)
  · exact hqueue (List.mem_map_of_mem hp)

theorem unknown_defer (h : G.Unknown n) (hne : demangle sym ≠ n) : (G.defer sym).Unknown n := by
  refine ⟨h.1, fun hq => ?_⟩
  have hq' : n ∈ (G.deferredGlobs ++ [(demangle sym, G.nextId)]).map Prod.fst := hq
  rw [List.map_append, List.mem_append] at hq'
  rcases hq' with hq' | hq'
  · exact h.2 hq'
  · exact hne (List.mem_singleton.mp hq').symm

theorem Globals.Single.refSym (h : G.Single M) (hn : G.Unknown n) (hc : M.CleanItem n G sym) :
    (G.refSym sym).2.Single M ∧ (G.refSym sym).2.Unknown n := by
  obtain ⟨hok, hne, hclean⟩ := hc
  rcases refSym_cases [] hok with ⟨heq, _⟩ | ⟨hunknown, heq⟩
  · rw [heq]
    exact ⟨h, hn⟩
  · rw [heq]
    refine ⟨?_, unknown_defer hn hne⟩
    -- an entry of the name of the new one is only there for the lifted function
    have hnew : ∀ p ∈ G.known [], p.1 = demangle sym → M.resolve p.1 = some .liftedFn := by
      intro p hp hpname
      rcases hclean with hplain | hnone | hself
      · refine absurd ?_ (mem_known_names hp)
        rwa [hpname, hplain]
      · refine absurd ?_ (mem_known_names hp)
        rwa [hpname]
      · exact hpname ▸ hself
    intro p hp q hq hpq hself
    rcases mem_known_defer hp with hp | rfl
    · rcases mem_known_defer hq with hq | rfl
      · exact h p hp q hq hpq hself
      · exact absurd (hnew p hp hpq) hself
    · rcases mem_known_defer hq with hq | rfl
      · exact absurd (hnew q hq hpq.symm) (hpq ▸ hself)
      · rfl

theorem Globals.Single.initItems {data : List RODataItem} (h : G.Single M) (hn : G.Unknown n)
    (hc : G.EachItem (M.CleanItem n) data) :
    (G.initItems data).2.Single M ∧ (G.initItems data).2.Unknown n := by
  induction data generalizing G with
  | nil => exact ⟨h, hn⟩
  | cons item data ih =>
    cases item with
    | byte b => exact ih h hn hc
    | offsetSym sym offset =>
      obtain ⟨h₁, hn₁⟩ := h.refSym hn hc.1
      exact ih h₁ hn₁ hc.2

theorem Globals.Single.setGlobal {id : Nat} (h : G.Single M)
    (hn : G.Unknown n ∨ M.resolve n = some .liftedFn) : (G.setGlobal n id).Single M := by
  have hnew : ∀ p ∈ G.known [], p.1 = n → M.resolve p.1 = some .liftedFn := by
    rintro p hp rfl
    exact hn.resolve_left (mem_known_names hp)
  intro p hp q hq hpq hself
  rcases List.mem_cons.mp hp with rfl | hp
  · rcases List.mem_cons.mp hq with rfl | hq
    · rfl
    · exact absurd (hnew q hq hpq.symm) (hpq ▸ hself)
  · rcases List.mem_cons.mp hq with rfl | hq
    · exact absurd (hnew p hp hpq) hself
    · exact h p hp q hq hpq hself

theorem Globals.Single.build (h : G.Single M) (hr : M.resolve n = some r)
    (hn : G.Unknown n ∨ M.resolve n = some .liftedFn) (hc : M.CleanBuild G n) :
    ((r.build G).2.setGlobal n (r.build G).1).Single M := by
  cases r with
  | liftedFn => exact h.setGlobal hn
  | object name kind =>
    have hcreate : (G.create name kind).2.Single M := h
    exact hcreate.setGlobal hn
  | data g =>
    have hunknown := hn.resolve_right fun hself => by
      rw [hr] at hself
      cases hself
    obtain ⟨h₁, hn₁⟩ := h.initItems hunknown (eachItem_of_resolve hc hr)
    have hcreate : ((G.initItems g.data).2.create (demangle g.name)
        (.data (G.initItems g.data).1 g.isConstant g.align)).2.Single M := h₁
    exact hcreate.setGlobal (Or.inl hn₁)

theorem single_afterRequest (h : G.Single M) (hq : G.deferredGlobs = []) (hf : G.find? n = none)
    (hr : M.resolve n = some r) (hc : M.CleanBuild G n) : (G.afterRequest n r).Single M := by
  have hqueue : G.names.queue = [] := List.map_eq_nil_iff.mpr hq
  refine h.build hr (Or.inl ⟨find?_eq_none_iff.mp hf, ?_⟩) hc
  rw [hqueue]
  exact List.not_mem_nil

theorem unknown_of_pop {d : String × Nat} {rest : List (String × Nat)} (hwf : G.WF M [])
    (h : G.Single M) (hq : G.deferredGlobs = d :: rest) :
    ({ G with deferredGlobs := rest } : Globals).Unknown d.1 ∨ M.resolve d.1 = some .liftedFn := by
  by_cases hself : M.resolve d.1 = some .liftedFn
  · exact Or.inr hself
  have hd : d ∈ G.known [] := by
    rw [Globals.known, hq]
    exact List.mem_append_right _ (List.mem_cons_self ..)
  have hids := hwf.pendingIds
  rw [List.nil_append, hq] at hids
  refine Or.inl ⟨fun hmem => ?_, fun hmem => ?_⟩
  · obtain ⟨p, hp, hname⟩ := List.mem_map.mp hmem
    have heq := h d hd p (List.mem_append_left _ hp) hname.symm hself
    refine hwf.mapped_ne_pending hp ?_ heq.symm
    rw [List.nil_append, hq]
    exact List.mem_cons_self ..
  · obtain ⟨p, hp, hname⟩ := List.mem_map.mp hmem
    have hpk : p ∈ G.known [] := by
      rw [Globals.known, hq]
      exact List.mem_append_right _ (List.mem_cons_of_mem _ hp)
    have heq := h d hd p hpk hname.symm hself
    exact (List.nodup_cons.mp hids).1 (heq ▸ List.mem_map_of_mem hp)

theorem single_afterDeferred {d : String × Nat} {rest : List (String × Nat)} (hwf : G.WF M [])
    (h : G.Single M) (hq : G.deferredGlobs = d :: rest) (hr : M.resolve d.1 = some r)
    (hc : M.CleanBuild { G with deferredGlobs := rest } d.1) : (G.afterDeferred d rest r).Single M := by
  have hsub : ({ G with deferredGlobs := rest } : Globals).known [] ⊆ G.known [] := by
    intro p hp
    rw [Globals.known, hq]
    rcases List.mem_append.mp hp with hp | hp
    · exact List.mem_append_left _ hp
    · exact List.mem_append_right _ (List.mem_cons_of_mem _ hp)
  have hpop : ({ G with deferredGlobs := rest } : Globals).Single M := fun p hp q hq =>
    h p (hsub hp) q (hsub hq)
  have hbuild := hpop.build hr (unknown_of_pop hwf h hq) hc
  exact hbuild

theorem cleanBuild_ok (hc : M.CleanBuild G n) : M.EachItem Globals.ItemOk G n := by
  unfold ModuleInfo.CleanBuild ModuleInfo.EachItem at hc
  unfold ModuleInfo.EachItem
  split
  · rename_i g hg
    rw [hg] at hc
    exact hc.imp fun _ _ h => h.1
  · trivial

/-- The invariant of calls whose builds are all clean. -/
theorem lookupAll_single {fuel : Nat} {nms : List String} {p : List Nat × Globals}
    (hc : ∀ b ∈ lookupAllBuilds M fuel nms G, M.CleanBuild b.1 b.2) (hq : G.deferredGlobs = [])
    (hwf : G.WF M []) (hs : G.Single M) (h : lookupAll M fuel nms G = .ok p) :
    p.2.WF M [] ∧ p.2.Single M := by
  refine lookupAll_invariant (P := M.CleanBuild) (I := fun G => G.WF M [] ∧ G.Single M) ?_ ?_ hc hq
    ⟨hwf, hs⟩ h
  · rintro G nm _ r hq hf hr hc ⟨hwf, hs⟩
    exact ⟨hwf.afterRequest hr (cleanBuild_ok hc), single_afterRequest hs hq hf hr hc⟩
  · rintro G d rest r hq hr hc ⟨hwf, hs⟩
    exact ⟨hwf.afterDeferred hq hr (cleanBuild_ok hc), single_afterDeferred hwf hs hq hr hc⟩

theorem build_entries (r : Resolution) (G : Globals) : (r.build G).2.LLVMglobals = G.LLVMglobals := by
  have hitems : ∀ (data : List RODataItem) (G : Globals),
      (G.initItems data).2.LLVMglobals = G.LLVMglobals := by
    intro data
    induction data with
    | nil => exact fun _ => rfl
    | cons item data ih =>
      intro G
      cases item with
      | byte b => exact ih G
      | offsetSym sym offset =>
        refine (ih (G.refSym sym).2).trans ?_
        unfold Globals.refSym
        split
        · rfl
        · split <;> rfl
  cases r with
  | liftedFn => rfl
  | object name kind => rfl
  | data g => exact hitems g.data G

theorem afterDeferred_entries {e d : String × Nat} {rest : List (String × Nat)}
    (he : e ∈ G.LLVMglobals) : e ∈ (G.afterDeferred d rest r).LLVMglobals := by
  refine List.mem_cons_of_mem _ ?_
  show e ∈ (r.build { G with deferredGlobs := rest }).2.LLVMglobals
  rwa [build_entries]

theorem lookupAll_entries {fuel : Nat} {nms : List String} {p : List Nat × Globals}
    {e : String × Nat} (he : e ∈ G.LLVMglobals) (hq : G.deferredGlobs = [])
    (h : lookupAll M fuel nms G = .ok p) : e ∈ p.2.LLVMglobals := by
  refine lookupAll_invariant (P := fun _ _ => True) (I := fun G => e ∈ G.LLVMglobals) ?_ ?_
    (fun _ _ => trivial) hq he h
  · intro G nm _ r _ _ _ _ he
    exact List.mem_cons_of_mem _ (build_entries r G ▸ he)
  · exact fun G d rest r _ _ _ he => afterDeferred_entries he

theorem lookupGlobal_entry {fuel : Nat} {nm : String} {p : Nat × Globals}
    (h : lookupGlobal M fuel nm G = .ok p) : (demangle nm, p.1) ∈ p.2.LLVMglobals := by
  cases hf : G.find? (demangle nm) with
  | some id =>
    rw [lookupGlobal_known hf, Except.ok.injEq] at h
    exact h ▸ mem_of_find? hf
  | none =>
    obtain ⟨r, _, hid, hall⟩ := (lookupGlobal_new hf).mp h
    refine processAll_invariant (P := fun _ _ => True)
      (I := fun G => (demangle nm, p.1) ∈ G.LLVMglobals) ?_ (fun _ _ => trivial) ?_ hall
    · exact fun G d rest r _ _ _ he => afterDeferred_entries he
    · rw [hid]
      exact List.mem_cons_self ..

theorem lookupAll_answers {fuel : Nat} {nms : List String} {ids : List Nat}
    (hq : G.deferredGlobs = []) (h : lookupAll M fuel nms G = .ok (ids, G')) :
    List.Forall₂ (fun nm id => (demangle nm, id) ∈ G'.LLVMglobals) nms ids := by
  induction nms generalizing G ids with
  | nil =>
    obtain ⟨rfl, _⟩ := Prod.mk.inj (Except.ok.inj h)
    exact List.Forall₂.nil
  | cons nm nms ih =>
    obtain ⟨id, G₁, ids', h₁, h₂, rfl⟩ := lookupAll_cons.mp h
    have hq₁ := lookupGlobal_empty hq h₁
    exact List.Forall₂.cons (lookupAll_entries (lookupGlobal_entry h₁) hq₁ h₂) (ih hq₁ h₂)

/-- The global that an item refers to is the one of its symbol, at the offset of the item. -/
inductive ItemRefers (G : Globals) : RODataItem → InitItem → Prop
  | byte (b : BitVec 8) : ItemRefers G (.byte b) (.byte b)
  | offsetSym {sym : String} {t : Nat} (offset : Int) (h : G.find? (demangle sym) = some t) :
    ItemRefers G (.offsetSym sym offset) (.ptr t offset)

/-- Each symbol has one global: every object but the lifted function is the global of one symbol, the
global of a symbol is one object, the calls returned it, and the items of the initializers refer
to it. -/
structure OneDefinition (M : ModuleInfo) (nms : List String) (ids : List Nat) (G : Globals) : Prop where
  owner : ∀ o ∈ G.objs, o.id ≠ liftedFnId → ∃! n, G.find? n = some o.id
  object : ∀ n id, G.find? n = some id → ∃! o, o ∈ G.objs ∧ o.id = id
  answers : List.Forall₂ (fun nm id => G.find? (demangle nm) = some id) nms ids
  items : ∀ n g id, M.resolve n = some (.data g) → G.find? n = some id →
    ∃ o ∈ G.objs, o.id = id ∧ ∃ items, o.kind = .data items g.isConstant g.align ∧
      List.Forall₂ (ItemRefers G) g.data items

theorem Globals.Single.find?_eq {id : Nat} (h : G.Single M) (hwf : G.WF M [])
    (he : (n, id) ∈ G.LLVMglobals) : G.find? n = some id := by
  have hn : n ∈ G.names.done := List.mem_map_of_mem (f := Prod.fst) he
  obtain ⟨id', hid'⟩ := Option.ne_none_iff_exists'.mp fun hnone => find?_eq_none_iff.mp hnone hn
  rw [hid', Option.some_inj]
  have he' := mem_of_find? hid'
  by_cases hself : M.resolve n = some .liftedFn
  · have hzero : ∀ k, (n, k) ∈ G.LLVMglobals → k = liftedFnId := by
      intro k hk
      obtain ⟨r, hr, o, _, rfl, hmatch⟩ := hwf.mapped _ hk
      obtain rfl := Option.some_inj.mp (hself.symm.trans hr)
      exact hmatch.1
    rw [hzero id he, hzero id' he']
  · exact h _ (List.mem_append_left _ he') _ (List.mem_append_left _ he) rfl hself

theorem oneDefinition_of_single {nms : List String} {ids : List Nat} (hwf : G.WF M [])
    (hs : G.Single M) (hq : G.deferredGlobs = [])
    (hans : List.Forall₂ (fun nm id => (demangle nm, id) ∈ G.LLVMglobals) nms ids) :
    OneDefinition M nms ids G := by
  have hknown : G.known [] = G.LLVMglobals := by
    rw [Globals.known, hq, List.append_nil, List.append_nil]
  refine
    { owner := ?_
      object := ?_
      answers := hans.imp fun _ _ he => hs.find?_eq hwf he
      items := ?_ }
  · intro o ho hself
    obtain ⟨n, hn⟩ := (hwf.owned o ho).resolve_left hself
    refine ⟨n, hs.find?_eq hwf (hknown ▸ hn), fun m hm => ?_⟩
    exact hwf.ids (m, o.id) (hknown ▸ mem_of_find? hm) (n, o.id) hn rfl hself
  · intro n id hf
    obtain ⟨r, _, o, ho, hid, _⟩ := hwf.mapped _ (mem_of_find? hf)
    exact ⟨o, ⟨ho, hid⟩, fun o' ho' => hwf.obj_unique ho'.1 ho (by rw [hid, ho'.2])⟩
  · intro n g id hr hf
    obtain ⟨r, hr', o, ho, hid, hmatch⟩ := hwf.mapped _ (mem_of_find? hf)
    obtain rfl := Option.some_inj.mp (hr.symm.trans hr')
    obtain ⟨_, _, items, hkind, hitems⟩ := hmatch
    refine ⟨o, ho, hid, items, hkind, hitems.imp fun item v hitem => ?_⟩
    cases hitem with
    | byte b => exact ItemRefers.byte b
    | offsetSym offset hmem => exact ItemRefers.offsetSym offset (hs.find?_eq hwf (hknown ▸ hmem))

/-! ## Clean calls return -/

theorem build_deferred {d : String × Nat} (r : Resolution) (G : Globals) (hr : M.resolve n = some r)
    (hd : d ∈ (r.build G).2.deferredGlobs) :
    d ∈ G.deferredGlobs ∨ ∃ sym ∈ M.syms, demangle sym = d.1 := by
  have hitems : ∀ (data : List RODataItem) (G : Globals), d ∈ (G.initItems data).2.deferredGlobs →
      d ∈ G.deferredGlobs ∨ ∃ sym ∈ symsOf data, demangle sym = d.1 := by
    intro data
    induction data with
    | nil => exact fun _ h => Or.inl h
    | cons item data ih =>
      intro G h
      cases item with
      | byte b => exact ih G h
      | offsetSym sym offset =>
        rcases ih (G.refSym sym).2 h with h | ⟨sym', hsym', hd⟩
        · unfold Globals.refSym at h
          split at h
          · exact Or.inl h
          · split at h
            · exact Or.inl h
            · rcases List.mem_append.mp h with h | h
              · exact Or.inl h
              · exact Or.inr ⟨sym, List.mem_cons_self .., (List.mem_singleton.mp h) ▸ rfl⟩
        · exact Or.inr ⟨sym', List.mem_cons_of_mem _ hsym', hd⟩
  cases r with
  | liftedFn => exact Or.inl hd
  | object name kind => exact Or.inl hd
  | data g =>
    refine (hitems g.data G hd).imp_right fun ⟨sym, hsym, hdsym⟩ => ⟨sym, ?_, hdsym⟩
    exact List.mem_flatMap.mpr ⟨g, resolve_data_mem hr, hsym⟩

/-- The module in a loop whose builds are all clean. -/
structure Globals.CleanLoop (M : ModuleInfo) (G : Globals) : Prop where
  wf : G.WF M []
  single : G.Single M
  queue : ∀ d ∈ G.deferredGlobs, ∃ sym ∈ M.syms, demangle sym = d.1
  builds : ∀ fuel, ∀ b ∈ G.loopBuilds M fuel, M.CleanBuild b.1 b.2

theorem Globals.CleanLoop.next {d : String × Nat} {rest : List (String × Nat)} (h : G.CleanLoop M)
    (hres : M.Resolves) (hq : G.deferredGlobs = d :: rest) :
    ∃ r, M.resolve d.1 = some r ∧ (G.afterDeferred d rest r).CleanLoop M := by
  obtain ⟨sym, hsym, hd⟩ := h.queue d (hq ▸ List.mem_cons_self ..)
  obtain ⟨r, hr⟩ := Option.isSome_iff_exists.mp (hd ▸ hres sym hsym)
  have hstep : G.processDeferred M d rest = .ok (G.afterDeferred d rest r) :=
    processDeferred_ok.mpr ⟨r, hr, rfl⟩
  have hbuilds : ∀ fuel, G.loopBuilds M (fuel + 1) = ({ G with deferredGlobs := rest }, d.1) ::
      (G.afterDeferred d rest r).loopBuilds M fuel := by
    intro fuel
    rw [Globals.loopBuilds, hq]
    simp only [hstep]
  have hclean : M.CleanBuild { G with deferredGlobs := rest } d.1 := by
    refine h.builds 1 ({ G with deferredGlobs := rest }, d.1) ?_
    rw [hbuilds]
    exact List.mem_cons_self ..
  refine ⟨r, hr,
    { wf := h.wf.afterDeferred hq hr (cleanBuild_ok hclean)
      single := single_afterDeferred h.wf h.single hq hr hclean
      queue := ?_
      builds := fun fuel b hb => h.builds (fuel + 1) b (hbuilds fuel ▸ List.mem_cons_of_mem _ hb) }⟩
  intro e he
  refine (build_deferred r _ hr he).elim (fun hmem => h.queue e ?_) id
  rw [hq]
  exact List.mem_cons_of_mem _ hmem

/-- A loop whose builds are all clean comes to an end: an iteration adds a name to `LLVMglobals`, or
it was for the lifted function and the queue gets shorter. -/
theorem exists_processAll_clean (hres : M.Resolves) (h : G.CleanLoop M) :
    ∃ fuel G', G.processAll M fuel = .ok G' := by
  let S := (M.syms.map demangle).toFinset
  have main : ∀ u l : Nat, ∀ G : Globals, (Worklist.undone S G.names.done).card = u →
      G.deferredGlobs.length = l → G.CleanLoop M → ∃ fuel G', G.processAll M fuel = .ok G' := by
    intro u
    induction u using Nat.strong_induction_on with
    | _ u ihu =>
    intro l
    induction l using Nat.strong_induction_on with
    | _ l ihl =>
    intro G hu hl h
    cases hq : G.deferredGlobs with
    | nil => exact ⟨0, G, processAll_nil 0 hq⟩
    | cons d rest =>
      obtain ⟨r, hr, h'⟩ := h.next hres hq
      have hdone : (G.afterDeferred d rest r).names.done = d.1 :: G.names.done := by
        show d.1 :: (r.build { G with deferredGlobs := rest }).2.LLVMglobals.map Prod.fst = _
        rw [build_entries]
        rfl
      have hend : ∃ fuel G', (G.afterDeferred d rest r).processAll M fuel = .ok G' := by
        by_cases hmem : d.1 ∈ G.names.done
        · have hself : M.resolve d.1 = some .liftedFn :=
            (unknown_of_pop h.wf h.single hq).resolve_left fun hnew => hnew.1 hmem
          obtain rfl := Option.some_inj.mp (hr.symm.trans hself)
          refine ihl rest.length ?_ (G.afterDeferred d rest .liftedFn) ?_ rfl h'
          · rw [← hl, hq]
            exact Nat.lt_succ_self _
          · rw [hdone, Worklist.undone_cons_eq hmem, hu]
        · obtain ⟨sym, hsym, hd⟩ := h.queue d (hq ▸ List.mem_cons_self ..)
          have hS : d.1 ∈ S := List.mem_toFinset.mpr (hd ▸ List.mem_map_of_mem hsym)
          have hlt : (Worklist.undone S (G.afterDeferred d rest r).names.done).card < u := by
            rw [hdone, ← hu]
            exact Worklist.undone_cons_lt hS hmem
          exact ihu _ hlt _ _ rfl rfl h'
      obtain ⟨fuel, G', hall⟩ := hend
      refine ⟨fuel + 1, G', ?_⟩
      rw [processAll_succ fuel hq, processDeferred_ok.mpr ⟨r, hr, rfl⟩]
      exact hall
  exact main _ _ G rfl rfl h

theorem loopBuilds_mono {fuel fuel' : Nat} (hle : fuel ≤ fuel') :
    G.loopBuilds M fuel ⊆ G.loopBuilds M fuel' := by
  induction fuel generalizing G fuel' with
  | zero =>
    rw [Globals.loopBuilds]
    split
    · exact List.nil_subset _
    · exact List.nil_subset _
  | succ fuel ih =>
    cases hq : G.deferredGlobs with
    | nil =>
      rw [Globals.loopBuilds, hq]
      exact List.nil_subset _
    | cons d rest =>
      obtain ⟨k, rfl⟩ : ∃ k, fuel' = k + 1 := ⟨fuel' - 1, by omega⟩
      rw [Globals.loopBuilds, Globals.loopBuilds, hq]
      refine List.cons_subset_cons _ ?_
      split
      · exact ih (by omega)
      · exact List.nil_subset _

theorem loopBuilds_complete {fuel fuel' : Nat} (hle : fuel ≤ fuel') (h : G.processAll M fuel = .ok G') :
    G.loopBuilds M fuel' = G.loopBuilds M fuel := by
  induction fuel generalizing G fuel' with
  | zero =>
    cases hq : G.deferredGlobs with
    | nil =>
      rw [Globals.loopBuilds, Globals.loopBuilds, hq]
    | cons d rest =>
      rw [processAll_zero hq] at h
      cases h
  | succ fuel ih =>
    cases hq : G.deferredGlobs with
    | nil => rw [Globals.loopBuilds, Globals.loopBuilds, hq]
    | cons d rest =>
      obtain ⟨k, rfl⟩ : ∃ k, fuel' = k + 1 := ⟨fuel' - 1, by omega⟩
      rw [processAll_succ fuel hq] at h
      obtain ⟨G₁, hstep, h⟩ := except_bind_ok h
      rw [Globals.loopBuilds, Globals.loopBuilds, hq]
      simp only [hstep, ih (by omega : fuel ≤ k) h]

theorem lookupBuilds_mono {fuel fuel' : Nat} (hle : fuel ≤ fuel') (nm : String) :
    lookupBuilds M fuel nm G ⊆ lookupBuilds M fuel' nm G := by
  unfold lookupBuilds
  split
  · exact List.cons_subset_cons _ (loopBuilds_mono hle)
  · exact List.nil_subset _

theorem lookupAllBuilds_mono {fuel fuel' : Nat} (hle : fuel ≤ fuel') (nms : List String) :
    lookupAllBuilds M fuel nms G ⊆ lookupAllBuilds M fuel' nms G := by
  induction nms generalizing G with
  | nil => exact List.nil_subset _
  | cons nm nms ih =>
    rw [lookupAllBuilds, lookupAllBuilds]
    refine List.append_subset.mpr ⟨?_, ?_⟩
    · exact List.Subset.trans (lookupBuilds_mono hle nm) (List.subset_append_left _ _)
    · split
      · rename_i h
        rw [lookupGlobal_mono hle h]
        exact List.Subset.trans ih (List.subset_append_right _ _)
      · exact List.nil_subset _

theorem lookupAllBuilds_complete {fuel fuel' : Nat} {nms : List String} {p : List Nat × Globals}
    (hle : fuel ≤ fuel') (h : lookupAll M fuel nms G = .ok p) :
    lookupAllBuilds M fuel' nms G = lookupAllBuilds M fuel nms G := by
  induction nms generalizing G p with
  | nil => rfl
  | cons nm nms ih =>
    obtain ⟨id, G₁, ids, h₁, h₂, _⟩ := lookupAll_cons.mp h
    have hone : lookupBuilds M fuel' nm G = lookupBuilds M fuel nm G := by
      cases hf : G.find? (demangle nm) with
      | some id' => simp only [lookupBuilds, hf]
      | none =>
        obtain ⟨r, hr, _, hall⟩ := (lookupGlobal_new hf).mp h₁
        simp only [lookupBuilds, hf, hr, loopBuilds_complete hle hall]
    rw [lookupAllBuilds, lookupAllBuilds, lookupGlobal_mono hle h₁, h₁, hone]
    exact congrArg (lookupBuilds M fuel nm G ++ ·) (ih h₂)

/-- Calls that return have been seen with all of their builds. -/
theorem forall_builds {fuel : Nat} {nms : List String} {p : List Nat × Globals}
    {P : Globals × String → Prop} (h : lookupAll M fuel nms G = .ok p)
    (hP : ∀ b ∈ lookupAllBuilds M fuel nms G, P b) (fuel' : Nat) :
    ∀ b ∈ lookupAllBuilds M fuel' nms G, P b := by
  intro b hb
  have hmem := lookupAllBuilds_mono (Nat.le_max_left fuel' fuel) nms hb
  rw [lookupAllBuilds_complete (Nat.le_max_right fuel' fuel) h] at hmem
  exact hP b hmem

theorem exists_lookupAll_clean {nms : List String} (hres : M.Resolves)
    (hreq : ∀ nm ∈ nms, (M.resolve (demangle nm)).isSome) (hq : G.deferredGlobs = []) (hwf : G.WF M [])
    (hs : G.Single M) (hc : ∀ fuel, ∀ b ∈ lookupAllBuilds M fuel nms G, M.CleanBuild b.1 b.2) :
    ∃ fuel p, lookupAll M fuel nms G = .ok p := by
  induction nms generalizing G with
  | nil => exact ⟨0, _, rfl⟩
  | cons nm nms ih =>
    obtain ⟨hreqn, hreq⟩ := List.forall_mem_cons.mp hreq
    obtain ⟨fuel₁, ⟨id, G₁⟩, h₁⟩ : ∃ fuel p, lookupGlobal M fuel nm G = .ok p := by
      cases hf : G.find? (demangle nm) with
      | some id => exact ⟨0, _, lookupGlobal_known hf⟩
      | none =>
        obtain ⟨r, hr⟩ := Option.isSome_iff_exists.mp hreqn
        have hbuilds : ∀ fuel, lookupBuilds M fuel nm G = (G, demangle nm) ::
            (G.afterRequest (demangle nm) r).loopBuilds M fuel := by
          intro fuel
          simp only [lookupBuilds, hf, hr]
        have hmem : ∀ fuel, ∀ b ∈ lookupBuilds M fuel nm G, M.CleanBuild b.1 b.2 := fun fuel b hb =>
          hc fuel b (List.mem_append_left _ hb)
        have hclean : M.CleanBuild G (demangle nm) := by
          refine hmem 0 (G, demangle nm) ?_
          rw [hbuilds]
          exact List.mem_cons_self ..
        have hloop : (G.afterRequest (demangle nm) r).CleanLoop M :=
          { wf := hwf.afterRequest hr (cleanBuild_ok hclean)
            single := single_afterRequest hs hq hf hr hclean
            queue := fun d hd => (build_deferred r G hr hd).resolve_left fun h => by
              rw [hq] at h
              cases h
            builds := fun fuel b hb => hmem fuel b (hbuilds fuel ▸ List.mem_cons_of_mem _ hb) }
        obtain ⟨fuel, G', hall⟩ := exists_processAll_clean hres hloop
        exact ⟨fuel, ((r.build G).1, G'), (lookupGlobal_new hf).mpr ⟨r, hr, rfl, hall⟩⟩
    have hbuilds : ∀ fuel, fuel₁ ≤ fuel → lookupAllBuilds M fuel (nm :: nms) G =
        lookupBuilds M fuel nm G ++ lookupAllBuilds M fuel nms G₁ := by
      intro fuel hle
      rw [lookupAllBuilds, lookupGlobal_mono hle h₁]
    have hone : lookupAll M fuel₁ [nm] G = .ok ([id], G₁) :=
      lookupAll_cons.mpr ⟨id, G₁, [], h₁, rfl, rfl⟩
    obtain ⟨hwf₁, hs₁⟩ := lookupAll_single (fun b hb => hc fuel₁ b (by
      rw [hbuilds fuel₁ (Nat.le_refl _)]
      rw [lookupAllBuilds, h₁] at hb
      exact List.mem_append_left _ (by simpa [lookupAllBuilds] using hb))) hq hwf hs hone
    have hc₁ : ∀ fuel, ∀ b ∈ lookupAllBuilds M fuel nms G₁, M.CleanBuild b.1 b.2 := by
      intro fuel b hb
      have hmem : b ∈ lookupAllBuilds M (max fuel fuel₁) (nm :: nms) G := by
        rw [hbuilds _ (Nat.le_max_right ..)]
        exact List.mem_append_right _ (lookupAllBuilds_mono (Nat.le_max_left ..) nms hb)
      exact hc _ b hmem
    obtain ⟨fuel₂, p, h₂⟩ := ih hreq (lookupGlobal_empty hq h₁) hwf₁ hs₁ hc₁
    exact ⟨max fuel₁ fuel₂, (id :: p.1, p.2), lookupAll_cons.mpr ⟨id, G₁, p.1,
      lookupGlobal_mono (Nat.le_max_left ..) h₁, lookupAll_mono (Nat.le_max_right ..) h₂, rfl⟩⟩

/-- Calls whose builds are all clean return, and leave one definition per symbol. -/
theorem one_definition (M : ModuleInfo) (nms : List String) (hres : M.Resolves)
    (hreq : ∀ nm ∈ nms, (M.resolve (demangle nm)).isSome)
    (hclean : ∀ fuel, ∀ b ∈ lookupAllBuilds M fuel nms (Globals.init M), M.CleanBuild b.1 b.2) :
    (∃ fuel ids G, lookupAll M fuel nms (Globals.init M) = .ok (ids, G)) ∧
    ∀ fuel ids G, lookupAll M fuel nms (Globals.init M) = .ok (ids, G) →
      OneDefinition M nms ids G := by
  have hsingle : (Globals.init M).Single M := fun p hp => absurd hp List.not_mem_nil
  constructor
  · obtain ⟨fuel, ⟨ids, G⟩, h⟩ := exists_lookupAll_clean hres hreq rfl (wf_init M) hsingle hclean
    exact ⟨fuel, ids, G, h⟩
  · intro fuel ids G h
    obtain ⟨hwf, hs⟩ := lookupAll_single (hclean fuel) rfl (wf_init M) hsingle h
    exact oneDefinition_of_single hwf hs (lookupAll_empty rfl h) (lookupAll_answers rfl h)

/-- `a: .quad b; .quad .L.str+1`, `b: .quad a` and `.L.str: .byte 65`. -/
def sharedGlobals : ModuleInfo := ModuleInfo.ofGlobals
  [{ name := "a", align := 8, section_ := ".data", data := [.offsetSym "b" 0, .offsetSym ".L.str" 1] },
    { name := "b", align := 8, section_ := ".data", data := [.offsetSym "a" 0] },
    { name := ".L.str", align := 1, section_ := ".rodata", data := [.byte 65#8] }]

theorem one_definition_shared :
    (∃ fuel ids G, lookupAll sharedGlobals fuel ["a", ".L.str", "b"] (Globals.init sharedGlobals) =
      .ok (ids, G)) ∧
    ∀ fuel ids G, lookupAll sharedGlobals fuel ["a", ".L.str", "b"] (Globals.init sharedGlobals) =
      .ok (ids, G) → OneDefinition sharedGlobals ["a", ".L.str", "b"] ids G := by
  refine one_definition sharedGlobals ["a", ".L.str", "b"] (by decide +kernel) (by decide +kernel) ?_
  obtain ⟨p, hp⟩ : ∃ p, lookupAll sharedGlobals 2 ["a", ".L.str", "b"] (Globals.init sharedGlobals) =
    .ok p := ok_of_isSome (by decide +kernel)
  exact forall_builds hp (by decide +kernel)

/-- `x: .quad x`. -/
def selfGlobal : ModuleInfo := ModuleInfo.ofGlobals
  [{ name := "x", align := 8, section_ := ".data", data := [.offsetSym "x" 0] }]

/-- Two calls for `x` return two objects. -/
theorem one_definition_self_fails :
    ¬ ∀ (M : ModuleInfo) (nms : List String), M.Resolves →
      (∀ nm ∈ nms, (M.resolve (demangle nm)).isSome) →
      ∀ fuel ids G, lookupAll M fuel nms (Globals.init M) = .ok (ids, G) →
        OneDefinition M nms ids G := by
  intro h
  obtain ⟨⟨ids, G⟩, hrun⟩ : ∃ p, lookupAll selfGlobal 1 ["x", "x"] (Globals.init selfGlobal) = .ok p :=
    ok_of_isSome (by decide +kernel)
  have hids : (lookupAll selfGlobal 1 ["x", "x"] (Globals.init selfGlobal)).toOption.map Prod.fst =
      some [2, 3] := by decide +kernel
  rw [hrun] at hids
  obtain rfl : ids = [2, 3] := Option.some_inj.mp hids
  have hone := h selfGlobal ["x", "x"] (by decide +kernel) (by decide +kernel) 1 _ _ hrun
  cases hone.answers with
  | cons h₂ hrest =>
    cases hrest with
    | cons h₃ _ =>
      have heq : (2 : Nat) = 3 := Option.some_inj.mp (h₂.symm.trans h₃)
      omega

end BpfTv
