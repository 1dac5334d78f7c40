import BpfTv.Lib.Search
import BpfTv.Llvm.Ssa

/-!
# Loaded pointers that reach a call

When a refinement fails, the driver reports a known limitation instead of a miscompilation if the
source loads a pointer that a call gets as an argument, maybe by way of phis and selects. The search
through the users of the loaded pointers ends, also in cycles of phis, and it finds exactly these loads
(`ptr_load_flow_search`).
-/

namespace BpfTv.Ssa

/-- `args()`: a called value comes after the arguments. -/
def Callee.args (c : Callee) (ops : List Val) : List Val :=
  match c with
  | .value => ops.dropLast
  | _ => ops

/-- The arguments of a `CallBase`. -/
def User.callArgs : User → Option (List Val)
  | .instr i =>
    match i.op with
    | .call c => some (c.args i.ops)
    | _ => none
  | .phi _ => none
  | .term t =>
    match t.op with
    | .call c => some (c.args t.ops)
    | _ => none

/-- The value of a `PHINode` or a `SelectInst`. -/
def User.merge : User → Option Val
  | .instr i => if i.op = .select then some (.inst i.id) else none
  | .phi p => some (.inst p.id)
  | .term _ => none

/-- The users of `v` one after the other, with `none` for the `return true`. -/
def pushUsers (v : Val) : List User → List Val → Option (List Val)
  | [], flow => some flow
  | u :: us, flow =>
    match u.callArgs with
    | some args => if args.any (· = v) then none else pushUsers v us flow
    | none =>
      match u.merge with
      | some w => pushUsers v us (w :: flow)
      | none => pushUsers v us flow

def Instr.isPtrLoad (i : Instr) : Bool :=
  match i.op with
  | .load _ => i.ty = .ptr
  | _ => false

namespace Fn.UseLists

variable {F : Fn} (U : F.UseLists)

def visit (v : Val) : Option (List Val) := pushUsers v (U.users v) []

/-- The search starts anew for each load. -/
def anyReaches (fuel : Nat) : List Instr → Option Bool
  | [] => some false
  | i :: is =>
    if i.isPtrLoad then do
      if ← Search.search U.visit fuel [.inst i.id] [] then return true
      anyReaches fuel is
    else anyReaches fuel is

/-- `fuel` bounds the rounds of one search. -/
def ptrLoadReachesCall (fuel : Nat) : Option Bool := U.anyReaches fuel F.instrs

end Fn.UseLists

/-! ## The flow of a value -/

/-- A phi or a `select` uses the value. -/
inductive Fn.FlowsTo (F : Fn) (v : Val) : Val → Prop
  | phi {b : Block} {p : Phi} (hb : b ∈ F.blocks) (hp : p ∈ b.phis) (hv : v ∈ p.incoming.map (·.2)) :
      F.FlowsTo v (.inst p.id)
  | select {i : Instr} (hi : i ∈ F.instrs) (hop : i.op = .select) (hv : v ∈ i.ops) : F.FlowsTo v (.inst i.id)

/-- The value is an argument of a call. -/
inductive Fn.PassedToCall (F : Fn) (v : Val) : Prop
  | call {i : Instr} {c : Callee} (hi : i ∈ F.instrs) (hop : i.op = .call c) (hv : v ∈ c.args i.ops)
  | invoke {b : Block} {c : Callee} (hb : b ∈ F.blocks) (hop : b.term.op = .call c)
      (hv : v ∈ c.args b.term.ops)

def Fn.ReachesCall (F : Fn) (v : Val) : Prop :=
  ∃ w, Relation.ReflTransGen F.FlowsTo v w ∧ F.PassedToCall w

variable {F : Fn} {U : F.UseLists} {u : User} {us : List User} {v w : Val} {flow next : List Val}
  {args : List Val} {c : Callee} {fuel : Nat} {r : Bool}

theorem Callee.mem_args (h : v ∈ c.args args) : v ∈ args := by
  cases c with
  | value => exact List.mem_of_mem_dropLast h
  | _ => exact h

theorem User.callArgs_of_merge (h : u.merge = some w) : u.callArgs = none := by
  cases u with
  | phi p => rfl
  | term t => cases h
  | instr i =>
    rw [User.merge] at h
    split at h
    · rename_i hop
      rw [User.callArgs, hop]
    · cases h

theorem pushUsers_none : pushUsers v us flow = none ↔ ∃ u ∈ us, ∃ args, u.callArgs = some args ∧ v ∈ args := by
  induction us generalizing flow with
  | nil => simp [pushUsers]
  | cons u us ih =>
    rw [pushUsers]
    cases hargs : u.callArgs with
    | some args =>
      by_cases hv : v ∈ args
      · simp [hargs, hv]
      · simp [hargs, hv, ih]
    | none =>
      cases hmerge : u.merge with
      | some w => simp [hargs, ih]
      | none => simp [hargs, ih]

theorem mem_pushUsers (h : pushUsers v us flow = some next) :
    w ∈ next ↔ w ∈ flow ∨ ∃ u ∈ us, u.merge = some w := by
  induction us generalizing flow with
  | nil =>
    cases h
    simp
  | cons u us ih =>
    rw [pushUsers] at h
    cases hargs : u.callArgs with
    | some args =>
      have hmerge : u.merge = none := by
        cases hmerge : u.merge with
        | none => rfl
        | some w =>
          rw [User.callArgs_of_merge hmerge] at hargs
          cases hargs
      simp only [hargs] at h
      split at h
      · cases h
      · simp [ih h, hmerge]
    | none =>
      simp only [hargs] at h
      cases hmerge : u.merge with
      | some x =>
        simp only [hmerge] at h
        rw [ih h]
        simp [hmerge, eq_comm, or_assoc, or_left_comm]
      | none =>
        simp only [hmerge] at h
        simp [ih h, hmerge]

theorem visit_none : U.visit v = none ↔ F.PassedToCall v := by
  rw [Fn.UseLists.visit, pushUsers_none]
  constructor
  · rintro ⟨u, hu, args, hargs, hv⟩
    cases U.mem_users.mp hu with
    | @instr i hi _ =>
      rw [User.callArgs] at hargs
      split at hargs
      · rename_i hop
        cases hargs
        exact .call hi hop hv
      · cases hargs
    | phi hb hp _ => cases hargs
    | @term b hb _ =>
      rw [User.callArgs] at hargs
      split at hargs
      · rename_i hop
        cases hargs
        exact .invoke hb hop hv
      · cases hargs
  · intro h
    cases h with
    | @call i c hi hop hv =>
      exact ⟨.instr i, U.mem_users.mpr (.instr hi (Callee.mem_args hv)), _, by rw [User.callArgs, hop], hv⟩
    | @invoke b c hb hop hv =>
      exact ⟨.term b.term, U.mem_users.mpr (.term hb (Callee.mem_args hv)), _,
        by rw [User.callArgs, hop], hv⟩

theorem mem_visit (h : U.visit v = some next) : w ∈ next ↔ F.FlowsTo v w := by
  rw [mem_pushUsers h]
  constructor
  · rintro (hnil | ⟨u, hu, hmerge⟩)
    · cases hnil
    · cases U.mem_users.mp hu with
      | @instr i hi hv =>
        rw [User.merge] at hmerge
        split at hmerge
        · rename_i hop
          cases hmerge
          exact .select hi hop hv
        · cases hmerge
      | phi hb hp hv =>
        cases hmerge
        exact .phi hb hp hv
      | term hb _ => cases hmerge
  · intro h
    cases h with
    | phi hb hp hv => exact Or.inr ⟨_, U.mem_users.mpr (.phi hb hp hv), rfl⟩
    | select hi hop hv => exact Or.inr ⟨_, U.mem_users.mpr (.instr hi hv), by rw [User.merge, if_pos hop]⟩

/-! ## The search -/

theorem next_flowsTo (h : Search.Next U.visit v w) : F.FlowsTo v w := by
  obtain ⟨next, hnext, hw⟩ := h
  exact (mem_visit hnext).mp hw

/-- The search stops at the first call on a chain. -/
theorem finds_iff : Search.Finds U.visit v ↔ F.ReachesCall v := by
  constructor
  · rintro ⟨g, hreach, hgoal⟩
    exact ⟨g, Relation.ReflTransGen.mono (fun _ _ h => next_flowsTo h) _ _ hreach, visit_none.mp hgoal⟩
  · rintro ⟨g, hreach, hgoal⟩
    induction hreach using Relation.ReflTransGen.head_induction_on with
    | refl => exact ⟨g, .refl, visit_none.mpr hgoal⟩
    | @head a b hab _ ih =>
      cases hvisit : U.visit a with
      | none => exact ⟨a, .refl, hvisit⟩
      | some next => exact ih.head ⟨next, hvisit, (mem_visit hvisit).mpr hab⟩

/-- The values that a search looks at. -/
def Fn.instVals (F : Fn) : Finset Val := (F.ids.map Val.inst).toFinset

theorem Fn.FlowsTo.mem_instVals (h : F.FlowsTo v w) : w ∈ F.instVals := by
  rw [Fn.instVals, List.mem_toFinset]
  cases h with
  | phi hb hp _ =>
    apply List.mem_map_of_mem
    exact List.mem_flatMap.mpr ⟨_, hb, List.mem_append_left _ (List.mem_map_of_mem hp)⟩
  | select hi _ _ => exact List.mem_map_of_mem (mem_ids hi)

/-- One search is over after as many rounds as its loop pushes values. -/
theorem search_ends (U : F.UseLists) {i : Instr} (hi : i ∈ F.instrs)
    (hfuel : ∑ x ∈ F.instVals, Search.pushes U.visit x + 1 < fuel) :
    ∃ r, Search.search U.visit fuel [.inst i.id] [] = some r := by
  apply Option.isSome_iff_exists.mp
  apply Search.search_isSome F.instVals
  · exact fun a b hab => (next_flowsTo hab).mem_instVals
  · intro a ha
    rw [List.mem_singleton.mp ha, Fn.instVals, List.mem_toFinset]
    exact List.mem_map_of_mem (mem_ids hi)
  · have hundone : Worklist.undone F.instVals [] = F.instVals := by simp [Worklist.undone]
    rw [hundone]
    exact hfuel

theorem anyReaches_ends (U : F.UseLists) {is : List Instr} (his : ∀ i ∈ is, i ∈ F.instrs)
    (hfuel : ∑ x ∈ F.instVals, Search.pushes U.visit x + 1 < fuel) :
    ∃ r, U.anyReaches fuel is = some r := by
  induction is with
  | nil => exact ⟨false, rfl⟩
  | cons i is ih =>
    obtain ⟨r, hr⟩ := ih fun j hj => his j (List.mem_cons_of_mem _ hj)
    obtain ⟨r', hr'⟩ := search_ends U (his i (List.mem_cons_self ..)) hfuel
    rw [Fn.UseLists.anyReaches]
    split
    · cases r' with
      | true => exact ⟨true, by simp [hr']⟩
      | false => exact ⟨r, by simp [hr', hr]⟩
    · exact ⟨r, hr⟩

theorem anyReaches_iff {is : List Instr} (h : U.anyReaches fuel is = some r) :
    r = true ↔ ∃ i ∈ is, i.isPtrLoad = true ∧ F.ReachesCall (.inst i.id) := by
  induction is with
  | nil =>
    cases h
    simp
  | cons i is ih =>
    rw [Fn.UseLists.anyReaches] at h
    split at h
    · rename_i hload
      simp only [Option.bind_eq_bind, Option.bind_eq_some_iff] at h
      obtain ⟨r', hr', h⟩ := h
      have hsearch := (Search.search_iff hr').trans finds_iff
      cases r' with
      | true =>
        cases h
        exact iff_of_true rfl ⟨i, List.mem_cons_self .., hload, hsearch.mp rfl⟩
      | false =>
        have hnot : ¬F.ReachesCall (.inst i.id) := fun hreach => by cases hsearch.mpr hreach
        simp [ih h, hnot]
    · rename_i hload
      simp [ih h, hload]

/-- The search ends, and it finds the loads of pointers that reach an argument of a call. -/
theorem ptr_load_flow_search (F : Fn) (U : F.UseLists) :
    (∃ n, ∀ fuel ≥ n, ∃ r, U.ptrLoadReachesCall fuel = some r) ∧
      ∀ fuel r, U.ptrLoadReachesCall fuel = some r →
        (r = true ↔ ∃ i ∈ F.instrs, i.isPtrLoad = true ∧ F.ReachesCall (.inst i.id)) := by
  refine ⟨⟨∑ x ∈ F.instVals, Search.pushes U.visit x + 2, fun fuel hfuel => ?_⟩, fun fuel r h => ?_⟩
  · apply anyReaches_ends U fun _ hi => hi
    omega
  · exact anyReaches_iff h

/-- Two phis in a cycle, and the loaded pointer is called but not passed on. -/
example : (Fn.useLists
    { args := [.ptr]
      blocks := [
        { body := [{ id := 0, ty := .ptr, op := .load 8, ops := [.arg 0] }]
          term := { op := .br, ops := [], succs := [1] } },
        { phis := [{ id := 1, ty := .ptr, incoming := [(0, .inst 0), (1, .inst 2)] },
                   { id := 2, ty := .ptr, incoming := [(0, .arg 0), (1, .inst 1)] }]
          body := [{ id := 3, ty := .void, op := .call .value, ops := [.arg 0, .inst 2] }]
          term := { op := .br, ops := [], succs := [1] } }] }).ptrLoadReachesCall 9 = some false := by
  decide

end BpfTv.Ssa
