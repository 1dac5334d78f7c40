import BpfTv.Driver.TrackedAddresses
import Mathlib.Data.List.Perm.Basic

/-!
# The plans

Each plan of the classifiers moves a user of a residual address that reaches a slot, and no instruction
is planned twice: an address is computed from one address, so the users that the classifiers follow
form a tree with the stack block at its root.
-/

namespace BpfTv.Ssa

/-- The instructions that the plans replace. -/
def Plans.ids (Q : Plans) : List Nat := Q.gepPlans.map (·.gep.id) ++ Q.intPlans.map (·.inst.id)

section

variable (F : Fn) (slots : List StackSlot) (root : Nat)

/-- The plan of a user of a residual pointer: its slot is the one at its constant offset. -/
def GepPlan.Valid (p : GepPlan) : Prop :=
  ∃ v c total i8 steps, Residual F slots root (.ptr v) c ∧ .instr p.gep ∈ F.users v ∧
    p.gep.op = .gep i8 steps ∧ slotAt slots total = some p.slot ∧
    p.rel = total - BitVec.ofInt 64 p.slot.start ∧
    (p.varIdx = none ∧ (∃ off, accumulateConstantOffset steps p.gep.ops.tail = some off ∧ total = c + off) ∨
      i8 = true ∧ ∃ idx var k, p.varIdx = some var ∧ accumulateConstantOffset steps p.gep.ops.tail = none ∧
        p.gep.ops.tail = [idx] ∧ constantBase F idx = some (var, k) ∧ total = c + k)

/-- The plan of a user of a residual `ptrtoint`. -/
def IntPlan.Valid (p : IntPlan) : Prop :=
  ∃ x c total, Residual F slots root (.cast x) c ∧ .instr p.inst ∈ F.users (.inst x.id) ∧
    slotAt slots total = some p.slot ∧ p.rel = total - BitVec.ofInt 64 p.slot.start ∧
    ((p.inst.op = .binop .add ∧ ∃ y k, addParts p.inst.ops = some (y, k) ∧ total = c + k) ∨
      p.inst.op = .inttoptr ∧ total = c)

structure Plans.Valid (Q : Plans) : Prop where
  gep : ∀ p ∈ Q.gepPlans, p.Valid F slots root
  int : ∀ p ∈ Q.intPlans, p.Valid F slots root

end

variable {F : Fn} {U : F.UseLists} {slots : List StackSlot} {root : Nat} {c : BitVec 64} {Q q : Plans} {a : Addr}
  {i : Instr} {depth : Nat}

theorem valid_empty : ({} : Plans).Valid F slots root := ⟨by simp, by simp⟩

theorem valid_use (hres : Residual F slots root a c) (hu : .instr i ∈ F.users a.val)
    (huse : Use F slots (fun a c q => Residual F slots root a c → q.Valid F slots root) c i q a) :
    q.Valid F slots root := by
  cases a with
  | ptr p =>
    cases huse with
    | planned op acc slot =>
      refine ⟨?_, by simp [planGep]⟩
      rintro p hp
      obtain rfl := List.mem_singleton.mp hp
      exact ⟨_, c, _, _, _, hres, hu, op, slot, rfl, Or.inl ⟨rfl, _, acc, rfl⟩⟩
    | gep op acc slot next => exact next (.gep hres hu op acc slot)
    | varGep op acc tail base slot =>
      refine ⟨?_, by simp [planGep]⟩
      rintro p hp
      obtain rfl := List.mem_singleton.mp hp
      exact ⟨_, c, _, _, _, hres, hu, op, slot, rfl, Or.inr ⟨rfl, _, _, _, rfl, acc, tail, base, rfl⟩⟩
    | ptrtoint op next => exact next (.ptrtoint hres hu op)
    | load | store | call | icmp => exact valid_empty
  | cast x =>
    cases huse with
    | planned op parts slot =>
      refine ⟨by simp [planInt], ?_⟩
      rintro p hp
      obtain rfl := List.mem_singleton.mp hp
      exact ⟨x, c, _, hres, hu, slot, rfl, Or.inl ⟨op, _, _, parts, rfl⟩⟩
    | sum op parts slot next => exact next (.add hres hu op parts slot)
    | plannedCast op slot =>
      refine ⟨by simp [planInt], ?_⟩
      rintro p hp
      obtain rfl := List.mem_singleton.mp hp
      exact ⟨x, c, _, hres, hu, slot, rfl, Or.inr ⟨op, rfl⟩⟩
    | inttoptr op slot next => exact next (.inttoptr hres hu op slot)
    | icmp => exact valid_empty
  | sum x =>
    cases huse with
    | inttoptr op next => exact next (.sumToPtr hres hu op)
    | icmp => exact valid_empty

theorem valid_accepted {u : User} (hres : Residual F slots root a c) (hu : u ∈ F.users a.val)
    (huse : Accepted F slots (fun a c q => Residual F slots root a c → q.Valid F slots root) c a u q) :
    q.Valid F slots root := by
  cases huse with
  | instr huse => exact valid_use hres hu huse
  | invoke => exact valid_empty

theorem plans_valid (h : classifyPtr F U slots depth (.inst root) 0 = .ok Q) : Q.Valid F slots root := by
  refine classify_induct (N := fun a c Q => Residual F slots root a c → Q.Valid F slots root) ?_ depth
    (.ptr (.inst root)) 0 Q h trivial .base
  rintro a c Q _ ⟨g, hg, hgep, hint⟩ hres
  refine ⟨fun p hp => ?_, fun p hp => ?_⟩
  · rw [hgep] at hp
    obtain ⟨u, hu, hp⟩ := List.mem_flatMap.mp hp
    exact (valid_accepted hres ((U.perm _).mem_iff.mp hu) (hg u hu)).gep p hp
  · rw [hint] at hp
    obtain ⟨u, hu, hp⟩ := List.mem_flatMap.mp hp
    exact (valid_accepted hres ((U.perm _).mem_iff.mp hu) (hg u hu)).int p hp

/-! ## The tree of addresses -/

/-- The address that an address is computed from. -/
def up (F : Fn) (id : Nat) : Option Nat :=
  match F.inst? id with
  | none => none
  | some i =>
    match i.op, i.ops with
    | .gep _ _, .inst p :: _ => some p
    | .ptrtoint, [.inst p] => some p
    | .inttoptr, [.inst x] => some x
    | .binop .add, ops =>
      match addParts ops with
      | some (.inst x, _) => some x
      | _ => none
    | _, _ => none

/-- The address `n` steps up. -/
def anc (F : Fn) : Nat → Nat → Option Nat
  | 0, id => some id
  | n + 1, id => (up F id).bind (anc F n)

theorem anc_add {m n : Nat} {d e : Nat} (h : anc F m d = some e) : anc F (m + n) d = anc F n e := by
  induction m generalizing d with
  | zero =>
    rw [Nat.zero_add]
    cases h
    rfl
  | succ m ih =>
    rw [Nat.succ_add]
    cases hup : up F d with
    | none => simp [anc, hup] at h
    | some d' =>
      simp only [anc, hup, Option.bind_some] at h ⊢
      exact ih h

theorem anc_root {m n : Nat} {d : Nat} (hroot : up F root = none) (hm : anc F m d = some root)
    (hn : anc F n d = some root) : m = n := by
  have hle : ∀ m n, anc F m d = some root → anc F n d = some root → n ≤ m := by
    intro m n hm hn
    by_contra hlt
    obtain ⟨k, rfl⟩ : ∃ k, n = m + (k + 1) := ⟨n - m - 1, by omega⟩
    rw [anc_add hm] at hn
    simp [anc, hroot] at hn
  exact Nat.le_antisymm (hle n m hn hm) (hle m n hm hn)

/-- Two ancestors at the same height above the root are one. -/
theorem anc_unique {m m' n : Nat} {d e e' : Nat} (hroot : up F root = none) (he : anc F m d = some e)
    (he' : anc F m' d = some e') (hn : anc F n e = some root) (hn' : anc F n e' = some root) : e = e' := by
  have hm : m + n = m' + n := anc_root hroot (anc_add he ▸ hn) (anc_add he' ▸ hn')
  obtain rfl : m = m' := by omega
  exact Option.some_inj.mp (he.symm.trans he')

theorem typed_ptrtoint {i : Instr} (h : F.typed i = true) (hop : i.op = .ptrtoint) :
    ∃ v, i.ops = [v] ∧ F.tyOf v = some .ptr ∧ i.ty = .int 64 := by
  unfold Fn.typed at h
  rw [hop] at h
  match hops : i.ops with
  | [] | _ :: _ :: _ => simp [hops] at h
  | [v] =>
    simp only [hops, Bool.and_eq_true, decide_eq_true_eq] at h
    exact ⟨v, rfl, h.1, h.2⟩

theorem typed_binop {i : Instr} {o : BinOp} (h : F.typed i = true) (hop : i.op = .binop o) :
    ∃ x y, i.ops = [x, y] ∧ F.tyOf x = some i.ty ∧ F.tyOf y = some i.ty ∧ i.ty ≠ .ptr := by
  unfold Fn.typed at h
  rw [hop] at h
  match hops : i.ops with
  | [] | [_] | _ :: _ :: _ :: _ => simp [hops] at h
  | [x, y] =>
    simp only [hops, Bool.and_eq_true, decide_eq_true_eq] at h
    exact ⟨x, y, rfl, h.1.1, h.1.2, h.2⟩

theorem addParts_cases {ops : List Val} {y : Val} {k : BitVec 64} (h : addParts ops = some (y, k)) :
    ∃ (w : Nat) (c : BitVec w), (ops = [y, .int w c] ∨ ops = [.int w c, y]) ∧ k = c.signExtend 64 := by
  unfold addParts at h
  split at h
  · cases h
    exact ⟨_, _, Or.inl rfl, rfl⟩
  · cases h
    exact ⟨_, _, Or.inr rfl, rfl⟩
  · cases h

theorem addParts_inst {ops : List Val} {y : Val} {k : BitVec 64} {e : Nat} (h : addParts ops = some (y, k))
    (he : .inst e ∈ ops) : y = .inst e ∧ ops.count (.inst e) = 1 := by
  obtain ⟨w, c, rfl | rfl, _⟩ := addParts_cases h
  · obtain rfl : Val.inst e = y := by simpa using he
    exact ⟨rfl, by simp⟩
  · obtain rfl : Val.inst e = y := by simpa using he
    exact ⟨rfl, by simp⟩

theorem cast_ops {i : Instr} (hF : F.WellTyped) (hi : i ∈ F.instrs)
    (hop : i.op = .ptrtoint ∨ i.op = .inttoptr) : ∃ v, i.ops = [v] := by
  rcases hop with hop | hop
  · exact (typed_ptrtoint (hF.typed i hi) hop).imp fun _ h => h.1
  · exact (typed_inttoptr (hF.typed i hi) hop).imp fun _ h => h.1

/-- A user that is followed from an address, and the operand that is the address. -/
structure Follows (F : Fn) (e : Nat) (i : Instr) : Prop where
  up : up F i.id = some e
  count : i.ops.count (.inst e) = 1

theorem follows_gep {i8 : Bool} {steps : List GepStep} {e : Nat} (hF : F.WellTyped) (hi : i ∈ F.instrs)
    (he : .inst e ∈ i.ops) (hop : i.op = .gep i8 steps)
    (hp : ∃ j ∈ F.instrs, Val.inst e = .inst j.id ∧ j.ty = .ptr) : Follows F e i := by
  obtain ⟨p, idxs, hops, _⟩ := typed_gep (hF.typed i hi) hop
  have hidx : Val.inst e ∉ idxs := by
    intro hmem
    obtain ⟨k, hk⟩ := List.getElem?_of_mem hmem
    have hzero : k + 1 = 0 := gep_operand hF hi hop hp (by rw [hops, List.getElem?_cons_succ, hk])
    omega
  obtain rfl : Val.inst e = p := (List.mem_cons.mp (hops ▸ he)).resolve_right hidx
  refine ⟨?_, ?_⟩
  · rw [up, hF.inst?_eq hi]
    simp [hop, hops]
  · rw [hops, List.count_cons_self, List.count_eq_zero_of_not_mem hidx]

theorem follows_cast {e : Nat} (hF : F.WellTyped) (hi : i ∈ F.instrs) (he : .inst e ∈ i.ops)
    (hop : i.op = .ptrtoint ∨ i.op = .inttoptr) : Follows F e i := by
  obtain ⟨v, hops⟩ := cast_ops hF hi hop
  obtain rfl : Val.inst e = v := by simpa [hops] using he
  refine ⟨?_, by rw [hops]; simp⟩
  rw [up, hF.inst?_eq hi]
  rcases hop with hop | hop <;> simp [hop, hops]

theorem follows_add {e : Nat} {y : Val} {k : BitVec 64} (hF : F.WellTyped) (hi : i ∈ F.instrs)
    (he : .inst e ∈ i.ops) (hop : i.op = .binop .add) (hparts : addParts i.ops = some (y, k)) :
    Follows F e i := by
  obtain ⟨rfl, hcount⟩ := addParts_inst hparts he
  refine ⟨?_, hcount⟩
  rw [up, hF.inst?_eq hi]
  simp [hop, hparts]

/-- The plans made below an address: for instructions below it, each once. -/
structure Below (F : Fn) (e : Nat) (Q : Plans) : Prop where
  nodup : Q.ids.Nodup
  below : ∀ d ∈ Q.ids, ∃ m, anc F m d = some e

theorem below_planGep {s : StackSlot} {var : Option Val} : Below F i.id (planGep i s c var) :=
  ⟨List.nodup_singleton _, fun d hd => ⟨0, by rw [List.mem_singleton.mp hd]; rfl⟩⟩

theorem below_planInt {s : StackSlot} : Below F i.id (planInt i s c) :=
  ⟨List.nodup_singleton _, fun d hd => ⟨0, by rw [List.mem_singleton.mp hd]; rfl⟩⟩

theorem below_use {stack : Instr} {e : Nat} (hF : F.WellTyped) (hstack : stackMem F = some stack)
    (hres : Residual F slots stack.id a c) (hu : .instr i ∈ F.users a.val) (he : a.val = .inst e)
    (huse : Use F slots (fun a c q => Residual F slots stack.id a c → ∀ d, a.val = .inst d → up F d = some e →
      Below F d q) c i q a) : q.ids = [] ∨ Follows F e i ∧ Below F i.id q := by
  obtain ⟨hi, hmem⟩ := Fn.mem_users_instr.mp hu
  rw [he] at hmem
  cases a with
  | ptr p =>
    have hp : ∃ j ∈ F.instrs, Val.inst e = .inst j.id ∧ j.ty = .ptr := he ▸ residual_ptr hF hstack hres
    cases huse with
    | planned op => exact Or.inr ⟨follows_gep hF hi hmem op hp, below_planGep⟩
    | gep op acc slot next =>
      have hfollows := follows_gep hF hi hmem op hp
      exact Or.inr ⟨hfollows, next (.gep hres hu op acc slot) _ rfl hfollows.up⟩
    | varGep op => exact Or.inr ⟨follows_gep hF hi hmem op hp, below_planGep⟩
    | ptrtoint op next =>
      have hfollows := follows_cast hF hi hmem (Or.inl op)
      exact Or.inr ⟨hfollows, next (.ptrtoint hres hu op) _ rfl hfollows.up⟩
    | load | store | call | icmp => exact Or.inl rfl
  | cast x =>
    cases huse with
    | planned op parts => exact Or.inr ⟨follows_add hF hi hmem op parts, below_planInt⟩
    | sum op parts slot next =>
      have hfollows := follows_add hF hi hmem op parts
      exact Or.inr ⟨hfollows, next (.add hres hu op parts slot) _ rfl hfollows.up⟩
    | plannedCast op => exact Or.inr ⟨follows_cast hF hi hmem (Or.inr op), below_planInt⟩
    | inttoptr op slot next =>
      have hfollows := follows_cast hF hi hmem (Or.inr op)
      exact Or.inr ⟨hfollows, next (.inttoptr hres hu op slot) _ rfl hfollows.up⟩
    | icmp => exact Or.inl rfl
  | sum x =>
    cases huse with
    | inttoptr op next =>
      have hfollows := follows_cast hF hi hmem (Or.inr op)
      exact Or.inr ⟨hfollows, next (.sumToPtr hres hu op) _ rfl hfollows.up⟩
    | icmp => exact Or.inl rfl

theorem below_accepted {stack : Instr} {e : Nat} {u : User} (hF : F.WellTyped) (hstack : stackMem F = some stack)
    (hres : Residual F slots stack.id a c) (hu : u ∈ F.users a.val) (he : a.val = .inst e)
    (h : Accepted F slots (fun a c q => Residual F slots stack.id a c → ∀ d, a.val = .inst d →
      up F d = some e → Below F d q) c a u q) :
    q.ids = [] ∨ ∃ i, u = .instr i ∧ Follows F e i ∧ Below F i.id q := by
  cases h with
  | instr huse => exact (below_use hF hstack hres hu he huse).imp id fun h => ⟨_, rfl, h⟩
  | invoke => exact Or.inl rfl

theorem Plans.ids_collected {us : List User} {g : User → Plans}
    (hgep : Q.gepPlans = us.flatMap fun u => (g u).gepPlans)
    (hint : Q.intPlans = us.flatMap fun u => (g u).intPlans) :
    Q.ids.Perm (us.flatMap fun u => (g u).ids) := by
  rw [Plans.ids, hgep, hint, List.map_flatMap, List.map_flatMap]
  exact List.flatMap_append_perm _ _ _

theorem up_root {stack : Instr} (hF : F.WellTyped) (hstack : stackMem F = some stack) :
    up F stack.id = none := by
  rw [up, hF.inst?_eq (stackMem_spec hF hstack).1]
  have hfound := List.find?_some hstack
  split at hfound
  · rename_i hop
    simp [hop]
  · rename_i hop
    simp [hop]
  · cases hfound

/-- No instruction is planned twice. -/
theorem plans_nodup {stack : Instr} (hF : F.WellTyped) (hstack : stackMem F = some stack)
    (h : classifyPtr F U slots depth (.inst stack.id) 0 = .ok Q) : Q.ids.Nodup := by
  have hroot := up_root hF hstack
  refine (classify_induct (N := fun a c Q => Residual F slots stack.id a c → ∀ e n, a.val = .inst e →
    anc F n e = some stack.id → Below F e Q) ?_ depth (.ptr (.inst stack.id)) 0 Q h trivial .base
    stack.id 0 rfl rfl).nodup
  rintro a c Q _ ⟨g, hg, hgep, hint⟩ hres e n he hn
  have hperm := Plans.ids_collected hgep hint
  have huser : ∀ u ∈ U.users a.val, (g u).ids = [] ∨
      ∃ i, u = .instr i ∧ Follows F e i ∧ Below F i.id (g u) := by
    intro u hu
    refine below_accepted hF hstack hres ((U.perm _).mem_iff.mp hu) he ((hg u hu).mono ?_)
    intro a c hnext hres d hd hup
    refine hnext hres d (n + 1) hd ?_
    rw [anc, hup]
    exact hn
  refine ⟨hperm.nodup_iff.mpr (List.nodup_flatMap.mpr ⟨fun u hu => ?_, ?_⟩), fun d hd => ?_⟩
  · rcases huser u hu with hnil | ⟨i, rfl, _, hbelow⟩
    · rw [hnil]
      exact List.nodup_nil
    · exact hbelow.nodup
  · refine (U.pairwise hF a.val).imp_of_mem fun {u u'} hu hu' hpair => ?_
    show (g u).ids.Disjoint (g u').ids
    rw [List.disjoint_left]
    intro d hd hd'
    rcases huser u hu with hnil | ⟨i, rfl, hfollows, hbelow⟩
    · rw [hnil] at hd
      cases hd
    rcases huser u' hu' with hnil | ⟨i', rfl, hfollows', hbelow'⟩
    · rw [hnil] at hd'
      cases hd'
    -- both users are the ancestor of `d` at one height, so they are one, which is listed once
    obtain ⟨m, hm⟩ := hbelow.below d hd
    obtain ⟨m', hm'⟩ := hbelow'.below d hd'
    have hup : ∀ {j}, Follows F e j → anc F (n + 1) j.id = some stack.id := fun hj => by
      rw [anc, hj.up]
      exact hn
    have hid := anc_unique hroot hm hm' (hup hfollows) (hup hfollows')
    have hmem : ∀ {j}, .instr j ∈ U.users a.val → j ∈ F.instrs := fun hj =>
      (Fn.mem_users_instr.mp ((U.perm _).mem_iff.mp hj)).1
    obtain rfl := hF.inj (hmem hu) (hmem hu') hid
    have htwo := hpair i rfl rfl
    rw [he, hfollows.count] at htwo
    omega
  · obtain ⟨u, hu, hd⟩ := List.mem_flatMap.mp (hperm.mem_iff.mp hd)
    rcases huser u hu with hnil | ⟨i, rfl, hfollows, hbelow⟩
    · rw [hnil] at hd
      cases hd
    · obtain ⟨m, hm⟩ := hbelow.below d hd
      refine ⟨m + 1, ?_⟩
      rw [anc_add hm, anc, hfollows.up]
      rfl

end BpfTv.Ssa
