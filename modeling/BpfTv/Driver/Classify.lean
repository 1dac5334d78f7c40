import BpfTv.Driver.StackObjects

/-!
# What the classifiers accept

A classifier that accepts an address has accepted each of its users, in one of the forms that
`PtrUse`, `CastUse` and `SumUse` list, and returns the plans that belong to them. The residual
addresses are those that the rewrite leaves where they are: when the block is accepted, so is every
residual address.
-/

namespace BpfTv.Ssa

/-- An address that a classifier is called for: a pointer, a `ptrtoint`, or an addition to one. -/
inductive Addr
  | ptr (v : Val)
  | cast (i : Instr)
  | sum (i : Instr)

def Addr.val : Addr → Val
  | .ptr v => v
  | .cast i | .sum i => .inst i.id

/-- The classifier that is called for an address. -/
def classify (F : Fn) (U : F.UseLists) (slots : List StackSlot) (depth : Nat) :
    Addr → BitVec 64 → Except Stop Plans
  | .ptr v, c => classifyPtr F U slots depth v c
  | .cast i, c => classifyIntUses F U slots depth i c
  | .sum i, c => classifyAddr F U slots depth i c

/-- A sum is a residual address when no slot covers it. -/
def Addr.Open (slots : List StackSlot) : Addr → BitVec 64 → Prop
  | .sum i, c => i.op ≠ .inttoptr ∧ slotAt slots c = none
  | _, _ => True

/-! ## Users -/

/-- The plans `Q` of a loop over users, in which `K` holds of each user and its plans. -/
def Collected (us : List User) (K : User → Plans → Prop) (Q : Plans) : Prop :=
  ∃ g : User → Plans, (∀ u ∈ us, K u (g u)) ∧ Q.gepPlans = us.flatMap (fun u => (g u).gepPlans) ∧
    Q.intPlans = us.flatMap fun u => (g u).intPlans

theorem Collected.mono {us : List User} {K K' : User → Plans → Prop} {Q : Plans} (h : Collected us K Q)
    (hK : ∀ u ∈ us, ∀ q, K u q → K' u q) : Collected us K' Q := by
  obtain ⟨g, hg, hQ⟩ := h
  exact ⟨g, fun u hu => hK u hu _ (hg u hu), hQ⟩

/-- The plans of one user. -/
def part (f : User → Except Stop Plans) (u : User) : Plans := (f u).toOption.getD {}

theorem part_eq {f : User → Except Stop Plans} {u : User} {p : Plans} (h : f u = .ok p) : part f u = p := by
  rw [part, h]
  rfl

theorem forUsers_ok {f : User → Except Stop Plans} {us : List User} {Q : Plans}
    (h : forUsers f us = .ok Q) : Collected us (fun u q => f u = .ok q) Q := by
  refine ⟨part f, ?_⟩
  induction us generalizing Q with
  | nil =>
    cases h
    simp
  | cons u us ih =>
    cases hp : f u with
    | error e => simp [forUsers, hp, bind, Except.bind] at h
    | ok p =>
      cases hq : forUsers f us with
      | error e => simp [forUsers, hp, hq, bind, Except.bind] at h
      | ok q =>
        simp only [forUsers, hp, hq, bind, Except.bind, pure, Except.pure, Except.ok.injEq] at h
        obtain ⟨hus, hgep, hint⟩ := ih hq
        subst h
        refine ⟨List.forall_mem_cons.mpr ⟨(part_eq hp).symm ▸ hp, hus⟩, ?_, ?_⟩
        · rw [List.flatMap_cons, ← hgep, part_eq hp]
          rfl
        · rw [List.flatMap_cons, ← hint, part_eq hp]
          rfl

section

variable (F : Fn) (slots : List StackSlot) (N : Addr → BitVec 64 → Plans → Prop)

/-- The user `i` of a pointer `p` to byte `c`, and its plans; `N` holds of the calls made for it. -/
inductive PtrUse (p : Val) (c : BitVec 64) (i : Instr) : Plans → Prop
  | planned {i8 steps off s} (op : i.op = .gep i8 steps)
      (acc : accumulateConstantOffset steps i.ops.tail = some off)
      (slot : slotAt slots (c + off) = some s) : PtrUse p c i (planGep i s (c + off) none)
  | gep {i8 steps off q} (op : i.op = .gep i8 steps)
      (acc : accumulateConstantOffset steps i.ops.tail = some off)
      (slot : slotAt slots (c + off) = none) (next : N (.ptr (.inst i.id)) (c + off) q) : PtrUse p c i q
  | varGep {steps idx var k s} (op : i.op = .gep true steps)
      (acc : accumulateConstantOffset steps i.ops.tail = none) (tail : i.ops.tail = [idx])
      (base : constantBase F idx = some (var, k)) (slot : slotAt slots (c + k) = some s) :
      PtrUse p c i (planGep i s (c + k) (some var))
  | ptrtoint {q} (op : i.op = .ptrtoint) (next : N (.cast i) c q) : PtrUse p c i q
  | load {n} (op : i.op = .load n) (slot : slotAt slots c = none) : PtrUse p c i {}
  | store {n} (op : i.op = .store n) (ptr : i.ops[1]? = some p) (slot : slotAt slots c = none) :
      PtrUse p c i {}
  | call {callee} (op : i.op = .call callee) : PtrUse p c i {}
  | icmp {pred} (op : i.op = .icmp pred) : PtrUse p c i {}

/-- The user `i` of a `ptrtoint` of byte `c`. -/
inductive CastUse (c : BitVec 64) (i : Instr) : Plans → Prop
  | planned {x k s} (op : i.op = .binop .add) (parts : addParts i.ops = some (x, k))
      (slot : slotAt slots (c + k) = some s) : CastUse c i (planInt i s (c + k))
  | sum {x k q} (op : i.op = .binop .add) (parts : addParts i.ops = some (x, k))
      (slot : slotAt slots (c + k) = none) (next : N (.sum i) (c + k) q) : CastUse c i q
  | plannedCast {s} (op : i.op = .inttoptr) (slot : slotAt slots c = some s) :
      CastUse c i (planInt i s c)
  | inttoptr {q} (op : i.op = .inttoptr) (slot : slotAt slots c = none)
      (next : N (.ptr (.inst i.id)) c q) : CastUse c i q
  | icmp {pred} (op : i.op = .icmp pred) : CastUse c i {}

/-- The user `i` of a residual sum for byte `c`. -/
inductive SumUse (c : BitVec 64) (i : Instr) : Plans → Prop
  | inttoptr {q} (op : i.op = .inttoptr) (next : N (.ptr (.inst i.id)) c q) : SumUse c i q
  | icmp {pred} (op : i.op = .icmp pred) : SumUse c i {}

/-- The user `i` of an address of byte `c`. -/
def Use (c : BitVec 64) (i : Instr) (q : Plans) : Addr → Prop
  | .ptr p => PtrUse F slots N p c i q
  | .cast _ => CastUse slots N c i q
  | .sum _ => SumUse N c i q

/-- The user of an address of byte `c`; a terminator that uses a pointer is an `invoke` or a `callbr`. -/
inductive Accepted (c : BitVec 64) (a : Addr) : User → Plans → Prop
  | instr {i : Instr} {q : Plans} (h : Use F slots N c i q a) : Accepted c a (.instr i) q
  | invoke {t : Terminator} {p : Val} {callee : Callee} (ha : a = .ptr p) (op : t.op = .call callee) :
      Accepted c a (.term t) {}

end

variable {F : Fn} {U : F.UseLists} {slots : List StackSlot} {N : Addr → BitVec 64 → Plans → Prop} {c : BitVec 64}
  {u : User} {Q q : Plans} {depth : Nat}

theorem classifyVarGep_ok {i : Instr} {i8 : Bool} {idxs : List Val}
    (h : classifyVarGep F slots i i8 idxs c = .ok Q) :
    ∃ idx var k s, i8 = true ∧ idxs = [idx] ∧ constantBase F idx = some (var, k) ∧
      slotAt slots (c + k) = some s ∧ Q = planGep i s (c + k) (some var) := by
  unfold classifyVarGep at h
  split at h
  · rename_i idx
    split at h
    · cases h
    · rename_i var k hbase
      split at h
      · cases h
      · rename_i s hs
        cases h
        exact ⟨idx, var, k, s, rfl, rfl, hbase, hs, rfl⟩
  · cases h

/-- The calls that a classifier makes at a smaller depth. -/
def Deeper (F : Fn) (U : F.UseLists) (slots : List StackSlot) (depth : Nat) (a : Addr) (c : BitVec 64)
    (q : Plans) : Prop :=
  ∃ d < depth, classify F U slots d a c = .ok q ∧ a.Open slots c

theorem ptr_users {p : Val} (h : classifyPtr F U slots depth p c = .ok Q) :
    Collected (U.users p) (Accepted F slots (Deeper F U slots depth) c (.ptr p)) Q := by
  cases depth with
  | zero =>
    simp only [classifyPtr] at h
    cases h
  | succ depth =>
    simp only [classifyPtr] at h
    refine (forUsers_ok h).mono fun u _ q hq => ?_
    cases u with
    | phi => cases hq
    | term t =>
      simp only at hq
      split at hq
      · rename_i hop
        cases hq
        exact .invoke rfl hop
      · cases hq
    | instr i =>
      refine .instr ?_
      simp only at hq
      split at hq
      · rename_i i8 steps hop
        split at hq
        · rename_i off hacc
          split at hq
          · rename_i s hs
            cases hq
            exact PtrUse.planned hop hacc hs
          · rename_i hs
            exact PtrUse.gep hop hacc hs ⟨depth, Nat.lt_succ_self _, hq, trivial⟩
        · rename_i hacc
          obtain ⟨idx, var, k, s, rfl, hidx, hbase, hs, rfl⟩ := classifyVarGep_ok hq
          exact PtrUse.varGep hop hacc hidx hbase hs
      · rename_i hop
        exact PtrUse.ptrtoint hop ⟨depth, Nat.lt_succ_self _, hq, trivial⟩
      · rename_i hop
        split at hq
        · cases hq
        · rename_i hs
          cases hq
          exact PtrUse.load hop (by simpa using hs)
      · rename_i hop
        split at hq
        · rename_i hs
          cases hq
          exact PtrUse.store hop hs.1 hs.2
        · cases hq
      · rename_i hop
        cases hq
        exact PtrUse.call hop
      · rename_i hop
        cases hq
        exact PtrUse.icmp hop
      · cases hq

theorem classifyAddr_cases {i : Instr} (h : classifyAddr F U slots depth i c = .ok Q) :
    (∃ s, slotAt slots c = some s ∧ Q = planInt i s c) ∨
      slotAt slots c = none ∧ (i.op = .inttoptr → Deeper F U slots depth (.ptr (.inst i.id)) c Q) := by
  cases depth with
  | zero =>
    simp only [classifyAddr] at h
    cases h
  | succ depth =>
    simp only [classifyAddr] at h
    cases hs : slotAt slots c with
    | some s =>
      rw [hs] at h
      cases h
      exact Or.inl ⟨s, rfl, rfl⟩
    | none =>
      rw [hs] at h
      refine Or.inr ⟨rfl, fun hop => ⟨depth, Nat.lt_succ_self _, ?_, trivial⟩⟩
      simp only [hop, if_true] at h
      exact h

theorem Deeper.mono {depth' : Nat} {a : Addr} (h : Deeper F U slots depth a c Q) (hle : depth ≤ depth') :
    Deeper F U slots depth' a c Q := by
  obtain ⟨d, hd, h⟩ := h
  exact ⟨d, by omega, h⟩

theorem cast_users {pti : Instr} (h : classifyIntUses F U slots depth pti c = .ok Q) :
    Collected (U.users (.inst pti.id)) (Accepted F slots (Deeper F U slots depth) c (.cast pti)) Q := by
  cases depth with
  | zero =>
    simp only [classifyIntUses] at h
    cases h
  | succ depth =>
    simp only [classifyIntUses] at h
    refine (forUsers_ok h).mono fun u _ q hq => ?_
    cases u with
    | phi => cases hq
    | term => cases hq
    | instr i =>
      refine .instr ?_
      simp only at hq
      split at hq
      · rename_i hop
        split at hq
        · cases hq
        · rename_i x k hparts
          rcases classifyAddr_cases hq with ⟨s, hs, rfl⟩ | ⟨hs, _⟩
          · exact CastUse.planned hop hparts hs
          · have hopen : (Addr.sum i).Open slots (c + k) := ⟨by rw [hop]; decide, hs⟩
            exact CastUse.sum hop hparts hs ⟨depth, Nat.lt_succ_self _, hq, hopen⟩
      · cases hq
      · rename_i hop
        rcases classifyAddr_cases hq with ⟨s, hs, rfl⟩ | ⟨hs, hnext⟩
        · exact CastUse.plannedCast hop hs
        · exact CastUse.inttoptr hop hs ((hnext hop).mono (Nat.le_succ _))
      · rename_i hop
        cases hq
        exact CastUse.icmp hop
      · cases hq

theorem sum_users {x : Instr} (h : classifyAddr F U slots depth x c = .ok Q)
    (hopen : (Addr.sum x).Open slots c) :
    Collected (U.users (.inst x.id)) (Accepted F slots (Deeper F U slots depth) c (.sum x)) Q := by
  obtain ⟨hop, hs⟩ := hopen
  cases depth with
  | zero =>
    simp only [classifyAddr] at h
    cases h
  | succ depth =>
    simp only [classifyAddr, hs, hop, if_false] at h
    refine (forUsers_ok h).mono fun u _ q hq => ?_
    cases u with
    | phi => cases hq
    | term => cases hq
    | instr i =>
      refine .instr ?_
      simp only at hq
      split at hq
      · rename_i hop
        exact SumUse.inttoptr hop ⟨depth, Nat.lt_succ_self _, hq, trivial⟩
      · rename_i hop
        cases hq
        exact SumUse.icmp hop
      · cases hq

theorem users_of_classify {a : Addr} (h : classify F U slots depth a c = .ok Q) (hopen : a.Open slots c) :
    Collected (U.users a.val) (Accepted F slots (Deeper F U slots depth) c a) Q := by
  cases a with
  | ptr p => exact ptr_users h
  | cast pti => exact cast_users h
  | sum x => exact sum_users h hopen

theorem Use.mono {N' : Addr → BitVec 64 → Plans → Prop} {a : Addr} {i : Instr}
    (h : Use F slots N c i q a) (hN : ∀ a c, N a c q → N' a c q) : Use F slots N' c i q a := by
  cases a with
  | ptr p =>
    cases h with
    | planned op acc slot => exact .planned op acc slot
    | gep op acc slot next => exact .gep op acc slot (hN _ _ next)
    | varGep op acc tail base slot => exact .varGep op acc tail base slot
    | ptrtoint op next => exact .ptrtoint op (hN _ _ next)
    | load op slot => exact .load op slot
    | store op ptr slot => exact .store op ptr slot
    | call op => exact .call op
    | icmp op => exact .icmp op
  | cast pti =>
    cases h with
    | planned op parts slot => exact .planned op parts slot
    | sum op parts slot next => exact .sum op parts slot (hN _ _ next)
    | plannedCast op slot => exact .plannedCast op slot
    | inttoptr op slot next => exact .inttoptr op slot (hN _ _ next)
    | icmp op => exact .icmp op
  | sum x =>
    cases h with
    | inttoptr op next => exact .inttoptr op (hN _ _ next)
    | icmp op => exact .icmp op

theorem Accepted.mono {N' : Addr → BitVec 64 → Plans → Prop} {a : Addr} (h : Accepted F slots N c a u q)
    (hN : ∀ a c, N a c q → N' a c q) : Accepted F slots N' c a u q := by
  cases h with
  | instr h => exact .instr (h.mono hN)
  | invoke ha op => exact .invoke ha op

/-- Induction over the calls of the classifiers. -/
theorem classify_induct
    (hstep : ∀ a c Q, a.Open slots c → Collected (U.users a.val) (Accepted F slots N c a) Q → N a c Q) :
    ∀ depth a c Q, classify F U slots depth a c = .ok Q → a.Open slots c → N a c Q := by
  intro depth
  induction depth using Nat.strong_induction_on with
  | _ depth ih =>
    intro a c Q h hopen
    refine hstep a c Q hopen ((users_of_classify h hopen).mono fun u _ q huse => huse.mono ?_)
    rintro a c ⟨d, hd, h, hopen⟩
    exact ih d hd a c q h hopen

/-! ## Residual addresses -/

/-- The addresses of the stack block `root` that no plan moves, with their bytes. -/
inductive Residual (F : Fn) (slots : List StackSlot) (root : Nat) : Addr → BitVec 64 → Prop
  | base : Residual F slots root (.ptr (.inst root)) 0
  | gep {p c i i8 steps off} (h : Residual F slots root (.ptr p) c) (user : .instr i ∈ F.users p)
      (op : i.op = .gep i8 steps) (acc : accumulateConstantOffset steps i.ops.tail = some off)
      (slot : slotAt slots (c + off) = none) : Residual F slots root (.ptr (.inst i.id)) (c + off)
  | ptrtoint {p c i} (h : Residual F slots root (.ptr p) c) (user : .instr i ∈ F.users p)
      (op : i.op = .ptrtoint) : Residual F slots root (.cast i) c
  | add {x c i y k} (h : Residual F slots root (.cast x) c) (user : .instr i ∈ F.users (.inst x.id))
      (op : i.op = .binop .add) (parts : addParts i.ops = some (y, k))
      (slot : slotAt slots (c + k) = none) : Residual F slots root (.sum i) (c + k)
  | inttoptr {x c i} (h : Residual F slots root (.cast x) c) (user : .instr i ∈ F.users (.inst x.id))
      (op : i.op = .inttoptr) (slot : slotAt slots c = none) :
      Residual F slots root (.ptr (.inst i.id)) c
  | sumToPtr {x c i} (h : Residual F slots root (.sum x) c) (user : .instr i ∈ F.users (.inst x.id))
      (op : i.op = .inttoptr) : Residual F slots root (.ptr (.inst i.id)) c

theorem Residual.isOpen {root : Nat} {a : Addr} (h : Residual F slots root a c) : a.Open slots c := by
  cases h with
  | add _ user op parts slot => exact ⟨by rw [op]; decide, slot⟩
  | _ => trivial

instance : LE Plans := ⟨fun a b => a.gepPlans ⊆ b.gepPlans ∧ a.intPlans ⊆ b.intPlans⟩

theorem Plans.le_refl (P : Plans) : P ≤ P := ⟨List.Subset.refl _, List.Subset.refl _⟩

theorem Plans.le_trans {P Q R : Plans} (h : P ≤ Q) (h' : Q ≤ R) : P ≤ R :=
  ⟨List.Subset.trans h.1 h'.1, List.Subset.trans h.2 h'.2⟩

theorem Collected.get {us : List User} {K : User → Plans → Prop} (h : Collected us K Q) (hu : u ∈ us) :
    ∃ q, K u q ∧ q ≤ Q := by
  obtain ⟨g, hg, hgep, hint⟩ := h
  refine ⟨g u, hg u hu, fun p hp => ?_, fun p hp => ?_⟩
  · rw [hgep]
    exact List.mem_flatMap.mpr ⟨u, hu, hp⟩
  · rw [hint]
    exact List.mem_flatMap.mpr ⟨u, hu, hp⟩

/-- A classifier has accepted the address of byte `c`, with plans among `P`. -/
def Classified (F : Fn) (U : F.UseLists) (slots : List StackSlot) (P : Plans) (a : Addr) (c : BitVec 64) :
    Prop :=
  ∃ depth Q, classify F U slots depth a c = .ok Q ∧ Q ≤ P

/-- The users of an accepted residual address have their plans among `P`. -/
theorem user_of_classified {P : Plans} {a : Addr} (h : Classified F U slots P a c)
    (hopen : a.Open slots c) (hu : u ∈ F.users a.val) :
    ∃ q ≤ P, Accepted F slots (fun a c _ => Classified F U slots P a c) c a u q := by
  obtain ⟨depth, Q, h, hQ⟩ := h
  obtain ⟨q, huse, hq⟩ := (users_of_classify h hopen).get ((U.perm _).mem_iff.mpr hu)
  have hqP := Plans.le_trans hq hQ
  refine ⟨q, hqP, huse.mono ?_⟩
  rintro a c ⟨d, _, h, _⟩
  exact ⟨d, q, h, hqP⟩

theorem use_of_classified {P : Plans} {a : Addr} {i : Instr} (h : Classified F U slots P a c)
    (hopen : a.Open slots c) (hi : .instr i ∈ F.users a.val) :
    ∃ q ≤ P, Use F slots (fun a c _ => Classified F U slots P a c) c i q a := by
  obtain ⟨q, hq, huse⟩ := user_of_classified h hopen hi
  cases huse with
  | instr huse => exact ⟨q, hq, huse⟩

/-- When the block is accepted, so is every residual address. -/
theorem classified_of_residual {P : Plans} {root : Nat} {a : Addr} (h : Residual F slots root a c)
    (hroot : Classified F U slots P (.ptr (.inst root)) 0) : Classified F U slots P a c := by
  induction h with
  | base => exact hroot
  | gep _ user op acc slot ih =>
    obtain ⟨q, _, huse⟩ := use_of_classified ih trivial user
    cases huse with
    | gep op' acc' slot' next =>
      rw [op] at op'
      cases op'
      rw [acc] at acc'
      cases acc'
      exact next
    | planned op' acc' slot' =>
      rw [op] at op'
      cases op'
      rw [acc] at acc'
      cases acc'
      rw [slot] at slot'
      cases slot'
    | varGep op' acc' =>
      rw [op] at op'
      cases op'
      rw [acc] at acc'
      cases acc'
    | _ => simp_all
  | ptrtoint _ user op ih =>
    obtain ⟨q, _, huse⟩ := use_of_classified ih trivial user
    cases huse with
    | ptrtoint _ next => exact next
    | _ => simp_all
  | add _ user op parts slot ih =>
    obtain ⟨q, _, huse⟩ := use_of_classified ih trivial user
    cases huse with
    | sum _ parts' _ next =>
      rw [parts] at parts'
      cases parts'
      exact next
    | planned _ parts' slot' =>
      rw [parts] at parts'
      cases parts'
      rw [slot] at slot'
      cases slot'
    | _ => simp_all
  | inttoptr _ user op slot ih =>
    obtain ⟨q, _, huse⟩ := use_of_classified ih trivial user
    cases huse with
    | inttoptr _ _ next => exact next
    | plannedCast _ slot' =>
      rw [slot] at slot'
      cases slot'
    | _ => simp_all
  | sumToPtr h user op ih =>
    obtain ⟨q, _, huse⟩ := use_of_classified ih h.isOpen user
    cases huse with
    | inttoptr _ next => exact next
    | icmp op' => simp_all

end BpfTv.Ssa
