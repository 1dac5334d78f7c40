import BpfTv.Llvm.Ir
import Mathlib.Data.List.Flatten
import Mathlib.Data.List.Nodup
import Mathlib.Data.List.Perm.Basic

/-!
# LLVM functions in SSA form

The functions that the driver rewrites: the semantic copy of the source function, and the lifted
function after `-O3`. An instruction is the value it computes, its operands are a list in LLVM's
order, and an operand may occur in it more than once. What the driver cannot tell apart from other
instructions is `other`.
-/

namespace BpfTv.Ssa

inductive Ty
  | void
  | int (w : Nat)
  | ptr
  | struct (k : Nat)
  | other (k : Nat)
  deriving DecidableEq, Repr

/-- A `Value *`; instructions and phis go by their numbers. -/
inductive Val
  | inst (id : Nat)
  | arg (i : Nat)
  /-- A `ConstantInt`. -/
  | int (w : Nat) (c : BitVec w)
  /-- A global or another constant. -/
  | const (k : Nat) (ty : Ty)
  deriving DecidableEq, Repr

/-- What one index of a `gep` moves the pointer by. -/
inductive GepStep
  /-- The index times a size. -/
  | scale (bytes : Nat)
  /-- The offset of a struct field. -/
  | field (offset : Nat)
  deriving DecidableEq, Repr

inductive ConstraintPrefix
  | isInput | isOutput | isClobber | isLabel
  deriving DecidableEq, Repr

/-- An entry of `ParseConstraints`. -/
structure ConstraintInfo where
  type : ConstraintPrefix
  isIndirect : Bool := false
  MatchingInput : Int := -1
  deriving DecidableEq, Repr

structure InlineAsm where
  asmString : String
  constraints : List ConstraintInfo
  deriving DecidableEq, Repr

inductive Callee
  | asm (ia : InlineAsm)
  | function (name : String)
  /-- An `inttoptr` of a constant. -/
  | number (w : Nat) (id : BitVec w)
  /-- The last operand of the call. -/
  | value
  deriving DecidableEq, Repr

inductive Op
  | alloca (bytes align : Nat)
  /-- `i8` says that the source element type is `i8`. -/
  | gep (i8 : Bool) (steps : List GepStep)
  | ptrtoint
  | inttoptr
  | binop (o : BinOp)
  | icmp (p : Pred)
  | load (bytes : Nat)
  | store (bytes : Nat)
  | call (callee : Callee)
  | extractvalue (indices : List Nat)
  | select
  | other (k : Nat)
  deriving DecidableEq, Repr

structure Instr where
  id : Nat
  name : String := ""
  ty : Ty
  op : Op
  ops : List Val
  deriving DecidableEq, Repr

structure Phi where
  id : Nat
  ty : Ty
  incoming : List (Nat × Val)
  deriving DecidableEq, Repr

inductive TermOp
  | ret
  | br
  /-- An `invoke` or a `callbr`. -/
  | call (callee : Callee)
  | other (k : Nat)
  deriving DecidableEq, Repr

structure Terminator where
  id : Nat := 0
  op : TermOp
  ops : List Val
  succs : List Nat
  deriving DecidableEq, Repr

structure Block where
  phis : List Phi := []
  body : List Instr
  term : Terminator
  deriving DecidableEq, Repr

/-- A function; its blocks go by their positions, and its entry block is the first one. -/
structure Fn where
  args : List Ty
  blocks : List Block
  deriving DecidableEq, Repr

/-- A `User` of a value. -/
inductive User
  | instr (i : Instr)
  | phi (p : Phi)
  | term (t : Terminator)
  deriving DecidableEq, Repr

namespace Fn

variable (F : Fn)

def instrs : List Instr := F.blocks.flatMap (·.body)

def inst? (id : Nat) : Option Instr := F.instrs.find? (·.id = id)

/-- The ids of the phis and the instructions. -/
def ids : List Nat := F.blocks.flatMap fun b => b.phis.map (·.id) ++ b.body.map (·.id)

def tyOf : Val → Option Ty
  | .inst id =>
    (F.blocks.flatMap fun b =>
      b.phis.map (fun p => (p.id, p.ty)) ++ b.body.map (fun i => (i.id, i.ty))).lookup id
  | .arg i => F.args[i]?
  | .int w _ => some (.int w)
  | .const _ ty => some ty

/-- The `users()` in program order: a user is listed once for each operand that is the value. -/
def users (v : Val) : List User :=
  F.blocks.flatMap fun b =>
    b.phis.flatMap (fun p => List.replicate ((p.incoming.map (·.2)).count v) (.phi p)) ++
    b.body.flatMap (fun i => List.replicate (i.ops.count v) (.instr i)) ++
    List.replicate (b.term.ops.count v) (.term b.term)

end Fn

/-! ## Well-typed functions -/

namespace Fn

variable (F : Fn)

def isIndex (v : Val) : Bool :=
  match v with
  | .int _ _ => true
  | v => F.tyOf v = some (.int 64)

/-- The operands and the type of an instruction fit together. The lifter computes addresses in `i64`,
and so does what `-O3` makes of them. -/
def typed (i : Instr) : Bool :=
  match i.op, i.ops with
  | .alloca _ _, ops => ops.isEmpty && i.ty = .ptr
  | .gep _ steps, p :: idxs =>
    F.tyOf p = some .ptr && i.ty = .ptr && idxs.length = steps.length && idxs.all F.isIndex
  | .ptrtoint, [v] => F.tyOf v = some .ptr && i.ty = .int 64
  | .inttoptr, [v] => F.tyOf v = some (.int 64) && i.ty = .ptr
  | .binop _, [a, b] => F.tyOf a = some i.ty && F.tyOf b = some i.ty && i.ty ≠ .ptr
  | .icmp _, [a, b] => F.tyOf a = F.tyOf b
  | .load _, [p] => F.tyOf p = some .ptr
  | .store _, [_, p] => F.tyOf p = some .ptr
  | .call (.function name), _ => name ≠ "myalloc" || i.ty = .ptr
  | .call _, _ | .extractvalue _, _ | .select, _ | .other _, _ => true
  | _, _ => false

structure WellTyped : Prop where
  nodup : F.ids.Nodup
  typed : ∀ i ∈ F.instrs, F.typed i = true

variable {F} {i j : Instr} {v : Val}

theorem mem_instrs : i ∈ F.instrs ↔ ∃ b ∈ F.blocks, i ∈ b.body := List.mem_flatMap

theorem mem_users_instr : .instr i ∈ F.users v ↔ i ∈ F.instrs ∧ v ∈ i.ops := by
  simp only [users, mem_instrs, List.mem_flatMap, List.mem_append, List.mem_replicate]
  constructor
  · rintro ⟨b, hb, (⟨_, _, _, h⟩ | ⟨i, hi, hn, ⟨⟩⟩) | ⟨_, h⟩⟩
    · cases h
    · exact ⟨⟨b, hb, hi⟩, List.count_pos_iff.mp (Nat.pos_of_ne_zero hn)⟩
    · cases h
  · rintro ⟨⟨b, hb, hi⟩, hv⟩
    exact ⟨b, hb, Or.inl (Or.inr ⟨i, hi, (List.count_pos_iff.mpr hv).ne', rfl⟩)⟩

theorem nodup_instrs (h : F.ids.Nodup) : (F.instrs.map (·.id)).Nodup := by
  refine h.sublist ?_
  rw [instrs, List.map_flatMap]
  exact List.Sublist.flatMap_right _ fun b _ => List.sublist_append_right _ _

theorem WellTyped.nodup_instrs (h : F.WellTyped) : (F.instrs.map (·.id)).Nodup := Fn.nodup_instrs h.nodup

theorem WellTyped.inj (h : F.WellTyped) (hi : i ∈ F.instrs) (hj : j ∈ F.instrs) (hid : i.id = j.id) :
    i = j :=
  List.inj_on_of_nodup_map h.nodup_instrs hi hj hid

/-- An instruction is listed twice among the users of a value only when two of its operands are. -/
theorem users_pairwise (h : F.WellTyped) (v : Val) :
    (F.users v).Pairwise fun u u' => ∀ i, u = .instr i → u' = .instr i → 2 ≤ i.ops.count v := by
  have hperm : (F.users v).Perm
      ((F.blocks.flatMap fun b =>
          b.phis.flatMap fun p => List.replicate ((p.incoming.map (·.2)).count v) (.phi p)) ++
        F.instrs.flatMap (fun i => List.replicate (i.ops.count v) (.instr i)) ++
        F.blocks.flatMap fun b => List.replicate (b.term.ops.count v) (.term b.term)) := by
    rw [instrs, List.flatMap_assoc]
    exact ((List.flatMap_append_perm _ _ _).append_right _ |>.trans (List.flatMap_append_perm _ _ _)).symm
  have hsymm : ∀ {u u' : User}, (∀ i, u = .instr i → u' = .instr i → 2 ≤ i.ops.count v) →
      ∀ i, u' = .instr i → u = .instr i → 2 ≤ i.ops.count v := fun h i h₁ h₂ => h i h₂ h₁
  rw [hperm.pairwise_iff hsymm]
  have hphi : ∀ u ∈ F.blocks.flatMap (fun b => b.phis.flatMap fun p =>
      List.replicate ((p.incoming.map (·.2)).count v) (User.phi p)), ∀ i, u ≠ .instr i := by
    intro u hu i
    obtain ⟨b, _, hu⟩ := List.mem_flatMap.mp hu
    obtain ⟨p, _, hu⟩ := List.mem_flatMap.mp hu
    rw [(List.mem_replicate.mp hu).2]
    exact User.noConfusion
  have hterm : ∀ u ∈ F.blocks.flatMap (fun b => List.replicate (b.term.ops.count v) (User.term b.term)),
      ∀ i, u ≠ .instr i := by
    intro u hu i
    obtain ⟨b, _, hu⟩ := List.mem_flatMap.mp hu
    rw [(List.mem_replicate.mp hu).2]
    exact User.noConfusion
  have hinstrs : (F.instrs.flatMap fun i => List.replicate (i.ops.count v) (User.instr i)).Pairwise
      fun u u' => ∀ i, u = .instr i → u' = .instr i → 2 ≤ i.ops.count v := by
    refine List.pairwise_flatMap.mpr ⟨fun i _ => List.pairwise_replicate.mpr ?_, ?_⟩
    · by_cases hcount : i.ops.count v ≤ 1
      · exact Or.inl hcount
      · refine Or.inr fun j hj _ => ?_
        cases hj
        omega
    · refine h.nodup_instrs.of_map.imp fun {i j} hne u hu u' hu' k hk hk' => absurd ?_ hne
      rw [(List.mem_replicate.mp hu).2] at hk
      rw [(List.mem_replicate.mp hu').2] at hk'
      cases hk
      cases hk'
      rfl
  refine List.pairwise_append.mpr ⟨List.pairwise_append.mpr ⟨?_, hinstrs, ?_⟩, ?_, ?_⟩
  · exact List.pairwise_of_forall_mem_list fun u hu u' _ i hi => absurd hi (hphi u hu i)
  · exact fun u hu u' _ i hi => absurd hi (hphi u hu i)
  · exact List.pairwise_of_forall_mem_list fun u hu u' _ i hi => absurd hi (hterm u hu i)
  · exact fun u _ u' hu' i _ hi' => absurd hi' (hterm u' hu' i)

theorem inst?_eq (h : F.ids.Nodup) (hi : i ∈ F.instrs) : F.inst? i.id = some i := by
  cases hfind : F.inst? i.id with
  | none => exact absurd (List.find?_eq_none.mp hfind i hi) (by simp)
  | some j =>
    have hid : j.id = i.id := by simpa using List.find?_some hfind
    rw [List.inj_on_of_nodup_map (nodup_instrs h) (List.mem_of_find?_eq_some hfind) hi hid]

theorem WellTyped.inst?_eq (h : F.WellTyped) (hi : i ∈ F.instrs) : F.inst? i.id = some i := Fn.inst?_eq h.nodup hi

theorem lookup_of_mem {α β : Type} [BEq α] [LawfulBEq α] {l : List (α × β)} {a : α} {b : β}
    (hl : (l.map Prod.fst).Nodup) (h : (a, b) ∈ l) : l.lookup a = some b := by
  obtain ⟨l₁, l₂, rfl⟩ := List.append_of_mem h
  refine List.lookup_eq_some_iff.mpr ⟨l₁, l₂, rfl, fun p hp => ?_⟩
  rw [List.map_append, List.map_cons] at hl
  have hne := (List.nodup_append.mp hl).2.2 p.1 (List.mem_map_of_mem hp) a (List.mem_cons_self ..)
  simpa using hne.symm

theorem mem_of_lookup {α β : Type} [BEq α] [LawfulBEq α] {l : List (α × β)} {a : α} {b : β}
    (h : l.lookup a = some b) : (a, b) ∈ l := by
  obtain ⟨l₁, l₂, rfl, _⟩ := List.lookup_eq_some_iff.mp h
  exact List.mem_append_right _ (List.mem_cons_self ..)

theorem lookup_map (σ : Val → Val) (k : Nat) (es : List (Nat × Val)) :
    (es.map fun e => (e.1, σ e.2)).lookup k = (es.lookup k).map σ := by
  induction es with
  | nil => rfl
  | cons e es ih =>
    rw [List.map_cons, List.lookup_cons, List.lookup_cons, ih]
    split <;> rfl

theorem map_typed_ids (F : Fn) : (F.blocks.flatMap fun b =>
    b.phis.map (fun p => (p.id, p.ty)) ++ b.body.map (fun i => (i.id, i.ty))).map Prod.fst = F.ids := by
  rw [List.map_flatMap, ids]
  congr 1
  funext b
  rw [List.map_append, List.map_map, List.map_map]
  rfl

theorem tyOf_inst (h : F.ids.Nodup) (hi : i ∈ F.instrs) : F.tyOf (.inst i.id) = some i.ty := by
  obtain ⟨b, hb, hi⟩ := mem_instrs.mp hi
  refine lookup_of_mem ?_ (List.mem_flatMap.mpr ⟨b, hb, List.mem_append_right _ (List.mem_map_of_mem hi)⟩)
  rw [map_typed_ids]
  exact h

theorem WellTyped.tyOf_inst (h : F.WellTyped) (hi : i ∈ F.instrs) : F.tyOf (.inst i.id) = some i.ty :=
  Fn.tyOf_inst h.nodup hi

end Fn

/-! ## Uses -/

variable {F : Fn} {i : Instr} {v : Val}

/-- The user has the value among its operands. -/
inductive Fn.UsedBy (F : Fn) (v : Val) : User → Prop
  | instr {i : Instr} (hi : i ∈ F.instrs) (hv : v ∈ i.ops) : F.UsedBy v (.instr i)
  | phi {b : Block} {p : Phi} (hb : b ∈ F.blocks) (hp : p ∈ b.phis) (hv : v ∈ p.incoming.map (·.2)) :
      F.UsedBy v (.phi p)
  | term {b : Block} (hb : b ∈ F.blocks) (hv : v ∈ b.term.ops) : F.UsedBy v (.term b.term)

theorem mem_users {u : User} : u ∈ F.users v ↔ F.UsedBy v u := by
  have hcount : ∀ (xs : List Val), xs.count v ≠ 0 ↔ v ∈ xs := fun xs => by
    rw [← Nat.pos_iff_ne_zero, List.count_pos_iff]
  simp only [Fn.users, List.mem_flatMap, List.mem_append, List.mem_replicate, hcount]
  constructor
  · rintro ⟨b, hb, (⟨p, hp, hv, rfl⟩ | ⟨i, hi, hv, rfl⟩) | ⟨hv, rfl⟩⟩
    · exact .phi hb hp hv
    · exact .instr (Fn.mem_instrs.mpr ⟨b, hb, hi⟩) hv
    · exact .term hb hv
  · intro h
    cases h with
    | instr hi hv =>
      obtain ⟨b, hb, hi⟩ := Fn.mem_instrs.mp hi
      exact ⟨b, hb, Or.inl (Or.inr ⟨_, hi, hv, rfl⟩)⟩
    | phi hb hp hv => exact ⟨_, hb, Or.inl (Or.inl ⟨_, hp, hv, rfl⟩)⟩
    | term hb hv => exact ⟨_, hb, Or.inr ⟨hv, rfl⟩⟩

/-- `users()` in the order that LLVM has it in, which depends on how the function has come about. -/
structure Fn.UseLists (F : Fn) where
  users : Val → List User
  perm : ∀ v, (users v).Perm (F.users v)

def Fn.useLists (F : Fn) : F.UseLists := ⟨F.users, fun _ => .refl _⟩

theorem Fn.UseLists.mem_users {U : F.UseLists} {u : User} : u ∈ U.users v ↔ F.UsedBy v u :=
  (U.perm v).mem_iff.trans Ssa.mem_users

theorem Fn.UseLists.pairwise (U : F.UseLists) (h : F.WellTyped) (v : Val) :
    (U.users v).Pairwise fun u u' => ∀ i, u = .instr i → u' = .instr i → 2 ≤ i.ops.count v :=
  ((U.perm v).pairwise_iff fun h i h₁ h₂ => h i h₂ h₁).mpr (Fn.users_pairwise h v)

theorem mem_ids (h : i ∈ F.instrs) : i.id ∈ F.ids := by
  obtain ⟨b, hb, hi⟩ := Fn.mem_instrs.mp h
  exact List.mem_flatMap.mpr ⟨b, hb, List.mem_append_right _ (List.mem_map_of_mem hi)⟩

theorem users_eq_nil (h : ∀ u, ¬F.UsedBy v u) : F.users v = [] :=
  List.eq_nil_iff_forall_not_mem.mpr fun u hu => h u (mem_users.mp hu)

theorem sole_user (h : (F.users v).length ≤ 1) (hi : i ∈ F.instrs) (hv : v ∈ i.ops) {u : User}
    (hu : F.UsedBy v u) : u = .instr i := by
  have hmem := mem_users.mpr hu
  have hmem' := mem_users.mpr (.instr hi hv)
  match hus : F.users v, h with
  | [], _ =>
    rw [hus] at hmem
    cases hmem
  | [u'], _ =>
    rw [hus] at hmem hmem'
    rw [List.mem_singleton.mp hmem, List.mem_singleton.mp hmem']

theorem users_length (F : Fn) (v : Val) : (F.users v).length =
    (F.blocks.map fun b => (b.phis.map fun p => (p.incoming.map (·.2)).count v).sum +
      b.term.ops.count v).sum + (F.instrs.map fun i => i.ops.count v).sum := by
  unfold Fn.users Fn.instrs
  induction F.blocks with
  | nil => rfl
  | cons b bs ih =>
    rw [List.flatMap_cons, List.length_append, ih]
    simp only [List.length_append, List.length_flatMap, List.length_replicate, List.map_cons,
      List.sum_cons, List.flatMap_cons, List.map_append, List.sum_append_nat]
    omega

theorem count_le_users (hi : i ∈ F.instrs) : i.ops.count v ≤ (F.users v).length := by
  obtain ⟨b, hb, hi⟩ := Fn.mem_instrs.mp hi
  let f : Instr → List User := fun j => List.replicate (j.ops.count v) (.instr j)
  let g : Block → List User := fun b =>
    b.phis.flatMap (fun p => List.replicate ((p.incoming.map (·.2)).count v) (.phi p)) ++
      b.body.flatMap f ++ List.replicate (b.term.ops.count v) (.term b.term)
  have hbody : (b.body.flatMap f).Sublist (g b) :=
    (List.sublist_append_right _ _).trans (List.sublist_append_left _ _)
  have hblock : (g b).Sublist (F.users v) := by
    have h := (List.singleton_sublist.mpr hb).flatMap g
    rwa [List.flatMap_singleton] at h
  have hinstr : ([i].flatMap f).Sublist (b.body.flatMap f) := (List.singleton_sublist.mpr hi).flatMap f
  have hlen := (hinstr.trans (hbody.trans hblock)).length_le
  simpa [f] using hlen

/-! ## Edits -/

/-- The value after `replaceAllUsesWith`. -/
def Val.subst (old : Nat) (new : Val) (v : Val) : Val := if v = .inst old then new else v

def Instr.map (f : Val → Val) (i : Instr) : Instr := { i with ops := i.ops.map f }

def Phi.map (f : Val → Val) (p : Phi) : Phi :=
  { p with incoming := p.incoming.map fun e => (e.1, f e.2) }

def Terminator.map (f : Val → Val) (t : Terminator) : Terminator := { t with ops := t.ops.map f }

/-- The function with `f` applied to every operand. -/
def Fn.map (f : Val → Val) (F : Fn) : Fn :=
  { F with blocks := F.blocks.map fun b =>
      { phis := b.phis.map (·.map f), body := b.body.map (·.map f), term := b.term.map f } }

/-- The function with every instruction replaced by a list of instructions. -/
def Fn.expand (f : Instr → List Instr) (F : Fn) : Fn :=
  { F with blocks := F.blocks.map fun b => { b with body := b.body.flatMap f } }

def Fn.replaceAllUsesWith (F : Fn) (old : Nat) (new : Val) : Fn := F.map (Val.subst old new)

def Fn.eraseFromParent (F : Fn) (id : Nat) : Fn := F.expand fun i => if i.id = id then [] else [i]

/-- What an `IRBuilder` at instruction `pos` creates. -/
def Fn.insertBefore (F : Fn) (pos : Nat) (new : List Instr) : Fn :=
  F.expand fun i => if i.id = pos then new ++ [i] else [i]

/-- A new instruction at the first insertion point of the entry block. -/
def Fn.insertEntry (F : Fn) (new : Instr) : Fn :=
  { F with blocks := F.blocks.modifyHead fun b => { b with body := new :: b.body } }

/-- An id that is not in use yet. -/
def Fn.fresh (F : Fn) : Nat := (F.ids.max?).elim 0 (· + 1)

theorem lt_fresh {id : Nat} (h : id ∈ F.ids) : id < F.fresh := by
  unfold Fn.fresh
  cases hmax : F.ids.max? with
  | none =>
    rw [List.max?_eq_none_iff.mp hmax] at h
    cases h
  | some m =>
    have hle : id ≤ m := (List.max?_eq_some_iff.mp hmax).2 id h
    show id < m + 1
    omega

/-! ## The ids of an edited function -/

def Fn.phiIds (F : Fn) : List Nat := F.blocks.flatMap fun b => b.phis.map (·.id)

theorem Fn.ids_perm (F : Fn) : F.ids.Perm (F.phiIds ++ F.instrs.map (·.id)) := by
  rw [Fn.ids, Fn.instrs, List.map_flatMap]
  exact (List.flatMap_append_perm _ _ _).symm

theorem Fn.instrs_expand (F : Fn) (f : Instr → List Instr) : (F.expand f).instrs = F.instrs.flatMap f := by
  simp only [Fn.instrs, Fn.expand, List.flatMap_map, List.flatMap_assoc]

theorem Fn.phiIds_expand (F : Fn) (f : Instr → List Instr) : (F.expand f).phiIds = F.phiIds := by
  simp only [Fn.phiIds, Fn.expand, List.flatMap_map]

theorem Fn.ids_map (F : Fn) (f : Val → Val) : (F.map f).ids = F.ids := by
  simp only [Fn.ids, Fn.map, List.flatMap_map, List.map_map]
  rfl

theorem mem_ids_iff {a : Nat} : a ∈ F.ids ↔ a ∈ F.phiIds ∨ ∃ i ∈ F.instrs, i.id = a := by
  rw [F.ids_perm.mem_iff, List.mem_append, List.mem_map]

theorem expand_ids {f : Instr → List Instr} (hF : F.ids.Nodup)
    (hf : ∀ i ∈ F.instrs, ((f i).map (·.id)).Nodup ∧ ∀ x ∈ f i, x = i ∨ x.id ∉ F.ids)
    (hnew : ∀ i ∈ F.instrs, ∀ j ∈ F.instrs, ∀ x ∈ f i, ∀ y ∈ f j, x.id = y.id → x.id ∉ F.ids → i.id = j.id) :
    (F.expand f).ids.Nodup := by
  rw [(F.expand f).ids_perm.nodup_iff, Fn.phiIds_expand, Fn.instrs_expand, List.map_flatMap]
  obtain ⟨hphi, hinstrs, hdisj⟩ := List.nodup_append.mp (F.ids_perm.nodup_iff.mp hF)
  refine List.nodup_append.mpr ⟨hphi, List.nodup_flatMap.mpr ⟨fun i hi => (hf i hi).1, ?_⟩, ?_⟩
  · refine hinstrs.of_map.imp_of_mem fun {i j} hi hj hne => ?_
    show List.Disjoint _ _
    rw [List.disjoint_left]
    intro a ha ha'
    obtain ⟨x, hx, rfl⟩ := List.mem_map.mp ha
    obtain ⟨y, hy, hid⟩ := List.mem_map.mp ha'
    refine hne (List.inj_on_of_nodup_map hinstrs hi hj ?_)
    rcases (hf i hi).2 x hx with rfl | hout
    · rcases (hf j hj).2 y hy with rfl | hout
      · exact hid.symm
      · exact absurd (hid ▸ mem_ids hi) hout
    · exact hnew i hi j hj x hx y hy hid.symm hout
  · intro a ha b hb heq
    obtain ⟨i, hi, hb⟩ := List.mem_flatMap.mp hb
    obtain ⟨x, hx, rfl⟩ := List.mem_map.mp hb
    rcases (hf i hi).2 x hx with rfl | hout
    · exact hdisj a ha _ (List.mem_map_of_mem hi) heq
    · exact hout (heq ▸ mem_ids_iff.mpr (Or.inl ha))

theorem eraseFromParent_ids (id : Nat) (hF : F.ids.Nodup) :
    (F.eraseFromParent id).ids.Nodup ∧ ∀ a ∈ (F.eraseFromParent id).ids, a ∈ F.ids := by
  have hself : ∀ i : Instr, ∀ x ∈ (if i.id = id then [] else [i]), x = i := by
    intro i x hx
    split at hx
    · cases hx
    · exact List.mem_singleton.mp hx
  refine ⟨expand_ids hF (fun i _ => ⟨?_, fun x hx => Or.inl (hself i x hx)⟩)
    fun i hi j hj x hx y hy hid hout => ?_, fun a ha => ?_⟩
  · split
    · exact List.nodup_nil
    · exact List.nodup_singleton _
  · rw [hself i x hx] at hout
    exact absurd (mem_ids hi) hout
  · rcases mem_ids_iff.mp ha with hphi | ⟨x, hx, rfl⟩
    · rw [Fn.eraseFromParent, Fn.phiIds_expand] at hphi
      exact mem_ids_iff.mpr (Or.inl hphi)
    · rw [Fn.eraseFromParent, Fn.instrs_expand] at hx
      obtain ⟨i, hi, hx⟩ := List.mem_flatMap.mp hx
      exact hself i x hx ▸ mem_ids hi

theorem insertBefore_ids (pos : Nat) {new : List Instr} (hF : F.ids.Nodup)
    (hnew : (new.map (·.id)).Nodup) (hfresh : ∀ x ∈ new, x.id ∉ F.ids) :
    (F.insertBefore pos new).ids.Nodup ∧
      ∀ a ∈ (F.insertBefore pos new).ids, a ∈ F.ids ∨ a ∈ new.map (·.id) := by
  have hcases : ∀ i : Instr, ∀ x ∈ (if i.id = pos then new ++ [i] else [i]), x = i ∨ x ∈ new ∧ i.id = pos := by
    intro i x hx
    split at hx
    · rename_i hid
      rcases List.mem_append.mp hx with hx | hx
      · exact Or.inr ⟨hx, hid⟩
      · exact Or.inl (List.mem_singleton.mp hx)
    · exact Or.inl (List.mem_singleton.mp hx)
  refine ⟨expand_ids hF (fun i hi => ⟨?_, fun x hx => (hcases i x hx).imp id fun h => hfresh x h.1⟩)
    fun i hi j hj x hx y hy hid hout => ?_, fun a ha => ?_⟩
  · split
    · rw [List.map_append]
      refine List.nodup_append.mpr ⟨hnew, List.nodup_singleton _, fun a ha b hb heq => ?_⟩
      obtain ⟨x, hx, rfl⟩ := List.mem_map.mp ha
      rw [List.mem_singleton.mp hb] at heq
      exact hfresh x hx (heq ▸ mem_ids hi)
    · exact List.nodup_singleton _
  · rcases hcases i x hx with rfl | ⟨_, hpos⟩
    · exact absurd (mem_ids hi) hout
    · rcases hcases j y hy with rfl | ⟨_, hpos'⟩
      · exact absurd (hid ▸ mem_ids hj) hout
      · rw [hpos, hpos']
  · rcases mem_ids_iff.mp ha with hphi | ⟨x, hx, rfl⟩
    · rw [Fn.insertBefore, Fn.phiIds_expand] at hphi
      exact Or.inl (mem_ids_iff.mpr (Or.inl hphi))
    · rw [Fn.insertBefore, Fn.instrs_expand] at hx
      obtain ⟨i, hi, hx⟩ := List.mem_flatMap.mp hx
      rcases hcases i x hx with rfl | ⟨hx, _⟩
      · exact Or.inl (mem_ids hi)
      · exact Or.inr (List.mem_map_of_mem hx)

theorem insertEntry_ids {new : Instr} (hF : F.ids.Nodup) (hfresh : new.id ∉ F.ids) :
    (F.insertEntry new).ids.Nodup ∧ ∀ a ∈ (F.insertEntry new).ids, a ∈ F.ids ∨ a = new.id := by
  cases hb : F.blocks with
  | nil =>
    have hids : (F.insertEntry new).ids = F.ids := by simp [Fn.ids, Fn.insertEntry, hb]
    rw [hids]
    exact ⟨hF, fun a ha => Or.inl ha⟩
  | cons b bs =>
    have hperm : (F.insertEntry new).ids.Perm (new.id :: F.ids) := by
      simp only [Fn.ids, Fn.insertEntry, hb, List.modifyHead_cons, List.flatMap_cons, List.map_cons]
      have hmid : (b.phis.map (·.id) ++ new.id :: b.body.map (·.id)).Perm
          (new.id :: (b.phis.map (·.id) ++ b.body.map (·.id))) := List.perm_middle
      exact hmid.append_right _
    refine ⟨hperm.nodup_iff.mpr (List.nodup_cons.mpr ⟨hfresh, hF⟩), fun a ha => ?_⟩
    exact (List.mem_cons.mp (hperm.mem_iff.mp ha)).symm

end BpfTv.Ssa
