import BpfTv.Driver.FrameAddresses
import BpfTv.Lib.Relocation

/-!
# Memory after the split

In a run of the split function the bytes of the frame are in the block and in the objects, no two of them
at one place. What is left of the block is as long as before, so that an access that stays in it can come
to the bytes of a slot that has an object. When no access does, every access goes to the bytes that it
would go to with a single block, and every load gives what it would give there. The rewrite checks this
of the first byte of a load or a store only, and not at all of a call (`split_sound`).
-/

namespace BpfTv.Ssa

open Relocation

variable {V W β : Type} {F G : Fn} {U : ∀ F : Fn, F.UseLists} {M : Semantics V W} {world : W}
  {slots : List StackSlot} {R : Rewrite} {stack i j : Instr} {a b c k : BitVec 64} {d root depth w : Nat}
  {Q : Plans} {E : Edits} {o : Option StackSlot} {s : StackSlot} {place : Option StackSlot → Nat}
  {x x' : SsaCfg V W}

/-! ## Accesses -/

def isMemcpy (f : String) : Bool :=
  "llvm.memcpy".toList.isPrefixOf f.toList || "llvm.memmove".toList.isPrefixOf f.toList

def isMemset (f : String) : Bool := "llvm.memset".toList.isPrefixOf f.toList

/-- How many bytes an instruction accesses. -/
inductive Extent
  | bytes (n : Nat)
  /-- The length of a memory intrinsic. -/
  | length (v : Val)
  deriving DecidableEq, Repr

namespace Extent

/-- The number, when the function tells it. -/
def literal : Extent → Option Nat
  | bytes n => some n
  | length (.int _ n) => some n.toNat
  | length _ => none

def map (f : Val → Val) : Extent → Extent
  | bytes n => bytes n
  | length v => length (f v)

/-- The number in a run. -/
def eval (M : Semantics V W) (ρ : SsaEnv V) : Extent → Option Nat
  | bytes n => some n
  | length v =>
    match v.eval M ρ with
    | .int _ n => some n.toNat
    | _ => none

end Extent

/-- The addresses that an instruction accesses, with the numbers of bytes. -/
def Instr.accesses (i : Instr) : List (Val × Extent) :=
  match i.op, i.ops with
  | .load n, [p] => [(p, .bytes n)]
  | .store n, [_, p] => [(p, .bytes n)]
  | .call (.function f), dst :: src :: len :: _ =>
    if isMemcpy f then [(dst, .length len), (src, .length len)]
    else if isMemset f then [(dst, .length len)]
    else []
  | _, _ => []

/-- What an instruction does to memory when its operands are `xs`; `enc` gives the bytes of a value. Any
other function that is called does whatever it does. -/
inductive Instr.Performs (enc : Nat → Datum V → List β) (i : Instr) (xs : List (Datum V)) :
    List (Access (BitVec 64) β) → Prop
  | load {n a} (op : i.op = .load n) (ops : xs = [.ptr a]) : Performs enc i xs [.load a n]
  | store {n v a} (op : i.op = .store n) (ops : xs = [v, .ptr a]) : Performs enc i xs [.store a (enc n v)]
  | copy {f dst src w n rest} (op : i.op = .call (.function f)) (hf : isMemcpy f = true)
      (ops : xs = .ptr dst :: .ptr src :: .int w n :: rest) : Performs enc i xs [.copy dst src n.toNat]
  | set {f dst v w n rest} (op : i.op = .call (.function f)) (hf : isMemset f = true)
      (ops : xs = .ptr dst :: v :: .int w n :: rest) :
      Performs enc i xs [.store dst (List.replicate n.toNat (enc 1 v)).flatten]
  | call {callee t} (op : i.op = .call callee)
      (hf : ∀ f, callee = .function f → isMemcpy f = false ∧ isMemset f = false) : Performs enc i xs t
  | silent (load : ∀ n, i.op ≠ .load n) (store : ∀ n, i.op ≠ .store n) (call : ∀ f, i.op ≠ .call f) :
      Performs enc i xs []

/-- The block of `x` ends with an `invoke` or a `callbr`, which comes next. -/
def Fn.Invokes (G : Fn) (x : SsaCfg V W) : Prop :=
  x.rest = some [] ∧ ∃ b callee, G.blocks[x.blk]? = some b ∧ b.term.op = .call callee

/-- A run, with the accesses that it has made and where it made them. -/
inductive Fn.Trace (G : Fn) (M : Semantics V W) (world : W) (enc : Nat → Datum V → List β) :
    SsaCfg V W → List (SsaCfg V W × Access (BitVec 64) β) → Prop
  | start : Trace G M world enc (.start world) []
  | jump {x x' t us} (h : Trace G M world enc x t) (hs : G.step M x = some x')
      (hrest : ∀ i rest, x.rest ≠ some (i :: rest)) (hus : us ≠ [] → G.Invokes x) :
      Trace G M world enc x' (t ++ us.map fun u => (x, u))
  | exec {x x' t i rest us} (h : Trace G M world enc x t) (hs : G.step M x = some x')
      (hrest : x.rest = some (i :: rest)) (hp : i.Performs enc (i.ops.map (·.eval M x.env)) us) :
      Trace G M world enc x' (t ++ us.map fun u => (x, u))

theorem Fn.Trace.reaches {enc : Nat → Datum V → List β} {t : List (SsaCfg V W × Access (BitVec 64) β)}
    (h : G.Trace M world enc x t) : G.Reaches M world x ∧ ∀ e ∈ t, G.Reaches M world e.1 := by
  induction h with
  | start => exact ⟨.refl, by simp⟩
  | jump _ hs _ _ ih | exec _ hs _ _ ih =>
    refine ⟨ih.1.tail hs, fun e he => ?_⟩
    rcases List.mem_append.mp he with he | he
    · exact ih.2 e he
    · obtain ⟨u, _, rfl⟩ := List.mem_map.mp he
      exact ih.1

/-! ## Where the bytes of the frame are -/

/-- A byte of the frame, or of other memory. -/
inductive Loc
  | frame (c : BitVec 64)
  | other (a : BitVec 64)
  deriving DecidableEq, Repr

def Loc.shift : Loc → Nat → Loc
  | frame c, i => frame (c + BitVec.ofNat 64 i)
  | other a, i => other (a + BitVec.ofNat 64 i)

def addrShift (a : BitVec 64) (i : Nat) : BitVec 64 := a + BitVec.ofNat 64 i

/-- The slot of a byte of the frame, when it has an object. -/
def Rewrite.ownerOf (R : Rewrite) (slots : List StackSlot) (c : BitVec 64) : Option StackSlot :=
  (slotAt slots c).filter fun s => (R.objs.lookup s).isSome

/-- Where a byte is after the split. -/
def Rewrite.move (R : Rewrite) (slots : List StackSlot) (place : Option StackSlot → Nat) : Loc → BitVec 64
  | .frame c => addrAt place (R.ownerOf slots c) (ownOffset c (R.ownerOf slots c))
  | .other a => a

/-- The address is in the block or in an object. -/
def Rewrite.InBlocks (R : Rewrite) (place : Option StackSlot → Nat) (a : BitVec 64) : Prop :=
  ∃ o, R.Owner o ∧ place o ≤ a.toNat ∧ a.toNat < place o + (ownerShape o).size

/-- The bytes of the frame, and those that are in no block after the split. -/
def Rewrite.Memory (R : Rewrite) (place : Option StackSlot → Nat) : Loc → Prop
  | .frame c => c.toNat < (ownerShape none).size
  | .other a => ¬R.InBlocks place a

theorem ownerOf_eq_some (h : R.ownerOf slots c = some s) : s ∈ slots ∧ s.Holds c ∧ R.Owner (some s) := by
  obtain ⟨hslot, hobj⟩ := Option.filter_eq_some_iff.mp h
  obtain ⟨hs, holds⟩ := mem_of_slotAt hslot
  exact ⟨hs, holds, Option.isSome_iff_exists.mp hobj⟩

theorem owner_ownerOf (R : Rewrite) (slots : List StackSlot) (c : BitVec 64) : R.Owner (R.ownerOf slots c) := by
  cases h : R.ownerOf slots c with
  | none => trivial
  | some s => exact (ownerOf_eq_some h).2.2

theorem ownerOf_of_holds (hslots : InFrame slots) (hs : s ∈ slots) (ho : R.Owner (some s)) (h : s.Holds c) :
    R.ownerOf slots c = some s := by
  rw [Rewrite.ownerOf, slotAt_of_holds hslots hs h]
  exact Option.filter_eq_some_iff.mpr ⟨rfl, Option.isSome_iff_exists.mpr ho⟩

theorem ownerOf_eq_none (h : ∀ s, R.Owner (some s) → ¬s.Holds c) : R.ownerOf slots c = none := by
  cases ho : R.ownerOf slots c with
  | none => rfl
  | some s =>
    obtain ⟨_, holds, hs⟩ := ownerOf_eq_some ho
    exact absurd holds (h s hs)

theorem toInt_of_lt (h : c.toNat < 1280) : c.toInt = c.toNat :=
  BitVec.toInt_eq_toNat_of_lt (by omega)

theorem toNat_of_toInt (h : 0 ≤ c.toInt) : (c.toNat : Int) = c.toInt := by
  have hlt := c.isLt
  rw [BitVec.toInt_eq_toNat_cond] at h ⊢
  split <;> omega

theorem ownOffset_lt (hslots : InFrame slots) (hc : c.toNat < 1280) (ho : o = R.ownerOf slots c) :
    (ownOffset c o).toNat < (ownerShape o).size := by
  cases o with
  | none => exact hc
  | some s =>
    obtain ⟨hs, holds, _⟩ := ownerOf_eq_some ho.symm
    obtain ⟨hlow, hhigh, _⟩ := rel_of_holds hslots hs holds
    have hrel := toNat_of_toInt hlow
    show (c - BitVec.ofInt 64 s.start).toNat < s.size
    omega

theorem addrAt_inside (hplace : Placed R.Owner place) (ho : R.Owner o) (hc : c.toNat ≤ (ownerShape o).size) :
    (addrAt place o c).toNat = place o + c.toNat := by
  have hin := (hplace.fits o ho).inside
  rw [addrAt_toNat, Nat.mod_eq_of_lt (by omega)]

theorem ownOffset_inj {c' : BitVec 64} (h : ownOffset c o = ownOffset c' o) : c = c' := by
  cases o with
  | none => exact h
  | some s =>
    simp only [ownOffset] at h
    bv_omega

/-- No two bytes are at one place. -/
theorem move_injOn (hslots : InFrame slots) (hplace : Placed R.Owner place) :
    Set.InjOn (R.move slots place) {l | R.Memory place l} := by
  have hframe : ∀ c : BitVec 64, c.toNat < 1280 → ∃ o, R.Owner o ∧
      R.move slots place (.frame c) = addrAt place o (ownOffset c o) ∧
      (ownOffset c o).toNat < (ownerShape o).size ∧
      (addrAt place o (ownOffset c o)).toNat = place o + (ownOffset c o).toNat := by
    intro c hc
    have hlt := ownOffset_lt (R := R) hslots hc rfl
    have howner := owner_ownerOf R slots c
    exact ⟨_, howner, rfl, hlt, addrAt_inside hplace howner hlt.le⟩
  have hother : ∀ (c a : BitVec 64), c.toNat < 1280 → ¬R.InBlocks place a → R.move slots place (.frame c) ≠ a := by
    intro c a hc ha heq
    obtain ⟨o, ho, hmove, hlt, haddr⟩ := hframe c hc
    rw [hmove] at heq
    rw [heq] at haddr
    exact ha ⟨o, ho, by omega, by omega⟩
  intro l hl l' hl' heq
  cases l with
  | frame c =>
    cases l' with
    | frame c' =>
      obtain ⟨o, ho, hmove, hlt, haddr⟩ := hframe c hl
      obtain ⟨o', ho', hmove', hlt', haddr'⟩ := hframe c' hl'
      rw [hmove, hmove'] at heq
      rw [heq] at haddr
      by_cases hne : o = o'
      · subst hne
        have hoff : (ownOffset c o).toNat = (ownOffset c' o).toNat := by omega
        rw [ownOffset_inj (BitVec.eq_of_toNat_eq hoff)]
      · have := hplace.apart o o' ho ho' hne
        omega
    | other a' => exact absurd heq (hother c a' hl hl')
  | other a =>
    cases l' with
    | frame c' => exact absurd heq.symm (hother c' a hl' hl)
    | other a' => exact congrArg Loc.other heq

/-! ## Accesses to the frame -/

theorem ownOffset_add (c : BitVec 64) (o : Option StackSlot) (i : Nat) :
    ownOffset (c + BitVec.ofNat 64 i) o = ownOffset c o + BitVec.ofNat 64 i := by
  cases o with
  | none => rfl
  | some s =>
    simp only [ownOffset]
    bv_omega

theorem toInt_add (h : 0 ≤ c.toInt) (hin : c.toInt + w ≤ 1280) {n : Nat} (hn : n < w) :
    (c + BitVec.ofNat 64 n).toInt = c.toInt + n ∧ (c + BitVec.ofNat 64 n).toNat < 1280 := by
  have hc := toNat_of_toInt h
  have hsum : (c + BitVec.ofNat 64 n).toNat = c.toNat + n := by
    rw [BitVec.toNat_add, BitVec.toNat_ofNat]
    omega
  have hlt : (c + BitVec.ofNat 64 n).toNat < 1280 := by omega
  refine ⟨?_, hlt⟩
  rw [toInt_of_lt hlt]
  omega

/-- An access in its owner goes to the bytes of the frame that it would go to with a single block. -/
theorem frame_moves (hin : 0 ≤ c.toInt ∧ c.toInt + w ≤ 1280)
    (ho : ∀ n < w, R.ownerOf slots (c + BitVec.ofNat 64 n) = o) :
    Moves (R.Memory place) (R.move slots place) Loc.shift addrShift (.frame c) (addrAt place o (ownOffset c o)) w := by
  intro n hn
  refine ⟨(toInt_add hin.1 hin.2 hn).2, ?_⟩
  show addrAt place (R.ownerOf slots (c + BitVec.ofNat 64 n)) (ownOffset _ (R.ownerOf slots _)) = _
  rw [ho n hn, ownOffset_add, addrAt, addrShift, addrAt, BitVec.add_assoc]

theorem object_moves (hslots : InFrame slots) (hs : s ∈ slots) (ho : R.Owner (some s)) (hlow : s.start ≤ c.toInt)
    (hhigh : c.toInt + w ≤ s.start + s.size) :
    Moves (R.Memory place) (R.move slots place) Loc.shift addrShift (.frame c)
      (addrAt place (some s) (ownOffset c (some s))) w := by
  obtain ⟨hstart, hend⟩ := hslots.inside s hs
  simp only [StackFrameTopOffset] at hend
  have hin : 0 ≤ c.toInt ∧ c.toInt + w ≤ 1280 := ⟨by omega, by omega⟩
  refine frame_moves hin fun n hn => ownerOf_of_holds hslots hs ho ?_
  rw [StackSlot.Holds, (toInt_add hin.1 hin.2 hn).1]
  omega

/-! ## Accesses in their own objects -/

/-- The access is inside the block or the slot. -/
def OwnBounds (c : BitVec 64) (w : Nat) : Option StackSlot → Prop
  | none => 0 ≤ c.toInt ∧ c.toInt + w ≤ (ownerShape none).size
  | some s => s.start ≤ c.toInt ∧ c.toInt + w ≤ s.start + s.size

/-- The bytes are in no slot that has an object. -/
def Rewrite.Misses (R : Rewrite) (c : BitVec 64) (w : Nat) : Prop :=
  ∀ s, R.Owner (some s) → c.toInt + w ≤ s.start ∨ s.start + s.size ≤ c.toInt

/-- Where an access of the split function that does not leave its own object goes with a single block. What is
left of the block is an object of the size that the block had. -/
inductive Inside (R : Rewrite) (place : Option StackSlot → Nat) : Loc → BitVec 64 → Nat → Prop
  | own {o : Option StackSlot} {c : BitVec 64} {w : Nat} (ho : R.Owner o) (hin : OwnBounds c w o) :
      Inside R place (.frame c) (addrAt place o (ownOffset c o)) w
  | other {a : BitVec 64} {w : Nat} (hout : ∀ n < w, ¬R.InBlocks place (addrShift a n)) :
      Inside R place (.other a) a w

/-- The function accesses `e` bytes at the offset `c` of the block. -/
def ResidualAccess (F : Fn) (slots : List StackSlot) (stack j : Instr) (d : Nat) (c : BitVec 64) (e : Extent) :
    Prop :=
  j ∈ F.instrs ∧ (.inst d, e) ∈ j.accesses ∧ Attributed F slots stack.id d c none

/-- A condition on the accesses of a run: the place of the block and the objects, the state, the address and
the number of bytes. -/
abbrev OnAccess :=
  ∀ {V W : Type}, Semantics V W → (Option StackSlot → Nat) → SsaCfg V W → BitVec 64 → Nat → Prop

/-- No access to the block touches a slot that has an object, and in the runs of the split function in which
no access leaves its own object every load gives what it would give with a single block. This is for the
runs whose accesses meet `C`. -/
structure SplitSound (F : Fn) (slots : List StackSlot) (stack : Instr) (R : Rewrite) (σ : Val → Val)
    (C : OnAccess) : Prop where
  disjoint : ∀ j d c e w, ResidualAccess F slots stack j d c e → e.literal = some w → R.Misses c w
  /-- For the number of bytes that a run gives. -/
  lengths : ∀ {V W : Type} (M : Semantics V W) (world : W) (place : Option StackSlot → Nat) (x : SsaCfg V W)
    (rest : List Instr) j d c e w, Placed R.Owner place → R.PlacedBy stack M world place →
    R.F.Reaches M world x → x.rest = some (j.map σ :: rest) → ResidualAccess F slots stack j d c e →
    (e.map σ).eval M x.env = some w → OwnBounds c w none → C M place x (addrAt place none c) w → R.Misses c w
  loads : ∀ {V W β : Type} (M : Semantics V W) (world : W) (enc : Nat → Datum V → List β)
    (place : Option StackSlot → Nat) (m : Loc → β) (m' : BitVec 64 → β) (x : SsaCfg V W)
    (t : List (SsaCfg V W × Access (BitVec 64) β)) (u : List (Access Loc β)),
    Placed R.Owner place → R.PlacedBy stack M world place → R.F.Trace M world enc x t →
    List.Forall₂ (fun e v => v.Same (Inside R place) e.2) t u →
    (∀ e ∈ t, ∀ r ∈ e.2.ranges, C M place e.1 r.1 r.2) →
    Agree (R.Memory place) (R.move slots place) m m' →
    ∀ n x a l w, t[n]? = some (x, .load a w) → u[n]? = some (.load l w) →
      (cells addrShift a w).map (run addrShift m' ((t.take n).map (·.2))) =
        (cells Loc.shift l w).map (run Loc.shift m (u.take n))
  /-- An address that is computed from the block is in its own object, at its byte of the frame, -/
  split : ∀ {V W : Type} (M : Semantics V W) (world : W) (place : Option StackSlot → Nat) (x : SsaCfg V W) d c o,
    R.PlacedBy stack M world place → R.F.Reaches M world x → Attributed F slots stack.id d c o →
      R.Owner o ∧ ((σ (.inst d)).eval M x.env).IsAddr (addrAt place o (ownOffset c o))
  /-- and it is at this byte of the single block. -/
  frame : ∀ {V W : Type} (M : Semantics V W) (world : W) (a : BitVec 64) (x : SsaCfg V W) d c o,
    F.PlacedAt M world stack.id a → F.Reaches M world x → Attributed F slots stack.id d c o →
      (x.env d).IsAddr (a + c)

section

variable {σ : Val → Val} {l : Loc}

/-! ## The slots that have objects -/

/-- An address that is computed from the block comes to the slot, or its part without a variable index does. -/
inductive SplitOff (F : Fn) (slots : List StackSlot) (root : Nat) (s : StackSlot) : Prop
  | address {d : Nat} {c : BitVec 64} (h : Attributed F slots root d c (some s))
  | index {i : Instr} {e : Nat} {c k : BitVec 64} {i8 : Bool} {steps : List GepStep} {idx var : Val}
      (h : Attributed F slots root e c none) (hi : i ∈ F.instrs)
      (op : i.op = .gep i8 steps) (ops : i.ops = [.inst e, idx]) (acc : accumulateConstantOffset steps [idx] = none)
      (base : constantBase F idx = some (var, k)) (hs : s ∈ slots) (holds : s.Holds (c + k))

theorem SplitOff.mem (h : SplitOff F slots root s) : s ∈ slots := by
  cases h with
  | address h => exact h.mem rfl
  | index _ _ _ _ _ _ hs => exact hs

theorem GepPlan.Valid.splitOff {p : GepPlan} (hF : F.WellTyped) (hstack : stackMem F = some stack)
    (hp : p.Valid F slots stack.id) : SplitOff F slots stack.id p.slot := by
  obtain ⟨_, _, hatt, hup, hconst, _⟩ := hp.enters hF hstack
  obtain ⟨v, c, total, i8, steps, hres, huser, hop, hslot, _,
    ⟨hnone, _⟩ | ⟨_, idx, var, k, _, hacc, htail, hbase, rfl⟩⟩ := hp
  · obtain ⟨k, hgep⟩ := hconst hnone
    exact .address hgep
  · obtain ⟨hi, hmem⟩ := Fn.mem_users_instr.mp huser
    obtain ⟨hs, holds⟩ := mem_of_slotAt hslot
    obtain ⟨j, _, rfl, _⟩ := residual_ptr hF hstack hres
    obtain ⟨idxs, hops⟩ := ops_gep hF hi (follows_gep hF hi hmem hop (residual_ptr hF hstack hres)).up hop
    rw [hops, List.tail_cons] at htail hacc
    subst htail
    exact .index (attributed_of_residual hF hstack hres _ rfl) hi hop hops hacc hbase hs holds

theorem IntPlan.Valid.splitOff {p : IntPlan} (hF : F.WellTyped) (hstack : stackMem F = some stack)
    (hp : p.Valid F slots stack.id) : SplitOff F slots stack.id p.slot := by
  obtain ⟨_, _, _, _, total, hatt, _⟩ := hp.enters hF hstack
  exact .address hatt

theorem owner_iff (h : Applied F slots stack Q R E) (hR : R = applyPlans U F Q) :
    R.Owner (some s) ↔ SplitOff F slots stack.id s := by
  constructor
  · rintro ⟨obj, hs⟩
    subst hR
    rcases applyPlans_objs F Q _ (Fn.mem_of_lookup hs) with ⟨p, hp, rfl⟩ | ⟨p, hp, rfl⟩
    · exact (h.valid.gep p hp).splitOff h.typed h.block
    · exact (h.valid.int p hp).splitOff h.typed h.block
  · intro hs
    cases hs with
    | address hd => exact h.owner hd
    | @index i e c k i8 steps idx var hd hi op ops acc base hs holds =>
      obtain ⟨a, ha, _, _, t, obj, _, hidx, _, hparts, ht, holds', hlookup, _⟩ :=
        h.varGep (List.ne_nil_of_mem hs) hd hi op ops acc
      obtain rfl := List.singleton_inj.mp hidx
      obtain ⟨a', ha', hid, _, hparts'⟩ := constantBase_add base
      obtain rfl := h.typed.inj ha ha' (Val.inst.inj hid)
      cases hparts.symm.trans hparts'
      have hst := (slotAt_of_holds h.inFrame hs holds).symm.trans (slotAt_of_holds h.inFrame ht holds')
      obtain rfl := Option.some.inj hst
      exact ⟨obj, hlookup⟩

/-! ## The check of an access -/

/-- No access to the block whose length the function tells goes on to the start of a slot that is split off. -/
def SlotsUnreached (F : Fn) (slots : List StackSlot) (stack : Instr) : Prop :=
  ∀ j d c e w, ResidualAccess F slots stack j d c e → e.literal = some w → ∀ s, SplitOff F slots stack.id s →
    ¬(c.toInt ≤ s.start ∧ s.start < c.toInt + w)

/-- The function tells which bytes of the block the access is to. -/
def Told (F : Fn) (slots : List StackSlot) (stack : Instr) (σ : Val → Val) (M : Semantics V W) (x : SsaCfg V W)
    (a : BitVec 64) (w : Nat) : Prop :=
  ∃ j rest d c e, x.rest = some (j.map σ :: rest) ∧ ResidualAccess F slots stack j d c e ∧ e.literal = some w ∧
    ((σ (.inst d)).eval M x.env).HasAddr a

/-- No byte of the access is in what is left of the block, where a slot that is split off has been. -/
def Spares (F : Fn) (slots : List StackSlot) (stack : Instr) (place : Option StackSlot → Nat) (a : BitVec 64)
    (w : Nat) : Prop :=
  ∀ n < w, ∀ s, SplitOff F slots stack.id s → ∀ c, s.Holds c → addrShift a n ≠ addrAt place none c

/-- The accesses whose place or length the function does not tell spare the slots that are split off: those of
called functions, at addresses from elsewhere, and of a variable length. -/
def Sparing (F : Fn) (slots : List StackSlot) (stack : Instr) (σ : Val → Val) : OnAccess :=
  fun M place x a w => Told F slots stack σ M x a w ∨ Spares F slots stack place a w

/-- An address of the block is not behind the start of a slot, and in the slot. -/
theorem Applied.start_or_open (h : Applied F slots stack Q R E) (hd : Attributed F slots stack.id d c none)
    (hs : s ∈ slots) : c.toInt ≤ s.start ∨ ¬s.Holds c := by
  have hzero : c = 0 → c.toInt ≤ s.start := by
    rintro rfl
    exact (h.inFrame.inside s hs).1
  rcases h.stays_open hd rfl with rfl | ⟨i, hi, rfl, hop, hops⟩ | hopen
  · exact Or.inl (hzero (h.unique hd .base).1)
  · exact Or.inl (hzero (h.unique hd (.cast .base hi hop hops)).1)
  · exact Or.inr (hopen s hs)

theorem Applied.disjoint_iff (h : Applied F slots stack Q R E) (hR : R = applyPlans U F Q)
    (hobjs : ∀ s, R.Owner (some s) → s ∈ slots ∧ 0 < s.size) :
    (∀ j d c e w, ResidualAccess F slots stack j d c e → e.literal = some w → R.Misses c w) ↔
      SlotsUnreached F slots stack := by
  constructor
  · rintro hdisj j d c e w hacc hw s hsplit ⟨hlow, hhigh⟩
    have hs := (owner_iff h hR).mpr hsplit
    have := (hobjs s hs).2
    have := hdisj j d c e w hacc hw s hs
    omega
  · intro hun j d c e w hacc hw s hs
    have hopen := h.start_or_open hacc.2.2 (hobjs s hs).1
    have hstart := hun j d c e w hacc hw s ((owner_iff h hR).mp hs)
    rw [StackSlot.Holds] at hopen
    omega

theorem addrShift_addrAt (place : Option StackSlot → Nat) (o : Option StackSlot) (c : BitVec 64) (n : Nat) :
    addrShift (addrAt place o c) n = addrAt place o (c + BitVec.ofNat 64 n) := by
  rw [addrShift, addrAt, addrAt, BitVec.add_assoc]

theorem addrAt_inj {c' : BitVec 64} (h : addrAt place o c = addrAt place o c') : c = c' := by
  rw [addrAt, addrAt] at h
  bv_omega

section

variable (happlied : Applied F slots stack Q R E) (hR : R = applyPlans U F Q) (hnodup : R.F.ids.Nodup)
  (hun : SlotsUnreached F slots stack) (hplaced : R.PlacedBy stack M world place) (hx : R.F.Reaches M world x)
include happlied hR hnodup hun hplaced hx

/-- The bytes of an access to the block are in no slot that has an object. -/
theorem block_spared (hobjs : ∀ s, R.Owner (some s) → s ∈ slots ∧ 0 < s.size) (hin : OwnBounds c w none)
    (hC : Sparing F slots stack E.subst M place x (addrAt place none c) w) {n : Nat} (hn : n < w)
    (hs : R.Owner (some s)) : ¬s.Holds (c + BitVec.ofNat 64 n) := by
  rcases hC with ⟨j, rest, d, c', e, hrest, hacc, hw, haddr⟩ | hspares
  · have haddr' := (happlied.value_split hnodup hplaced hx hacc.2.2).eq haddr
    obtain rfl : c = c' := addrAt_inj haddr'
    have := (happlied.disjoint_iff hR hobjs).mpr hun j d c e w hacc hw s hs
    rw [StackSlot.Holds, (toInt_add hin.1 hin.2 hn).1]
    omega
  · intro holds
    exact hspares n hn s ((owner_iff happlied hR).mp hs) _ holds (addrShift_addrAt ..)

theorem block_misses (hobjs : ∀ s, R.Owner (some s) → s ∈ slots ∧ 0 < s.size)
    (hd : Attributed F slots stack.id d c none) (hin : OwnBounds c w none)
    (hC : Sparing F slots stack E.subst M place x (addrAt place none c) w) : R.Misses c w := by
  intro s hs
  have hopen := happlied.start_or_open hd (hobjs s hs).1
  have hsize := (hobjs s hs).2
  rw [StackSlot.Holds] at hopen
  by_contra hmeet
  -- they share the first byte of the slot
  obtain ⟨n, hn⟩ : ∃ n : Nat, c.toInt + n = s.start := ⟨(s.start - c.toInt).toNat, by omega⟩
  have hlt : n < w := by omega
  refine block_spared happlied hR hnodup hun hplaced hx hobjs hin hC hlt hs ?_
  rw [StackSlot.Holds, (toInt_add hin.1 hin.2 hlt).1]
  omega

theorem Inside.moves (hobjs : ∀ s, R.Owner (some s) → s ∈ slots ∧ 0 < s.size) (h : Inside R place l a w)
    (hC : Sparing F slots stack E.subst M place x a w) :
    Moves (R.Memory place) (R.move slots place) Loc.shift addrShift l a w := by
  cases h with
  | @own o c w ho hin =>
    cases o with
    | none =>
      exact frame_moves hin fun n hn => ownerOf_eq_none fun s hs =>
        block_spared happlied hR hnodup hun hplaced hx hobjs hin hC hn hs
    | some s => exact object_moves happlied.inFrame (hobjs s ho).1 ho hin.1 hin.2
  | other hout => exact fun n hn => ⟨hout n hn, rfl⟩

end

theorem Applied.loads (happlied : Applied F slots stack Q R E) (hR : R = applyPlans U F Q) (hnodup : R.F.ids.Nodup)
    (hobjs : ∀ s, R.Owner (some s) → s ∈ slots ∧ 0 < s.size) (hun : SlotsUnreached F slots stack)
    (hplace : Placed R.Owner place) (hplaced : R.PlacedBy stack M world place) {enc : Nat → Datum V → List β}
    {m : Loc → β} {m' : BitVec 64 → β} {t : List (SsaCfg V W × Access (BitVec 64) β)} {u : List (Access Loc β)}
    (ht : R.F.Trace M world enc x t) (hinside : List.Forall₂ (fun e v => v.Same (Inside R place) e.2) t u)
    (hC : ∀ e ∈ t, ∀ r ∈ e.2.ranges, Sparing F slots stack E.subst M place e.1 r.1 r.2)
    (hm : Agree (R.Memory place) (R.move slots place) m m') {n : Nat} (hn : t[n]? = some (x', .load a w))
    (hn' : u[n]? = some (.load l w)) :
    (cells addrShift a w).map (run addrShift m' ((t.take n).map (·.2))) =
      (cells Loc.shift l w).map (run Loc.shift m (u.take n)) := by
  have hinj := move_injOn (R := R) happlied.inFrame hplace
  have hevents : ∀ e ∈ t, R.F.Reaches M world e.1 ∧
      ∀ r ∈ e.2.ranges, Sparing F slots stack E.subst M place e.1 r.1 r.2 :=
    fun e he => ⟨ht.reaches.2 e he, hC e he⟩
  have hsame : List.Forall₂ (fun v (y : Access (BitVec 64) β) =>
      v.Same (Moves (R.Memory place) (R.move slots place) Loc.shift addrShift) y) u (t.map (·.2)) := by
    rw [List.forall₂_map_right_iff]
    refine (((List.forall₂_and_left t u).mpr ⟨hevents, hinside⟩).imp fun e v h => ?_).flip
    exact h.2.imp fun a b w hmem hab => hab.moves happlied hR hnodup hun hplaced h.1.1 hobjs (h.1.2 _ hmem)
  have hagree := run_agree hinj (List.forall₂_take n hsame) hm
  rw [List.map_take]
  refine load_agree hagree ?_
  have hlen : n < u.length := (List.getElem?_eq_some_iff.mp hn').1
  have hlen' : n < (t.map (·.2)).length := by
    rw [List.length_map]
    exact (List.getElem?_eq_some_iff.mp hn).1
  have hload := hsame.get hlen hlen'
  rw [List.get_eq_getElem, List.get_eq_getElem, List.getElem_map, (List.getElem?_eq_some_iff.mp hn).2,
    (List.getElem?_eq_some_iff.mp hn').2] at hload
  cases hload with
  | load h => exact h

/-- For the runs in which accesses that the function does not tell spare the slots that are split off, the
rewrite is sound exactly for the functions whose accesses to the block end in front of the next such slot: it
has looked at their first bytes only. -/
theorem split_sound (hF : F.WellTyped) (hslots : InFrame slots) (hstack : stackMem F = some stack)
    (h : rewriteStackObjects U depth F slots = .ok R) :
    ∃ σ : Val → Val, (∀ j ∈ F.instrs, j.accesses ≠ [] → j.map σ ∈ R.F.instrs) ∧
      (SplitSound F slots stack R σ (Sparing F slots stack σ) ↔ SlotsUnreached F slots stack) := by
  obtain ⟨Q, E, _, hR, _, happlied⟩ := exists_applied hF hslots hstack h
  have hnodup : R.F.ids.Nodup := hR ▸ (applyPlans_numbered hF.nodup Q).nodup
  have hobjs : ∀ s, R.Owner (some s) → s ∈ slots ∧ 0 < s.size := fun s hs =>
    owner_slot happlied.valid (hR ▸ hs)
  have hiff := happlied.disjoint_iff hR hobjs
  refine ⟨E.subst, fun j hj hacc => happlied.keep hj fun hT => hacc ?_, fun hs => hiff.mp hs.disjoint, fun hun => ?_⟩
  · rcases happlied.touched_op hj hT with ⟨_, _, hop⟩ | hop | hop <;> simp [Instr.accesses, hop]
  · refine ⟨hiff.mpr hun, ?_, ?_, ?_, ?_⟩
    · intro V W M world place x rest j d c e w _ hplaced hx _ hacc _ hin hC
      exact block_misses happlied hR hnodup hun hplaced hx hobjs hacc.2.2 hin hC
    · intro V W β M world enc place m m' x t u hplace hplaced ht hinside hC hm n x' a l w hn hn'
      exact happlied.loads hR hnodup hobjs hun hplace hplaced ht hinside hC hm hn hn'
    · intro V W M world place x d c o hplaced hx hd
      exact ⟨happlied.owner hd, happlied.value_split hnodup hplaced hx hd⟩
    · intro V W M world a x d c o hplace hx hd
      exact happlied.value_block hplace hx hd

end

/-! ## Accesses in front of a slot -/

theorem escapingFn_attributed : Attributed escapingFn lastSlot 0 6 1008 none := by
  have htop : Attributed escapingFn lastSlot 0 1 (0 + 1024) none :=
    Attributed.pass (i := { id := 1, ty := .ptr, op := .gep true [.scale 1], ops := [.inst 0, .int 64 1024] })
      .base (by decide) (.gep rfl rfl (by decide)) Op.noConfusion (by decide)
  have hload : Attributed escapingFn lastSlot 0 6 (0 + 1024 + -16) none :=
    Attributed.pass (i := { id := 6, ty := .ptr, op := .gep true [.scale 1], ops := [.inst 1, .int 64 (-16)] })
      htop (by decide) (.gep rfl rfl (by decide)) Op.noConfusion (by decide)
  rwa [show (0 : BitVec 64) + 1024 + -16 = 1008 by decide] at hload

/-- The access to the block ends where the slot starts. -/
theorem split_sound_escaping : ∃ R σ, rewriteStackObjects Fn.useLists 8 escapingFn lastSlot = .ok R ∧
    SplitSound escapingFn lastSlot spillBlock R σ (Sparing escapingFn lastSlot spillBlock σ) := by
  obtain ⟨R, h⟩ : ∃ R, rewriteStackObjects Fn.useLists 8 escapingFn lastSlot = .ok R := ⟨_, rfl⟩
  obtain ⟨σ, _, hiff⟩ := split_sound escapingFn_typed lastSlot_inFrame rfl h
  refine ⟨R, σ, h, hiff.mpr ?_⟩
  rintro j d c e w ⟨hj, hacc, hd⟩ hw s hs
  have haccesses : ∀ j ∈ escapingFn.instrs, ∀ e ∈ j.accesses, e = (.inst 6, .bytes 8) := by decide
  cases haccesses j hj _ hacc
  cases hw
  obtain ⟨rfl, _⟩ := hd.unique escapingFn_typed lastSlot_inFrame (up_root escapingFn_typed rfl) escapingFn_attributed
  obtain rfl := List.mem_singleton.mp hs.mem
  decide

/-- Eight bytes are loaded, of which the last four are in the slot. -/
def crossingFn : Fn :=
  { args := []
    blocks := [{ body := [spillBlock,
                   { id := 1, ty := .ptr, op := .gep true [.scale 1], ops := [.inst 0, .int 64 1016] },
                   { id := 2, ty := .void, op := .store 8, ops := [.int 64 0, .inst 1] },
                   { id := 3, ty := .ptr, op := .gep true [.scale 1], ops := [.inst 0, .int 64 1012] },
                   { id := 4, ty := .int 64, op := .load 8, ops := [.inst 3] }]
                 term := retVoid }] }

/-- The rewrite succeeds, and the load of the block does not see the store to the slot. -/
theorem split_sound_fails : ¬(∀ F (U : ∀ F : Fn, F.UseLists) slots stack R depth, F.WellTyped → InFrame slots →
    stackMem F = some stack →
    rewriteStackObjects U depth F slots = .ok R →
      ∃ σ, SplitSound F slots stack R σ fun _ _ _ _ _ => True) := by
  intro hall
  obtain ⟨R, h, hobj⟩ : ∃ R, rewriteStackObjects Fn.useLists 4 crossingFn lastSlot = .ok R ∧
      R.Owner (some ⟨-8, 8, 8, 1⟩) := ⟨_, rfl, _, rfl⟩
  obtain ⟨σ, hsound⟩ := hall crossingFn Fn.useLists lastSlot spillBlock R 4 ⟨by decide, by decide⟩ lastSlot_inFrame
    rfl h
  have hd : Attributed crossingFn lastSlot 0 3 (0 + 1012) none :=
    Attributed.pass (i := { id := 3, ty := .ptr, op := .gep true [.scale 1], ops := [.inst 0, .int 64 1012] })
      .base (by decide) (.gep rfl rfl (by decide)) Op.noConfusion (by decide)
  have hmiss := hsound.disjoint { id := 4, ty := .int 64, op := .load 8, ops := [.inst 3] } 3 (0 + 1012) (.bytes 8) 8
    ⟨by decide, by decide, hd⟩ rfl _ hobj
  exact absurd hmiss (by decide)

end BpfTv.Ssa
