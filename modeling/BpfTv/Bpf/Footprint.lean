import BpfTv.Bpf.Machine

/-!
# The memory that a run accesses

A run whose accesses are all inside a set of bytes depends on the contents of these bytes only
(`returns_agree`), when the helpers do.
-/

namespace BpfTv

open Control StateTransition

variable {χ : Type} {A : BitVec 64 → Prop} {mem mem' : Mem} {a : BitVec 64} {n : Nat}

/-- The address and the size of the access of an instruction. -/
def Insn.access? (i : Insn) (regs : Regs) : Option (BitVec 64 × Nat) :=
  match i with
  | .mem i => some (i.address regs, i.bytes)
  | .atomic i => some (i.address regs, i.bytes)
  | _ => none

/-- The instruction accesses bytes of `A` only. -/
def Insn.Inside (A : BitVec 64 → Prop) (i : Insn) (regs : Regs) : Prop :=
  ∀ a n, i.access? regs = some (a, n) → ∀ j < n, A (a + BitVec.ofNat 64 j)

/-- The instruction is no atomic access at an address that is not a multiple of its size. -/
def Insn.Aligned (i : Insn) (regs : Regs) : Prop :=
  ∀ x : AtomicInsn, i = .atomic x → x.bytes ∣ (x.address regs).toNat

/-! ## One instruction -/

/-- The memories have the same contents in `A`. -/
def Mem.Agree (A : BitVec 64 → Prop) (mem mem' : Mem) : Prop := ∀ b, A b → mem b = mem' b

theorem readBytes_agree (hm : Mem.Agree A mem mem') (hin : ∀ j < n, A (a + BitVec.ofNat 64 j)) :
    readBytes mem a n = readBytes mem' a n := Bytes.leNat_congr fun j hj => hm _ (hin j hj)

theorem writeBytes_agree (hm : Mem.Agree A mem mem') (v : Nat) :
    Mem.Agree A (writeBytes mem a n v) (writeBytes mem' a n v) := by
  intro b hb
  unfold writeBytes
  split
  · rfl
  · exact hm b hb

theorem MemInsn.regs_agree (i : MemInsn) (regs : Regs) (hm : Mem.Agree A mem mem')
    (hin : ∀ j < i.bytes, A (i.address regs + BitVec.ofNat 64 j)) : i.regs regs mem = i.regs regs mem' := by
  cases i with
  | load op dst base off =>
    have hread := readBytes_agree hm hin
    show Function.update regs dst (op.value mem _) = Function.update regs dst (op.value mem' _)
    unfold LoadOp.value
    rw [show readBytes mem _ op.size.bytes = _ from hread]
    rfl
  | store op src base off => rfl
  | storeImm size imm base off => rfl

theorem MemInsn.mem_agree (i : MemInsn) (regs : Regs) (hm : Mem.Agree A mem mem') :
    Mem.Agree A (i.mem regs mem) (i.mem regs mem') := by
  cases i with
  | load op dst base off => exact hm
  | store op src base off => exact writeBytes_agree hm _
  | storeImm size imm base off => exact writeBytes_agree hm _

theorem AtomicInsn.old_agree (i : AtomicInsn) (regs : Regs) (hm : Mem.Agree A mem mem')
    (hin : ∀ j < i.bytes, A (i.address regs + BitVec.ofNat 64 j)) : i.old regs mem = i.old regs mem' := by
  rw [AtomicInsn.old, AtomicInsn.old, readBytes_agree hm hin]

theorem AtomicInsn.regs_agree (i : AtomicInsn) (regs : Regs) (hm : Mem.Agree A mem mem')
    (hin : ∀ j < i.bytes, A (i.address regs + BitVec.ofNat 64 j)) : i.regs regs mem = i.regs regs mem' := by
  rw [AtomicInsn.regs, AtomicInsn.regs, i.old_agree regs hm hin]

theorem AtomicInsn.mem_agree (i : AtomicInsn) (regs : Regs) (hm : Mem.Agree A mem mem')
    (hin : ∀ j < i.bytes, A (i.address regs + BitVec.ofNat 64 j)) :
    Mem.Agree A (i.mem regs mem) (i.mem regs mem') := by
  rw [AtomicInsn.mem, AtomicInsn.mem, i.old_agree regs hm hin]
  split
  · exact hm
  · exact writeBytes_agree hm _

/-- The states are the same but for memory outside of `A`. -/
structure BpfState.Agree (A : BitVec 64 → Prop) (s s' : BpfState χ) : Prop where
  regs : s.regs = s'.regs
  mem : Mem.Agree A s.mem s'.mem
  calls : s.calls = s'.calls

/-- What an instruction does depends on `A` only, when its access is inside. -/
theorem Insn.exec_agree {helper : Int → BpfState χ → BpfState χ} {i : Insn} {s s' t : BpfState χ}
    (hhelper : ∀ id, (helper id s).Agree A (helper id s')) (hs : s.Agree A s') (hin : i.Inside A s.regs)
    (h : i.exec helper s = .ok t) : ∃ t', i.exec helper s' = .ok t' ∧ t.Agree A t' := by
  cases i with
  | reg i =>
    cases h
    exact ⟨_, rfl, congrArg i.exec hs.regs, hs.mem, hs.calls⟩
  | mem i =>
    cases h
    refine ⟨_, rfl, ?_, ?_, hs.calls⟩
    · rw [← hs.regs]
      exact i.regs_agree s.regs hs.mem (hin _ _ rfl)
    · rw [← hs.regs]
      exact i.mem_agree s.regs hs.mem
  | atomic i =>
    simp only [Insn.exec] at h ⊢
    split at h
    · rename_i haligned
      cases h
      rw [← hs.regs, if_pos haligned]
      exact ⟨_, rfl, i.regs_agree s.regs hs.mem (hin _ _ rfl), i.mem_agree s.regs hs.mem (hin _ _ rfl), hs.calls⟩
    · cases h
  | call id =>
    cases h
    exact ⟨_, rfl, hhelper _⟩
  | jmp op w dst src off | ja off | gotol off | exit | nop =>
    cases h
    exact ⟨_, rfl, hs⟩

/-! ## Runs -/

section runs

variable {prog : Nat → Option Insn} {H : Helpers} {C : Clobbers} {regs : Regs} {k : Int} {r0 : BitVec 64}
  {calls : List HelperCall} {s s' : BpfState HelperCall}

/-- The helpers depend on `A` only. -/
def Helpers.Inside (A : BitVec 64 → Prop) (H : Helpers) : Prop :=
  ∀ id args mem mem', Mem.Agree A mem mem' →
    (H id args mem).1 = (H id args mem').1 ∧ Mem.Agree A (H id args mem).2 (H id args mem').2

theorem Helpers.Inside.call (hH : H.Inside A) (clobbered : Fin 12 → BitVec 64) (id : Int) (hs : s.Agree A s') :
    (H.call clobbered id s).Agree A (H.call clobbered id s') := by
  obtain ⟨hret, hmem⟩ := hH id (argRegs s.regs) s.mem s'.mem hs.mem
  refine ⟨?_, ?_, ?_⟩
  · show afterCall s.regs (H id (argRegs s.regs) s.mem).1 clobbered = afterCall s'.regs _ clobbered
    rw [hret, hs.regs]
  · show Mem.Agree A _ (H id (argRegs s'.regs) s'.mem).2
    rw [← hs.regs]
    exact hmem
  · show s.calls ++ _ = s'.calls ++ _
    rw [hs.calls, hs.regs]

/-- The run is at the same place, with the same data but for memory outside of `A`. -/
inductive RunsAlike (A : BitVec 64 → Prop) : Machine.State Int (BpfState HelperCall) (BpfOutcome HelperCall) →
    Machine.State Int (BpfState HelperCall) (BpfOutcome HelperCall) → Prop
  | running {k : Int} {s s' : BpfState HelperCall} (h : s.Agree A s') : RunsAlike A (.running k s) (.running k s')
  | returned {r0 : BitVec 64} {mem mem' : Mem} {calls : List HelperCall} :
    RunsAlike A (.halted (.returned r0 mem calls)) (.halted (.returned r0 mem' calls))

theorem step_alike (hH : H.Inside A) (hs : s.Agree A s')
    (hin : ∀ i, prog k.toNat = some i → i.Inside A s.regs ∧ i.Aligned s.regs) {b : Machine.State Int _ _}
    (h : (bpfMachine prog H C).step (.running k s) = some b) :
    ∃ b', (bpfMachine prog H C).step (.running k s') = some b' ∧ RunsAlike A b b' := by
  have hne : (bpfMachine prog H C).exit k ≠ .fell := by
    intro hfell
    rw [Machine.step_fell hfell] at h
    cases h
  obtain ⟨t, t', ht, ht', hagree⟩ : ∃ t t', (bpfMachine prog H C).act k s = .ok t ∧
      (bpfMachine prog H C).act k s' = .ok t' ∧ t.Agree A t' := by
    simp only [bpfMachine]
    cases hi : prog k.toNat with
    | none => exact ⟨s, s', rfl, rfl, hs⟩
    | some i =>
      obtain ⟨hinside, haligned⟩ := hin i hi
      obtain ⟨t, ht⟩ : ∃ t, i.exec (H.call (C k.toNat)) s = .ok t := by
        cases i with
        | atomic x => exact ⟨_, if_pos (haligned x rfl)⟩
        | _ => exact ⟨_, rfl⟩
      obtain ⟨t', ht', hagree⟩ := Insn.exec_agree (fun id => hH.call _ id hs) hs hinside ht
      exact ⟨t, t', ht, ht', hagree⟩
  have htest : (bpfMachine prog H C).test k t = (bpfMachine prog H C).test k t' := by
    simp only [bpfMachine, hagree.regs]
  cases hk : (bpfMachine prog H C).exit k with
  | fell => exact absurd hk hne
  | goto k' =>
    rw [Machine.step_goto hk ht] at h
    cases h
    exact ⟨_, Machine.step_goto hk ht', .running hagree⟩
  | cond x y =>
    rw [Machine.step_cond hk ht] at h
    cases h
    refine ⟨_, Machine.step_cond hk ht', ?_⟩
    rw [htest]
    exact .running hagree
  | stop =>
    rw [Machine.step_stop hk ht] at h
    cases h
    refine ⟨_, Machine.step_stop hk ht', ?_⟩
    show RunsAlike A (.halted (.returned (t.regs 0) t.mem t.calls)) (.halted (.returned (t'.regs 0) t'.mem t'.calls))
    rw [hagree.regs, hagree.calls]
    exact .returned

/-- Every access of the run from a state is inside of `A`, and every atomic one is aligned. -/
def StaysInside (prog : Nat → Option Insn) (H : Helpers) (C : Clobbers) (A : BitVec 64 → Prop)
    (a : Machine.State Int (BpfState HelperCall) (BpfOutcome HelperCall)) : Prop :=
  ∀ k s i, Reaches (bpfMachine prog H C).step a (.running k s) → prog k.toNat = some i →
    i.Inside A s.regs ∧ i.Aligned s.regs

/-- **Footprint.** What such a run returns depends on the contents of `A` only. -/
theorem returns_agree {m : Mem} (hH : H.Inside A) (hin : StaysInside prog H C A (bpfStart regs mem))
    (hm : Mem.Agree A mem mem')
    (h : .halted (.returned r0 m calls) ∈ eval (bpfMachine prog H C).step (bpfStart regs mem)) :
    ∃ m', .halted (.returned r0 m' calls) ∈ eval (bpfMachine prog H C).step (bpfStart regs mem') := by
  have hrun : ∀ b, Reaches (bpfMachine prog H C).step (bpfStart regs mem) b →
      ∃ b', Reaches (bpfMachine prog H C).step (bpfStart regs mem') b' ∧ RunsAlike A b b' := by
    intro b hb
    induction hb with
    | refl => exact ⟨_, .refl, .running ⟨rfl, hm, rfl⟩⟩
    | @tail b c hb hstep ih =>
      obtain ⟨b', hb', halike⟩ := ih
      cases halike with
      | running hs =>
        obtain ⟨c', hc', halike⟩ := step_alike hH hs (fun i hi => hin _ _ i hb hi) hstep
        exact ⟨c', hb'.tail hc', halike⟩
      | returned => cases hstep
  obtain ⟨hreach, _⟩ := mem_eval.mp h
  obtain ⟨b', hb', halike⟩ := hrun _ hreach
  cases halike with
  | returned => exact ⟨_, mem_eval.mpr ⟨hb', rfl⟩⟩

end runs

end BpfTv
