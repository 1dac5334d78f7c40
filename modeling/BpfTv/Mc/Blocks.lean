import Mathlib.Data.List.Forall2
import BpfTv.Mc.Streamer

/-!
# Machine blocks

What `generateSuccessors` makes of blocks, and the shape that both the streamer and `runBytes` give
them (`Shaped`): blocks are opened with an instruction or a sentinel and filled at the end, and only
while no terminator has been written (`Built`). `Marks` finds the place of a label in the input.
-/

namespace BpfTv

variable {α β : Type} {BBs MBBs : List MCBasicBlock} {I : MCInst}

theorem mem_right_of_forall₂ {R : α → β → Prop} {as : List α} {bs : List β}
    (h : List.Forall₂ R as bs) {b : β} (hb : b ∈ bs) : ∃ a ∈ as, R a b := by
  induction h with
  | nil => cases hb
  | @cons a _ as _ hab _ ih =>
    rcases List.mem_cons.mp hb with rfl | hb
    · exact ⟨a, List.mem_cons_self .., hab⟩
    · obtain ⟨c, hc, hcb⟩ := ih hb
      exact ⟨c, List.mem_cons_of_mem _ hc, hcb⟩

theorem mapM_except_ok {f : α → Except LiftError β} {xs : List α} {ys : List β}
    (h : xs.mapM f = .ok ys) : List.Forall₂ (fun x y => f x = .ok y) xs ys := by
  induction xs generalizing ys with
  | nil =>
    cases h
    exact .nil
  | cons x xs ih =>
    rw [List.mapM_cons] at h
    cases hx : f x with
    | error e => rw [hx] at h; cases h
    | ok y =>
      cases hxs : xs.mapM f with
      | error e => rw [hx, hxs] at h; cases h
      | ok ys' =>
        rw [hx, hxs] at h
        cases h
        exact .cons hx (ih hxs)

theorem mem_dropLast_or_last {γ : Type} {xs : List γ} {x : γ} (h : x ∈ xs) :
    x ∈ xs.dropLast ∨ xs.getLast? = some x := by
  rcases List.eq_nil_or_concat' xs with rfl | ⟨ys, y, rfl⟩
  · cases h
  · rw [List.dropLast_concat, List.getLast?_concat]
    rcases List.mem_append.mp h with hy | hy
    · exact Or.inl hy
    · exact Or.inr (by rw [List.mem_singleton.mp hy])

theorem mem_tail_of_getElem? {i : Nat} {b : MCBasicBlock} (hb : BBs[i + 1]? = some b) : b ∈ BBs.tail := by
  have : BBs.tail[i]? = some b := by rwa [List.getElem?_tail]
  exact List.mem_of_getElem? this

theorem toString_inj {j k : Nat} (h : toString j = toString k) : j = k := by
  have hd : Nat.toDigits 10 j = Nat.toDigits 10 k := by
    rwa [Nat.toString_eq_ofList_toDigits, Nat.toString_eq_ofList_toDigits, String.ofList_inj] at h
  rw [← Nat.ofDigitChars_ten_toDigits (n := j), hd, Nat.ofDigitChars_ten_toDigits]

theorem modify_last {γ : Type} (xs : List γ) (x : γ) (f : γ → γ) :
    (xs ++ [x]).modify xs.length f = xs ++ [f x] := by
  induction xs with
  | nil => rfl
  | cons y ys ih => simp [ih]

theorem addInst_BBs {MF : MCFunction} {bs : List MCBasicBlock} {b : MCBasicBlock}
    (h : MF.BBs = bs ++ [b]) (i : MCInst) :
    (MF.addInst i).BBs = bs ++ [{ b with instrs := b.instrs ++ [i] }] := by
  simp [MCFunction.addInst, h, modify_last]

/-! ## Instructions of the input -/

/-- The instructions of the input. -/
def placed (is : List MCInst) : List MCInst := is.filter (·.place.isSome)

/-- The instructions of the input from block `k` on. -/
def restAt (BBs : List MCBasicBlock) (k : Nat) : List MCInst :=
  placed ((BBs.drop k).flatMap (·.instrs))

theorem placed_cons_none {is : List MCInst} (h : I.place = none) : placed (I :: is) = placed is := by
  simp [placed, h]

theorem placed_cons_some {is : List MCInst} (h : I.place ≠ none) :
    placed (I :: is) = I :: placed is := by
  simp [placed, Option.isSome_iff_ne_none, h]

/-! ## Successors -/

@[simp] theorem addSucc_name (b : MCBasicBlock) (k : Nat) : (b.addSucc k).name = b.name := by
  unfold MCBasicBlock.addSucc
  split <;> rfl

@[simp] theorem addSucc_instrs (b : MCBasicBlock) (k : Nat) : (b.addSucc k).instrs = b.instrs := by
  unfold MCBasicBlock.addSucc
  split <;> rfl

@[simp] theorem addNext_name (b : MCBasicBlock) (i : Nat) : (b.addNext BBs i).name = b.name := by
  unfold MCBasicBlock.addNext
  split <;> simp

@[simp] theorem addNext_instrs (b : MCBasicBlock) (i : Nat) :
    (b.addNext BBs i).instrs = b.instrs := by
  unfold MCBasicBlock.addNext
  split <;> simp

theorem succs_addSucc {b : MCBasicBlock} (hb : b.succs = []) (k : Nat) :
    (b.addSucc k).succs = [k] := by
  simp [MCBasicBlock.addSucc, hb]

section successors

variable {i : Nat} {b b' : MCBasicBlock} {last : MCInst} (h : addSuccessors BBs i b = .ok b')
include h

theorem addSuccessors_same : b'.name = b.name ∧ b'.instrs = b.instrs := by
  unfold addSuccessors at h
  cases hl : b.instrs.getLast? with
  | none =>
    rw [hl] at h
    cases h
    exact ⟨rfl, rfl⟩
  | some last =>
    rw [hl] at h
    simp only at h
    split at h
    · split at h <;> cases h
      exact ⟨addSucc_name _ _, addSucc_instrs _ _⟩
    split at h
    · cases ht : findTargetLabel last with
      | error e => rw [ht] at h; cases h
      | ok target =>
        rw [ht] at h
        cases hk : findBlockByName BBs target with
        | none => simp only [bind, Except.bind, hk] at h; cases h
        | some k =>
          simp only [bind, Except.bind, hk] at h
          cases h
          simp
    split at h
    · cases ht : findTargetLabel last with
      | error e => rw [ht] at h; cases h
      | ok target =>
        rw [ht] at h
        cases hk : findBlockByName BBs target with
        | none => simp only [bind, Except.bind, hk] at h; cases h; exact ⟨rfl, rfl⟩
        | some k =>
          simp only [bind, Except.bind, hk] at h
          cases h
          exact ⟨addSucc_name _ _, addSucc_instrs _ _⟩
    split at h
    · cases h
      exact ⟨rfl, rfl⟩
    · cases h
      exact ⟨addNext_name _ _, addNext_instrs _ _⟩

variable (hb : b.succs = []) (hlast : b.instrs.getLast? = some last)
include hb hlast

theorem succs_straight (hs : last.opcode.isTerminator = false) :
    b'.succs = if i + 1 < BBs.length then [i + 1] else [] := by
  obtain ⟨hc, hu, hr⟩ := Opcode.straight_flags hs
  unfold addSuccessors at h
  simp only [hlast, Opcode.isConditionalBranch_eq, hc, hu, hr, Bool.and_false, Bool.false_and,
    Bool.false_eq_true, if_false] at h
  cases h
  unfold MCBasicBlock.addNext
  split
  · exact succs_addSucc hb _
  · exact hb

theorem succs_cond (hc : last.opcode.isCondJump = true) {l : String} {k : Nat}
    (hl : targetLabel? last = some l) (hk : findBlockByName BBs l = some k) :
    b'.succs = if i + 1 < BBs.length ∧ i + 1 ≠ k then [k, i + 1] else [k] := by
  have hu := (Opcode.cond_flags hc).2.1
  unfold addSuccessors at h
  simp only [hlast, Opcode.isConditionalBranch_eq, hc, hu, Bool.and_false, Bool.false_and,
    Bool.false_eq_true, if_false, if_true, findTargetLabel, hl, bind, Except.bind, hk] at h
  cases h
  unfold MCBasicBlock.addNext
  by_cases hi : i + 1 < BBs.length
  · rw [if_pos hi, MCBasicBlock.addSucc, succs_addSucc hb]
    by_cases hik : i + 1 = k
    · simp [hik, succs_addSucc hb]
    · simp [hi, hik]
  · simp [hi, succs_addSucc hb]

theorem succs_jump (hi : i ≠ 0) (hu : last.opcode.isUnconditionalBranch = true) {l : String} {k : Nat}
    (hl : targetLabel? last = some l) (hk : findBlockByName BBs l = some k) : b'.succs = [k] := by
  have hc := (Opcode.jump_flags hu).2.1
  unfold addSuccessors at h
  simp only [hlast, Opcode.isConditionalBranch_eq, hc, hu, hi, decide_false, Bool.false_and,
    Bool.false_eq_true, if_false, if_true, findTargetLabel, hl, bind, Except.bind, hk] at h
  cases h
  exact succs_addSucc hb k

end successors

/-! ## Blocks by name -/

theorem findBlockByName_eq (name : String) :
    findBlockByName BBs name = (BBs.map (·.name)).findIdx? fun n => n = name := by
  rw [List.findIdx?_map]
  rfl

theorem findBlockByName_some {name : String} {k : Nat} (h : findBlockByName BBs name = some k) :
    ∃ b, BBs[k]? = some b ∧ b.name = name := by
  unfold findBlockByName at h
  obtain ⟨hk, hname, _⟩ := List.findIdx?_eq_some_iff_getElem.mp h
  exact ⟨BBs[k], List.getElem?_eq_getElem hk, by simpa using hname⟩

theorem findBlockByName_name (hn : (BBs.map (·.name)).Nodup) {k : Nat} {b : MCBasicBlock}
    (hb : BBs[k]? = some b) : findBlockByName BBs b.name = some k := by
  obtain ⟨hk, rfl⟩ := List.getElem?_eq_some_iff.mp hb
  refine List.findIdx?_eq_some_iff_getElem.mpr ⟨hk, by simp, fun j hj => ?_⟩
  have hne : BBs[j].name ≠ BBs[k].name := by
    intro heq
    have := List.pairwise_iff_getElem.mp hn j k (by simp; omega) (by simpa) hj
    exact this (by simpa using heq)
  simpa using hne

theorem addSuccessors_entry (BBs : List MCBasicBlock) :
    addSuccessors BBs 0 { name := entryName, instrs := [entryJump] } =
      if 1 < BBs.length then .ok { name := entryName, instrs := [entryJump], succs := [1] }
      else .error (.assertion "null successor") := rfl

/-- What `generateSuccessors` makes of each block. -/
theorem generateSuccessors_ok (h : generateSuccessors BBs = .ok MBBs) :
    MBBs.length = BBs.length ∧ ∀ (i : Nat) (b b' : MCBasicBlock), BBs[i]? = some b →
      MBBs[i]? = some b' → addSuccessors BBs i b = .ok b' := by
  have hall := mapM_except_ok h
  refine ⟨by simpa using hall.length_eq.symm, fun i b b' hb hb' => ?_⟩
  obtain ⟨hi, rfl⟩ := List.getElem?_eq_some_iff.mp hb
  obtain ⟨hi', rfl⟩ := List.getElem?_eq_some_iff.mp hb'
  simpa using hall.get (i := i) (by simpa using hi) hi'

theorem generateSuccessors_same (h : generateSuccessors BBs = .ok MBBs) :
    MBBs.map (·.name) = BBs.map (·.name) ∧ MBBs.map (·.instrs) = BBs.map (·.instrs) := by
  obtain ⟨hlen, hget⟩ := generateSuccessors_ok h
  have hsame : ∀ (i : Nat) (hi : i < MBBs.length) (hi' : i < BBs.length),
      MBBs[i].name = BBs[i].name ∧ MBBs[i].instrs = BBs[i].instrs := fun i hi hi' =>
    addSuccessors_same (hget i _ _ (List.getElem?_eq_getElem hi') (List.getElem?_eq_getElem hi))
  constructor
  · refine List.ext_getElem (by simp [hlen]) fun i hi hi' => ?_
    simp only [List.getElem_map]
    exact (hsame i (by simpa using hi) (by simpa using hi')).1
  · refine List.ext_getElem (by simp [hlen]) fun i hi hi' => ?_
    simp only [List.getElem_map]
    exact (hsame i (by simpa using hi) (by simpa using hi')).2

/-! ## Shape -/

/-- What the streamer and `runBytes` make, with the entry block in front. -/
structure Shaped (BBs : List MCBasicBlock) : Prop where
  entry : BBs[0]? = some { name := entryName, instrs := [entryJump] }
  succs : ∀ b ∈ BBs, b.succs = []
  names : (BBs.map (·.name)).Nodup
  nonempty : ∀ b ∈ BBs, b.instrs ≠ []
  inner : ∀ b ∈ BBs, ∀ I ∈ b.instrs.dropLast, I.opcode.isTerminator = false
  unplaced : ∀ b ∈ BBs.tail, ∀ I ∈ b.instrs, I.place = none → I.opcode = .NOP
  targets : ∀ b ∈ BBs.tail, ∀ I ∈ b.instrs, I.opcode.isBranch = true →
    ∃ l k, targetLabel? I = some l ∧ findBlockByName BBs l = some k ∧ l ≠ entryName

/-- The instructions of the blocks. -/
def flat (BBs : List MCBasicBlock) : List MCInst := BBs.flatMap (·.instrs)

/-- Blocks that were opened with one instruction and filled while they had no terminator. -/
inductive Built : List MCBasicBlock → Prop
  | nil : Built []
  | openBlock {BBs : List MCBasicBlock} (name : String) (I : MCInst) :
      Built BBs → Built (BBs ++ [{ name, instrs := [I] }])
  | append {bs : List MCBasicBlock} {b : MCBasicBlock} (I : MCInst) :
      Built (bs ++ [b]) → (∀ J ∈ b.instrs, J.opcode.isTerminator = false) →
      Built (bs ++ [{ b with instrs := b.instrs ++ [I] }])

theorem Built.block (h : Built BBs) : ∀ b ∈ BBs, b.succs = [] ∧ b.instrs ≠ [] ∧
    ∀ I ∈ b.instrs.dropLast, I.opcode.isTerminator = false := by
  induction h with
  | nil => exact fun b hb => nomatch hb
  | openBlock name I _ ih =>
    intro b hb
    rcases List.mem_append.mp hb with hb | hb
    · exact ih b hb
    · obtain rfl := List.mem_singleton.mp hb
      exact ⟨rfl, by simp, by simp⟩
  | @append bs b I _ hterm ih =>
    intro b' hb'
    rcases List.mem_append.mp hb' with hb' | hb'
    · exact ih b' (List.mem_append_left _ hb')
    · obtain rfl := List.mem_singleton.mp hb'
      refine ⟨(ih b (by simp)).1, by simp, fun J hJ => ?_⟩
      rw [List.dropLast_concat] at hJ
      exact hterm J hJ

/-- Block `name` starts where `p` instructions of the input are behind. -/
def Marks (BBs : List MCBasicBlock) (name : String) (p : Nat) : Prop :=
  ∃ (k : Nat) (b : MCBasicBlock), BBs[k]? = some b ∧ b.name = name ∧
    (placed (flat (BBs.take k))).length = p

theorem Marks.append {name : String} {p : Nat} (h : Marks BBs name p) (bs : List MCBasicBlock) :
    Marks (BBs ++ bs) name p := by
  obtain ⟨k, b, hb, hname, hp⟩ := h
  have hk := (List.getElem?_eq_some_iff.mp hb).1
  refine ⟨k, b, by rw [List.getElem?_append_left hk, hb], hname, ?_⟩
  rwa [List.take_append_of_le_length (Nat.le_of_lt hk)]

/-- The last block may change, but not its name. -/
theorem Marks.last {name : String} {p : Nat} {bs : List MCBasicBlock} {b b' : MCBasicBlock}
    (h : Marks (bs ++ [b]) name p) (hb : b'.name = b.name) : Marks (bs ++ [b']) name p := by
  obtain ⟨k, c, hc, hname, hp⟩ := h
  by_cases hk : k < bs.length
  · refine ⟨k, c, ?_, hname, ?_⟩
    · rw [List.getElem?_append_left hk] at hc ⊢
      exact hc
    · rwa [List.take_append_of_le_length (Nat.le_of_lt hk)] at hp ⊢
  · obtain rfl : k = bs.length := by
      have := (List.getElem?_eq_some_iff.mp hc).1
      simp only [List.length_append, List.length_singleton] at this
      omega
    rw [List.getElem?_concat_length, Option.some.injEq] at hc
    subst hc
    refine ⟨bs.length, b', by simp, hb.trans hname, ?_⟩
    rwa [List.take_left] at hp ⊢

theorem marks_new (BBs : List MCBasicBlock) (b : MCBasicBlock) :
    Marks (BBs ++ [b]) b.name (placed (flat BBs)).length :=
  ⟨BBs.length, b, by simp, rfl, by rw [List.take_left]⟩

theorem marks_entry {name : String} {p : Nat} (h : Marks BBs name p) :
    Marks (checkEntryBlock BBs) name p := by
  obtain ⟨k, b, hb, hname, hp⟩ := h
  exact ⟨k + 1, b, hb, hname, hp⟩

theorem placed_of_forall {is : List MCInst} (h : ∀ I ∈ is, I.place ≠ none) : placed is = is :=
  List.filter_eq_self.mpr fun I hI => Option.isSome_iff_ne_none.mpr (h I hI)

theorem placed_append (is js : List MCInst) : placed (is ++ js) = placed is ++ placed js :=
  List.filter_append ..

theorem flat_append (BBs bs : List MCBasicBlock) : flat (BBs ++ bs) = flat BBs ++ flat bs :=
  List.flatMap_append

theorem restAt_of_marks {name : String} {p k : Nat} (hn : (BBs.map (·.name)).Nodup)
    (h : Marks BBs name p) (hk : findBlockByName BBs name = some k) :
    restAt BBs k = (placed (flat BBs)).drop p := by
  obtain ⟨j, b, hb, rfl, rfl⟩ := h
  obtain rfl : j = k := by
    rw [findBlockByName_name hn hb] at hk
    exact Option.some.inj hk
  have hsplit : placed (flat BBs) = placed (flat (BBs.take j)) ++ restAt BBs j := by
    rw [← List.take_append_drop j BBs, flat_append, placed_append, List.take_append_drop]
    rfl
  rw [hsplit, List.drop_left]

/-- No block that has been built is empty. -/
theorem Built.removeEmptyBlocks_eq (h : Built BBs) : removeEmptyBlocks BBs = BBs :=
  List.filter_eq_self.mpr fun b hb => by simpa using (h.block b hb).2.1

theorem shaped_of_built (h : Built BBs) (hn : (BBs.map (·.name)).Nodup)
    (hentry : entryName ∉ BBs.map (·.name))
    (hnop : ∀ I ∈ flat BBs, I.place = none → I.opcode = .NOP)
    (htarget : ∀ I ∈ flat BBs, I.opcode.isBranch = true →
      ∃ l ∈ BBs.map (·.name), targetLabel? I = some l) :
    Shaped (checkEntryBlock (removeEmptyBlocks BBs)) := by
  have hkeep := h.removeEmptyBlocks_eq
  have hnames : ((checkEntryBlock BBs).map (·.name)).Nodup := List.nodup_cons.mpr ⟨hentry, hn⟩
  have hflat : ∀ b ∈ BBs, ∀ I ∈ b.instrs, I ∈ flat BBs := fun b hb I hI =>
    List.mem_flatMap.mpr ⟨b, hb, hI⟩
  rw [hkeep]
  refine ⟨rfl, ?_, hnames, ?_, ?_, ?_, ?_⟩
  · exact List.forall_mem_cons.mpr ⟨rfl, fun b hb => (h.block b hb).1⟩
  · exact List.forall_mem_cons.mpr ⟨by simp, fun b hb => (h.block b hb).2.1⟩
  · exact List.forall_mem_cons.mpr ⟨by simp, fun b hb => (h.block b hb).2.2⟩
  · exact fun b hb I hI => hnop I (hflat b hb I hI)
  · intro b hb I hI hbr
    obtain ⟨l, hl, hlabel⟩ := htarget I (hflat b hb I hI) hbr
    obtain ⟨c, hc, rfl⟩ := List.mem_map.mp hl
    obtain ⟨k, hk⟩ := List.getElem?_of_mem (List.mem_cons_of_mem
      ({ name := entryName, instrs := [entryJump] } : MCBasicBlock) hc)
    exact ⟨_, k, hlabel, findBlockByName_name hnames hk, fun heq => hentry (heq ▸ hl)⟩

/-! ## `generateSuccessors` succeeds -/

theorem mapM_except_exists {f : α → Except LiftError β} {xs : List α}
    (h : ∀ x ∈ xs, ∃ y, f x = .ok y) : ∃ ys, xs.mapM f = .ok ys := by
  induction xs with
  | nil => exact ⟨[], rfl⟩
  | cons x xs ih =>
    obtain ⟨y, hy⟩ := h x (by simp)
    obtain ⟨ys, hys⟩ := ih fun z hz => h z (List.mem_cons_of_mem _ hz)
    exact ⟨y :: ys, by rw [List.mapM_cons, hy, hys]; rfl⟩

theorem generateSuccessors_total (hs : Shaped BBs) (hlen : 1 < BBs.length) :
    ∃ MBBs, generateSuccessors BBs = .ok MBBs := by
  refine mapM_except_exists fun ⟨b, i⟩ hbi => ?_
  have hb : BBs[i]? = some b := List.mem_zipIdx_iff_getElem?.mp hbi
  cases i with
  | zero =>
    obtain rfl := Option.some.inj (hb.symm.trans hs.entry)
    exact ⟨_, (addSuccessors_entry BBs).trans (if_pos hlen)⟩
  | succ i =>
    show ∃ b', addSuccessors BBs (i + 1) b = .ok b'
    unfold addSuccessors
    cases hl : b.instrs.getLast? with
    | none => exact ⟨_, rfl⟩
    | some last =>
      have htarget := hs.targets b (mem_tail_of_getElem? hb) last (List.mem_of_getLast? hl)
      rw [Opcode.isBranch_eq] at htarget
      simp only [Opcode.isConditionalBranch_eq, Nat.succ_ne_zero, decide_false, Bool.false_and,
        Bool.false_eq_true, if_false]
      by_cases hc : last.opcode.isCondJump = true
      · obtain ⟨l, k, hlab, hk, _⟩ := htarget (by rw [hc]; rfl)
        rw [if_pos hc]
        simp only [findTargetLabel, hlab, bind, Except.bind, hk]
        exact ⟨_, rfl⟩
      rw [if_neg hc]
      by_cases hu : last.opcode.isUnconditionalBranch = true
      · obtain ⟨l, k, hlab, hk, _⟩ := htarget (by rw [hu, Bool.or_true])
        rw [if_pos hu]
        simp only [findTargetLabel, hlab, bind, Except.bind, hk]
        exact ⟨_, rfl⟩
      rw [if_neg hu]
      split <;> exact ⟨_, rfl⟩

end BpfTv
