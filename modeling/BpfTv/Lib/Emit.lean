import Mathlib.Logic.Relation
import Mathlib.Data.List.Basic
import Mathlib.Tactic.Common

/-!
# Append-only code builders

A builder writes instructions at the end of a current basic block, opens new blocks, closes the
current one with a terminator and moves to another. Code that has been written is never changed,
so a run of the code written so far is a run of everything the builder may write later
(`Code.Runs.mono`).

`wp M code m s x Q` is the weakest precondition of a builder action `m`: `m` succeeds in builder
state `s`, and the code it writes takes the machine from `x` at the end of the code of `s` to the
end of the code of the new builder state, where `Q` holds. Rules: `wp_pure`, `wp_bind`, `wp_mono`,
`wp_write`, `wp_close`, and `wp_jump` with `wpAt` for actions that write several blocks. `wlp` is the
same for an action that may fail; each rule for `wp` that it needs has a counterpart. `traps` says that
the code of an action does not run to its end.

Parameters: instructions `ι`, terminators `τ`, machine states `σ`, traps `ε`.
-/

namespace Emit

variable {ι τ σ ε : Type}

/-- A basic block under construction; `term` is `none` while it is open. -/
structure Block (ι τ : Type) where
  instrs : List ι := []
  term : Option τ := none
  deriving Repr, DecidableEq

/-- The blocks written so far and the one the builder writes to. -/
structure Code (ι τ : Type) where
  blocks : List (Block ι τ)
  cur : Nat
  deriving Repr, DecidableEq

/-- What instructions and terminators do. `jump` gives the block of this code that a terminator
goes to, `none` when it leaves the code. -/
structure Sem (ι τ σ ε : Type) where
  exec : ι → σ → Except ε σ
  jump : τ → σ → Except ε (Option Nat)

/-- A machine position: block, index in the block, machine state. -/
structure Cfg (σ : Type) where
  blk : Nat
  idx : Nat
  st : σ

namespace Code

/-- One empty open block. -/
def fresh : Code ι τ := ⟨[{}], 0⟩

/-- Write an instruction at the end of the current block. -/
def push (c : Code ι τ) (i : ι) : Code ι τ :=
  { c with blocks := c.blocks.modify c.cur fun b => { b with instrs := b.instrs ++ [i] } }

/-- Close the current block. -/
def close (c : Code ι τ) (t : τ) : Code ι τ :=
  { c with blocks := c.blocks.modify c.cur fun b => { b with term := some t } }

/-- Open a new empty block; the current one stays current. -/
def newBlock (c : Code ι τ) : Code ι τ := { c with blocks := c.blocks ++ [{}] }

/-- Continue in block `k`. -/
def setBlock (c : Code ι τ) (k : Nat) : Code ι τ := { c with cur := k }

/-- The terminator of the current block. -/
def term (c : Code ι τ) : Option τ := c.blocks[c.cur]?.bind Block.term

/-- The current block can be written to. -/
def Open (c : Code ι τ) : Prop := ∃ b, c.blocks[c.cur]? = some b ∧ b.term = none

instance (c : Code ι τ) : Decidable c.Open :=
  match h : c.blocks[c.cur]? with
  | none => isFalse fun ⟨_, hb, _⟩ => by simp [h] at hb
  | some b =>
    match hb : b.term with
    | none => isTrue ⟨b, h, hb⟩
    | some _ => isFalse fun ⟨b', hb', ht⟩ => by
        rw [h, Option.some.injEq] at hb'
        subst hb'
        simp [hb] at ht

/-- Length of the current block. -/
def size (c : Code ι τ) : Nat := (c.blocks[c.cur]?.map fun b => b.instrs.length).getD 0

/-- Every instruction written. -/
def instrs (c : Code ι τ) : List ι := c.blocks.flatMap Block.instrs

/-- The end of the written code, with machine state `x`. -/
def endCfg (c : Code ι τ) (x : σ) : Cfg σ := ⟨c.cur, c.size, x⟩

/-! ## Execution -/

/-- One machine step; `none` at the end of an open block or when a terminator leaves the code. -/
def step (M : Sem ι τ σ ε) (c : Code ι τ) (x : Cfg σ) : Except ε (Option (Cfg σ)) :=
  match c.blocks[x.blk]? with
  | none => .ok none
  | some b =>
    match b.instrs[x.idx]? with
    | some i => (M.exec i x.st).map fun st => some ⟨x.blk, x.idx + 1, st⟩
    | none =>
      if x.idx = b.instrs.length then
        match b.term with
        | none => .ok none
        | some t => (M.jump t x.st).map fun k => k.map fun k => ⟨k, 0, x.st⟩
      else .ok none

/-- At most `n` machine steps. -/
def run (M : Sem ι τ σ ε) (c : Code ι τ) : Nat → Cfg σ → Except ε (Cfg σ)
  | 0, x => .ok x
  | n + 1, x => do
    match ← c.step M x with
    | none => return x
    | some y => c.run M n y

/-- Steps that trap nowhere. -/
def Runs (M : Sem ι τ σ ε) (c : Code ι τ) : Cfg σ → Cfg σ → Prop :=
  Relation.ReflTransGen fun x y => c.step M x = .ok (some y)

variable {M : Sem ι τ σ ε} {c c' : Code ι τ} {x y z : Cfg σ}

theorem Runs.refl : c.Runs M x x := Relation.ReflTransGen.refl

theorem Runs.trans (h : c.Runs M x y) (h' : c.Runs M y z) : c.Runs M x z :=
  Relation.ReflTransGen.trans h h'

theorem Runs.single (h : c.step M x = .ok (some y)) : c.Runs M x y :=
  Relation.ReflTransGen.single h

theorem Runs.head (h : c.step M x = .ok (some y)) (h' : c.Runs M y z) : c.Runs M x z :=
  Relation.ReflTransGen.head h h'

/-- The relation is what the interpreter computes. -/
theorem Runs.run (h : c.Runs M x y) : ∃ n, c.run M n x = .ok y := by
  induction h using Relation.ReflTransGen.head_induction_on with
  | refl => exact ⟨0, rfl⟩
  | head h _ ih =>
    obtain ⟨n, hn⟩ := ih
    exact ⟨n + 1, by simp only [Code.run, h]; exact hn⟩

/-- A machine that comes to a halt has trapped nowhere on the way. -/
theorem Runs.safe (h : c.Runs M x y) (hy : c.step M y = .ok none) :
    ∀ n, ∃ z, c.run M n x = .ok z := by
  induction h using Relation.ReflTransGen.head_induction_on with
  | refl =>
    intro n
    cases n with
    | zero => exact ⟨y, rfl⟩
    | succ n => exact ⟨y, by simp only [Code.run, hy]; rfl⟩
  | @head x z h _ ih =>
    intro n
    cases n with
    | zero => exact ⟨x, rfl⟩
    | succ n =>
      obtain ⟨u, hu⟩ := ih n
      exact ⟨u, by simp only [Code.run, h]; exact hu⟩

/-- The machine is deterministic: from one position it stops in one way. -/
theorem Runs.stop_unique (h : c.Runs M x y) (h' : c.Runs M x z) (hy : ∀ w, c.step M y ≠ .ok (some w))
    (hz : ∀ w, c.step M z ≠ .ok (some w)) : y = z := by
  induction h using Relation.ReflTransGen.head_induction_on with
  | refl =>
    rcases Relation.ReflTransGen.cases_head h' with rfl | ⟨w, hw, _⟩
    · rfl
    · exact absurd hw (hy w)
  | @head x u hstep _ ih =>
    rcases Relation.ReflTransGen.cases_head h' with rfl | ⟨w, hw, hrest⟩
    · exact absurd hstep (hz u)
    · rw [hstep] at hw
      cases hw
      exact ih hrest

theorem Runs.halt_unique (h : c.Runs M x y) (h' : c.Runs M x z) (hy : c.step M y = .ok none)
    (hz : c.step M z = .ok none) : y = z :=
  h.stop_unique h' (by rw [hy]; exact nofun) (by rw [hz]; exact nofun)

/-! ## Extension -/

/-- `c'` continues `c`: no written instruction or terminator has changed. -/
def Le (c c' : Code ι τ) : Prop :=
  ∀ (k : Nat) (b : Block ι τ), c.blocks[k]? = some b →
    ∃ b' : Block ι τ, c'.blocks[k]? = some b' ∧ b.instrs <+: b'.instrs ∧ (b.term ≠ none → b' = b)

theorem Le.refl (c : Code ι τ) : c.Le c := fun _ b h => ⟨b, h, List.prefix_rfl, fun _ => rfl⟩

theorem Le.trans {c'' : Code ι τ} (h : c.Le c') (h' : c'.Le c'') : c.Le c'' := by
  intro k b hb
  obtain ⟨b', hb', hp, ht⟩ := h k b hb
  obtain ⟨b'', hb'', hp', ht'⟩ := h' k b' hb'
  refine ⟨b'', hb'', hp.trans hp', fun hne => ?_⟩
  obtain rfl := ht hne
  exact ht' hne

theorem step_mono (hle : c.Le c') (h : c.step M x = .ok (some y)) :
    c'.step M x = .ok (some y) := by
  unfold step at h ⊢
  cases hb : c.blocks[x.blk]? with
  | none => simp [hb] at h
  | some b =>
    obtain ⟨b', hb', ⟨tl, htl⟩, ht⟩ := hle _ _ hb
    rw [hb] at h
    rw [hb']
    simp only at h ⊢
    cases hi : b.instrs[x.idx]? with
    | some i =>
      have : b'.instrs[x.idx]? = some i := by
        rw [← htl, List.getElem?_append_left (List.getElem?_eq_some_iff.mp hi).1, hi]
      rw [hi] at h
      rwa [this]
    | none =>
      rw [hi] at h
      simp only at h
      by_cases hidx : x.idx = b.instrs.length
      · rw [if_pos hidx] at h
        cases hterm : b.term with
        | none => simp [hterm] at h
        | some t =>
          obtain rfl := ht (by simp [hterm])
          rw [hi]
          simp only [hidx, if_true]
          rwa [hterm] at h ⊢
      · rw [if_neg hidx] at h
        simp at h

/-- A step that traps traps in whatever continues the code. -/
theorem step_error_mono {e : ε} (hle : c.Le c') (h : c.step M x = .error e) : c'.step M x = .error e := by
  unfold step at h ⊢
  cases hb : c.blocks[x.blk]? with
  | none =>
    rw [hb] at h
    cases h
  | some b =>
    obtain ⟨b', hb', ⟨tl, htl⟩, ht⟩ := hle _ _ hb
    rw [hb] at h
    rw [hb']
    simp only at h ⊢
    cases hi : b.instrs[x.idx]? with
    | some i =>
      have hi' : b'.instrs[x.idx]? = some i := by
        rw [← htl, List.getElem?_append_left (List.getElem?_eq_some_iff.mp hi).1, hi]
      rw [hi] at h
      rwa [hi']
    | none =>
      rw [hi] at h
      simp only at h
      split at h
      · rename_i hidx
        cases hterm : b.term with
        | none =>
          rw [hterm] at h
          cases h
        | some t =>
          obtain rfl := ht (by rw [hterm]; exact nofun)
          rw [hi]
          simp only [hidx, if_true]
          rwa [hterm] at h ⊢
      · cases h

theorem Runs.mono (hle : c.Le c') (h : c.Runs M x y) : c'.Runs M x y := by
  induction h with
  | refl => exact Runs.refl
  | tail _ hstep ih => exact ih.tail (step_mono hle hstep)

/-! ## What the builder operations do -/

theorem modify_cur_eq (c : Code ι τ) (f : Block ι τ → Block ι τ) (k : Nat) :
    (c.blocks.modify c.cur f)[k]? = if c.cur = k then c.blocks[k]?.map f else c.blocks[k]? := by
  rw [List.getElem?_modify]
  split <;> simp

theorem Open.push (h : c.Open) (i : ι) : (c.push i).Open := by
  obtain ⟨b, hb, ht⟩ := h
  exact ⟨{ b with instrs := b.instrs ++ [i] }, by simp [Code.push, hb], ht⟩

theorem Open.newBlock (h : c.Open) : c.newBlock.Open := by
  obtain ⟨b, hb, ht⟩ := h
  refine ⟨b, ?_, ht⟩
  simp only [Code.newBlock]
  rw [List.getElem?_append_left (List.getElem?_eq_some_iff.mp hb).1, hb]

theorem open_fresh : (fresh : Code ι τ).Open := ⟨{}, rfl, rfl⟩

theorem le_push (h : c.Open) (i : ι) : c.Le (c.push i) := by
  intro k b hb
  simp only [push, modify_cur_eq]
  obtain ⟨b₀, hb₀, ht₀⟩ := h
  split_ifs with hk
  · subst hk
    rw [hb₀, Option.some.injEq] at hb
    subst hb
    exact ⟨_, by rw [hb₀]; rfl, List.prefix_append _ _, fun hne => absurd ht₀ hne⟩
  · exact ⟨b, hb, List.prefix_rfl, fun _ => rfl⟩

theorem le_close (h : c.Open) (t : τ) : c.Le (c.close t) := by
  intro k b hb
  simp only [close, modify_cur_eq]
  obtain ⟨b₀, hb₀, ht₀⟩ := h
  split_ifs with hk
  · subst hk
    rw [hb₀, Option.some.injEq] at hb
    subst hb
    exact ⟨{ b₀ with term := some t }, by rw [hb₀]; rfl, List.prefix_rfl,
      fun hne => absurd ht₀ hne⟩
  · exact ⟨b, hb, List.prefix_rfl, fun _ => rfl⟩

theorem le_newBlock (c : Code ι τ) : c.Le c.newBlock := by
  intro k b hb
  refine ⟨b, ?_, List.prefix_rfl, fun _ => rfl⟩
  simp only [newBlock]
  rw [List.getElem?_append_left (List.getElem?_eq_some_iff.mp hb).1, hb]

theorem le_setBlock (c : Code ι τ) (k : Nat) : c.Le (c.setBlock k) := Le.refl c

@[simp] theorem push_cur (c : Code ι τ) (i : ι) : (c.push i).cur = c.cur := rfl
@[simp] theorem close_cur (c : Code ι τ) (t : τ) : (c.close t).cur = c.cur := rfl
@[simp] theorem newBlock_cur (c : Code ι τ) : c.newBlock.cur = c.cur := rfl
@[simp] theorem setBlock_cur (c : Code ι τ) (k : Nat) : (c.setBlock k).cur = k := rfl

theorem Open.size_push (h : c.Open) (i : ι) : (c.push i).size = c.size + 1 := by
  obtain ⟨b, hb, _⟩ := h
  simp [size, Code.push, hb]

@[simp] theorem size_close (c : Code ι τ) (t : τ) : (c.close t).size = c.size := by
  simp only [size, close, modify_cur_eq, if_true]
  cases c.blocks[c.cur]? <;> rfl

theorem Open.size_newBlock (h : c.Open) : c.newBlock.size = c.size := by
  obtain ⟨b, hb, _⟩ := h
  simp only [size, Code.newBlock]
  rw [List.getElem?_append_left (List.getElem?_eq_some_iff.mp hb).1]

theorem Open.term_close (h : c.Open) (t : τ) : (c.close t).term = some t := by
  obtain ⟨b, hb, _⟩ := h
  simp [Code.term, close, hb]

theorem Open.term (h : c.Open) : c.term = none := by
  obtain ⟨b, hb, ht⟩ := h
  simp [Code.term, hb, ht]

theorem step_push (h : c.Open) {i : ι} {x x' : σ} (hx : M.exec i x = .ok x') :
    (c.push i).step M (c.endCfg x) = .ok (some ((c.push i).endCfg x')) := by
  have hsz := h.size_push i
  obtain ⟨b, hb, _⟩ := h
  have hblk : (c.push i).blocks[c.cur]? = some { b with instrs := b.instrs ++ [i] } := by
    simp [push, hb]
  have hlen : c.size = b.instrs.length := by simp [size, hb]
  have hget : (b.instrs ++ [i])[c.size]? = some i := by simp [hlen]
  simp only [step, endCfg, hblk, hget, hx, Except.map, hsz, push_cur]

theorem step_push_error (h : c.Open) {i : ι} {x : σ} {e : ε} (hx : M.exec i x = .error e) :
    (c.push i).step M (c.endCfg x) = .error e := by
  obtain ⟨b, hb, _⟩ := h
  have hblk : (c.push i).blocks[c.cur]? = some { b with instrs := b.instrs ++ [i] } := by
    simp [push, hb]
  have hlen : c.size = b.instrs.length := by simp [size, hb]
  have hget : (b.instrs ++ [i])[c.size]? = some i := by simp [hlen]
  simp only [step, endCfg, hblk, hget, hx, Except.map]

theorem Open.step_end (h : c.Open) (x : σ) : c.step M (c.endCfg x) = .ok none := by
  obtain ⟨b, hb, ht⟩ := h
  have hlen : c.size = b.instrs.length := by simp [size, hb]
  have hget : b.instrs[b.instrs.length]? = none := by simp
  simp only [step, endCfg, hb, hlen, hget, if_true, ht]

theorem Open.end_unique {x : Cfg σ} {y z : σ} (ho : c.Open) (h : c.Runs M x (c.endCfg y))
    (h' : c.Runs M x (c.endCfg z)) : y = z :=
  congrArg Cfg.st (h.halt_unique h' (ho.step_end y) (ho.step_end z))

/-- The machine leaves the code by a terminator that goes elsewhere. -/
theorem step_leave {t : τ} {x : σ} (h : c.term = some t) (hx : M.jump t x = .ok none) :
    c.step M (c.endCfg x) = .ok none := by
  unfold term at h
  cases hb : c.blocks[c.cur]? with
  | none => simp [hb] at h
  | some b =>
    rw [hb] at h
    have ht : b.term = some t := h
    have hlen : c.size = b.instrs.length := by simp [size, hb]
    have hget : b.instrs[b.instrs.length]? = none := by simp
    simp only [step, endCfg, hb, hlen, hget, if_true, ht, hx, Except.map, Option.map]

theorem step_close (h : c.Open) {t : τ} {x : σ} {k : Nat} (hx : M.jump t x = .ok (some k)) :
    (c.close t).step M (c.endCfg x) = .ok (some ⟨k, 0, x⟩) := by
  obtain ⟨b, hb, _⟩ := h
  have hblk : (c.close t).blocks[c.cur]? = some { b with term := some t } := by
    simp [close, hb]
  have hlen : c.size = b.instrs.length := by simp [size, hb]
  have hget : b.instrs[b.instrs.length]? = none := by simp
  simp only [step, endCfg, hblk, hlen, hget, if_true, hx, Except.map, Option.map]

/-! ## Blocks that wait to be filled -/

/-- Block `k` is open and has nothing in it yet. -/
def Empty (c : Code ι τ) (k : Nat) : Prop := c.blocks[k]? = some {}

theorem empty_newBlock (c : Code ι τ) : c.newBlock.Empty c.blocks.length := by
  simp [Empty, newBlock]

theorem Empty.newBlock {k : Nat} (h : c.Empty k) : c.newBlock.Empty k := by
  simp only [Empty, Code.newBlock] at h ⊢
  rw [List.getElem?_append_left (List.getElem?_eq_some_iff.mp h).1, h]

theorem Empty.push {k : Nat} (h : c.Empty k) (hk : c.cur ≠ k) (i : ι) : (c.push i).Empty k := by
  rw [Empty, Code.push, modify_cur_eq, if_neg hk]
  exact h

theorem Empty.close {k : Nat} (h : c.Empty k) (hk : c.cur ≠ k) (t : τ) : (c.close t).Empty k := by
  rw [Empty, Code.close, modify_cur_eq, if_neg hk]
  exact h

theorem Empty.setBlock {k : Nat} (h : c.Empty k) (l : Nat) : (c.setBlock l).Empty k := h

theorem Empty.open {k : Nat} (h : c.Empty k) : (c.setBlock k).Open := ⟨{}, h, rfl⟩

theorem Empty.size {k : Nat} (h : c.Empty k) : (c.setBlock k).size = 0 := by
  rw [Code.size, setBlock_cur]
  simp only [Code.setBlock]
  rw [h]
  rfl

theorem Open.cur_lt (h : c.Open) : c.cur < c.blocks.length := by
  obtain ⟨b, hb, _⟩ := h
  exact (List.getElem?_eq_some_iff.mp hb).1

@[simp] theorem length_push (c : Code ι τ) (i : ι) : (c.push i).blocks.length = c.blocks.length := by
  simp [push]

@[simp] theorem length_close (c : Code ι τ) (t : τ) : (c.close t).blocks.length = c.blocks.length := by
  simp [close]

@[simp] theorem length_newBlock (c : Code ι τ) : c.newBlock.blocks.length = c.blocks.length + 1 := by
  simp [newBlock]

/-- The blocks `ks` wait to be filled while another one is being written. -/
def Await (c : Code ι τ) (ks : List Nat) : Prop := c.Open ∧ ∀ k ∈ ks, c.Empty k ∧ c.cur ≠ k

theorem Await.newBlock {ks : List Nat} (h : c.Await ks) :
    c.newBlock.Await (c.blocks.length :: ks) := by
  obtain ⟨hopen, hks⟩ := h
  refine ⟨hopen.newBlock, List.forall_mem_cons.mpr ⟨⟨empty_newBlock c, Nat.ne_of_lt hopen.cur_lt⟩, ?_⟩⟩
  intro k hk
  exact ⟨(hks k hk).1.newBlock, (hks k hk).2⟩

theorem Await.push {ks : List Nat} (h : c.Await ks) (i : ι) : (c.push i).Await ks :=
  ⟨h.1.push i, fun k hk => ⟨(h.2 k hk).1.push (h.2 k hk).2 i, (h.2 k hk).2⟩⟩

theorem Await.empty_close {ks : List Nat} (h : c.Await ks) (t : τ) {k : Nat} (hk : k ∈ ks) :
    (c.close t).Empty k := (h.2 k hk).1.close (h.2 k hk).2 t

theorem Await.setBlock {ks ks' : List Nat} (h : c.Await ks) (t : τ) {k : Nat} (hk : k ∈ ks)
    (hsub : ∀ l ∈ ks', l ∈ ks ∧ k ≠ l) : ((c.close t).setBlock k).Await ks' :=
  ⟨(h.empty_close t hk).open, fun l hl => ⟨h.empty_close t (hsub l hl).1, (hsub l hl).2⟩⟩

/-! ## Segments -/

/-- Going on from `c` to `c'`, and running the machine from the end of the one to the end of the
other. Code between the two ends that the run does not pass through may be written as well. -/
structure Seg (M : Sem ι τ σ ε) (c : Code ι τ) (x : σ) (c' : Code ι τ) (x' : σ) : Prop where
  le : c.Le c'
  runs : ∀ d : Code ι τ, c'.Le d → d.Runs M (c.endCfg x) (c'.endCfg x')

variable {c'' : Code ι τ} {u u' u'' : σ}

theorem Seg.refl (c : Code ι τ) (u : σ) : Seg M c u c u := ⟨Le.refl c, fun _ _ => Runs.refl⟩

theorem Seg.trans (h : Seg M c u c' u') (h' : Seg M c' u' c'' u'') : Seg M c u c'' u'' :=
  ⟨h.le.trans h'.le, fun d hd => (h.runs d (h'.le.trans hd)).trans (h'.runs d hd)⟩

theorem Seg.push (h : c.Open) {i : ι} (hx : M.exec i u = .ok u') : Seg M c u (c.push i) u' :=
  ⟨le_push h i, fun _ hd => Runs.single (step_mono hd (step_push h hx))⟩

theorem Seg.newBlock (h : c.Open) : Seg M c u c.newBlock u := by
  refine ⟨le_newBlock c, fun d _ => ?_⟩
  rw [endCfg, endCfg, newBlock_cur, h.size_newBlock]
  exact Runs.refl

theorem Seg.close (h : c.Open) (t : τ) : Seg M c u (c.close t) u := by
  refine ⟨le_close h t, fun d _ => ?_⟩
  rw [endCfg, endCfg, close_cur, size_close]
  exact Runs.refl

end Code

/-! ## Weakest preconditions of builder actions -/

section wp

variable {S α β : Type} (M : Sem ι τ σ ε) (code : S → Code ι τ)

/-- `m` succeeds from builder state `s`, and its code takes the machine from `x` at the end of `s`
to a state at the end of the new builder state in which `Q` holds. -/
def wp {ε' : Type} (m : StateT S (Except ε') α) (s : S) (x : σ) (Q : α → S → σ → Prop) : Prop :=
  ∃ a s' x', m.run s = .ok (a, s') ∧ Code.Seg M (code s) x (code s') x' ∧ Q a s' x'

variable {M code} {ε' : Type} {m : StateT S (Except ε') α} {f : α → StateT S (Except ε') β}
  {s : S} {x : σ}

theorem wp_of_seg {a : α} {s' : S} {x' : σ} {Q : α → S → σ → Prop} (hm : m.run s = .ok (a, s'))
    (hseg : Code.Seg M (code s) x (code s') x') (hq : Q a s' x') : wp M code m s x Q :=
  ⟨a, s', x', hm, hseg, hq⟩

theorem wp_pure {a : α} {Q : α → S → σ → Prop} (h : Q a s x) :
    wp M code (pure a : StateT S (Except ε') α) s x Q :=
  ⟨a, s, x, rfl, Code.Seg.refl _ _, h⟩

theorem wp_mono {Q Q' : α → S → σ → Prop} (h : wp M code m s x Q)
    (hQ : ∀ a s' x', Q a s' x' → Q' a s' x') : wp M code m s x Q' := by
  obtain ⟨a, s', x', hm, hseg, hq⟩ := h
  exact ⟨a, s', x', hm, hseg, hQ _ _ _ hq⟩

theorem wp_bind {Q : β → S → σ → Prop}
    (h : wp M code m s x fun a s' x' => wp M code (f a) s' x' Q) :
    wp M code (m >>= f) s x Q := by
  obtain ⟨a, s₁, x₁, hm, hseg, b, s₂, x₂, hf, hseg', hq⟩ := h
  refine ⟨b, s₂, x₂, ?_, hseg.trans hseg', hq⟩
  rw [StateT.run_bind, hm]
  exact hf

/-- Writing one instruction at the end of an open block. -/
theorem wp_write {a : α} {s' : S} {i : ι} {x' : σ} {Q : α → S → σ → Prop}
    (hopen : (code s).Open) (hm : m.run s = .ok (a, s')) (hcode : code s' = (code s).push i)
    (hx : M.exec i x = .ok x') (hq : Q a s' x') : wp M code m s x Q :=
  wp_of_seg hm (hcode ▸ Code.Seg.push hopen hx) hq

theorem wp_close {a : α} {s' : S} {t : τ} {Q : α → S → σ → Prop}
    (hopen : (code s).Open) (hm : m.run s = .ok (a, s')) (hcode : code s' = (code s).close t)
    (hq : Q a s' x) : wp M code m s x Q :=
  wp_of_seg hm (hcode ▸ Code.Seg.close hopen t) hq

/-- The machine waits at the start of block `k` while `m` goes on writing; the code takes it from
there to the end of the new builder state. -/
def wpAt {ε' : Type} (M : Sem ι τ σ ε) (code : S → Code ι τ) (k : Nat) (m : StateT S (Except ε') α) (s : S) (x : σ)
    (Q : α → S → σ → Prop) : Prop :=
  ∃ a s' x', m.run s = .ok (a, s') ∧ (code s).Le (code s') ∧
    (∀ d : Code ι τ, (code s').Le d → d.Runs M ⟨k, 0, x⟩ ((code s').endCfg x')) ∧ Q a s' x'

/-- A jump: the machine waits at its target. -/
theorem wp_jump {Q : β → S → σ → Prop} {a : α} {s' : S} {t : τ} {k : Nat} (hopen : (code s).Open)
    (hm : m.run s = .ok (a, s')) (hcode : code s' = (code s).close t)
    (hx : M.jump t x = .ok (some k)) (h : wpAt M code k (f a) s' x Q) :
    wp M code (m >>= f) s x Q := by
  obtain ⟨b, s₂, x₂, hf, hle, hr, hq⟩ := h
  rw [hcode] at hle
  refine ⟨b, s₂, x₂, ?_, ⟨(Code.le_close hopen t).trans hle, fun d hd => ?_⟩, hq⟩
  · rw [StateT.run_bind, hm]
    exact hf
  · exact Code.Runs.head (Code.step_mono (hle.trans hd) (Code.step_close hopen hx)) (hr d hd)

/-- Code written while the machine waits is not run. -/
theorem wpAt_skip {Q : β → S → σ → Prop} {a : α} {s' : S} {k : Nat} (hm : m.run s = .ok (a, s'))
    (hle : (code s).Le (code s')) (h : wpAt M code k (f a) s' x Q) :
    wpAt M code k (m >>= f) s x Q := by
  obtain ⟨b, s₂, x₂, hf, hle', hr, hq⟩ := h
  refine ⟨b, s₂, x₂, ?_, hle.trans hle', hr, hq⟩
  rw [StateT.run_bind, hm]
  exact hf

theorem wpAt_here {Q : β → S → σ → Prop} {a : α} {s' : S} {k : Nat} (hm : m.run s = .ok (a, s'))
    (hcode : code s' = (code s).setBlock k) (he : (code s).Empty k)
    (h : wp M code (f a) s' x Q) : wpAt M code k (m >>= f) s x Q := by
  obtain ⟨b, s₂, x₂, hf, hseg, hq⟩ := h
  refine ⟨b, s₂, x₂, ?_, ?_, fun d hd => ?_, hq⟩
  · rw [StateT.run_bind, hm]
    exact hf
  · exact (Code.le_setBlock (code s) k).trans (hcode ▸ hseg.le)
  · have hstart : (code s').endCfg x = ⟨k, 0, x⟩ := by
      rw [hcode, Code.endCfg, he.size, Code.setBlock_cur]
    exact hstart ▸ hseg.runs d hd

theorem wp_same {a : α} {s' : S} {Q : α → S → σ → Prop} (hm : m.run s = .ok (a, s'))
    (hcode : code s' = code s) (hq : Q a s' x) : wp M code m s x Q :=
  wp_of_seg hm (hcode ▸ Code.Seg.refl _ _) hq

theorem wp_inter {Q Q' : α → S → σ → Prop} (h : wp M code m s x Q) (h' : wp M code m s x Q')
    (hq : ∀ a s' x', Q a s' x' → (code s').step M ((code s').endCfg x') = .ok none)
    (hq' : ∀ a s' x', Q' a s' x' → (code s').step M ((code s').endCfg x') = .ok none) :
    ∃ a s' x', Q a s' x' ∧ Q' a s' x' := by
  obtain ⟨a, s', x₁, hm, hseg, h₁⟩ := h
  obtain ⟨b, s'', x₂, hm', hseg', h₂⟩ := h'
  obtain ⟨rfl, rfl⟩ : a = b ∧ s' = s'' := by
    rw [hm] at hm'
    cases hm'
    exact ⟨rfl, rfl⟩
  have hend := (hseg.runs _ (Code.Le.refl _)).halt_unique (hseg'.runs _ (Code.Le.refl _))
    (hq _ _ _ h₁) (hq' _ _ _ h₂)
  have hx : x₁ = x₂ := congrArg Cfg.st hend
  exact ⟨a, s', x₁, h₁, hx ▸ h₂⟩

/-! ## Actions that may fail -/

/-- If `m` succeeds from builder state `s`, its code takes the machine from `x` at the end of `s` to a
state at the end of the new builder state in which `Q` holds. -/
def wlp {ε' : Type} (M : Sem ι τ σ ε) (code : S → Code ι τ) (m : StateT S (Except ε') α) (s : S) (x : σ)
    (Q : α → S → σ → Prop) : Prop :=
  ∀ a s', m.run s = .ok (a, s') → ∃ x', Code.Seg M (code s) x (code s') x' ∧ Q a s' x'

theorem wlp_of_wp {Q : α → S → σ → Prop} (h : wp M code m s x Q) : wlp M code m s x Q := by
  obtain ⟨a, s', x', hm, hseg, hq⟩ := h
  intro b s'' hm'
  obtain ⟨rfl, rfl⟩ : a = b ∧ s' = s'' := by
    rw [hm] at hm'
    cases hm'
    exact ⟨rfl, rfl⟩
  exact ⟨x', hseg, hq⟩

theorem wlp_mono {Q Q' : α → S → σ → Prop} (h : wlp M code m s x Q)
    (hQ : ∀ a s' x', Q a s' x' → Q' a s' x') : wlp M code m s x Q' := by
  intro a s' hm
  obtain ⟨x', hseg, hq⟩ := h a s' hm
  exact ⟨x', hseg, hQ _ _ _ hq⟩

theorem wlp_bind {Q : β → S → σ → Prop}
    (h : wlp M code m s x fun a s' x' => wlp M code (f a) s' x' Q) :
    wlp M code (m >>= f) s x Q := by
  intro b s₂ hm
  rw [StateT.run_bind] at hm
  cases hrun : m.run s with
  | error e =>
    rw [hrun] at hm
    cases hm
  | ok r =>
    obtain ⟨a, s₁⟩ := r
    rw [hrun] at hm
    obtain ⟨x₁, hseg, hf⟩ := h a s₁ hrun
    obtain ⟨x₂, hseg', hq⟩ := hf b s₂ hm
    exact ⟨x₂, hseg.trans hseg', hq⟩

theorem wlp_pure {a : α} {Q : α → S → σ → Prop} (h : Q a s x) :
    wlp M code (pure a : StateT S (Except ε') α) s x Q :=
  wlp_of_wp (wp_pure h)

/-- What every successful run of `m` does to the builder state may be added to the postcondition. -/
theorem wlp_and {Q : α → S → σ → Prop} {P : α → S → Prop} (h : wlp M code m s x Q)
    (hP : ∀ a s', m.run s = .ok (a, s') → P a s') :
    wlp M code m s x fun a s' x' => Q a s' x' ∧ P a s' := by
  intro a s' hm
  obtain ⟨x', hseg, hq⟩ := h a s' hm
  exact ⟨x', hseg, hq, hP a s' hm⟩

theorem wlp_error {Q : α → S → σ → Prop} (h : ∀ a s', m.run s ≠ .ok (a, s')) :
    wlp M code m s x Q := fun a s' hm => absurd hm (h a s')

theorem wlp_of_error {Q : α → S → σ → Prop} {err : ε'} (h : m.run s = .error err) : wlp M code m s x Q :=
  wlp_error fun a s' hm => by
    rw [h] at hm
    cases hm

/-! ## Actions whose code traps -/

/-- Whenever `m` succeeds, the machine comes from `x` at the end of `s` to a step that traps with `e`,
whatever is written later. -/
def traps {ε' : Type} (M : Sem ι τ σ ε) (code : S → Code ι τ) (e : ε) (m : StateT S (Except ε') α) (s : S)
    (x : σ) : Prop :=
  ∀ a s', m.run s = .ok (a, s') → (code s).Le (code s') ∧ ∃ y, ∀ d : Code ι τ, (code s').Le d →
    d.Runs M ((code s).endCfg x) y ∧ d.step M y = .error e

variable {e : ε}

theorem traps_bind {Q : α → S → σ → Prop} (h : wp M code m s x Q)
    (hf : ∀ a s' x', Q a s' x' → traps M code e (f a) s' x') : traps M code e (m >>= f) s x := by
  obtain ⟨a, s₁, x₁, hm, hseg, hq⟩ := h
  intro b s₂ hrun
  have hrest : (f a).run s₁ = .ok (b, s₂) := by
    rw [StateT.run_bind, hm] at hrun
    exact hrun
  obtain ⟨hle, y, hy⟩ := hf a s₁ x₁ hq b s₂ hrest
  refine ⟨hseg.le.trans hle, y, fun d hd => ?_⟩
  obtain ⟨hruns, hstep⟩ := hy d hd
  exact ⟨(hseg.runs d (hle.trans hd)).trans hruns, hstep⟩

/-- Writing an instruction that traps, and anything behind it. -/
theorem traps_write {i : ι} (hopen : (code s).Open) (hx : M.exec i x = .error e)
    (hm : ∀ a s', m.run s = .ok (a, s') → code s' = (code s).push i)
    (hf : ∀ a s' b s'', m.run s = .ok (a, s') → (f a).run s' = .ok (b, s'') → (code s').Le (code s'')) :
    traps M code e (m >>= f) s x := by
  intro b s₂ hrun
  rw [StateT.run_bind] at hrun
  cases hm' : m.run s with
  | error e' =>
    rw [hm'] at hrun
    cases hrun
  | ok r =>
    obtain ⟨a, s₁⟩ := r
    rw [hm'] at hrun
    have hle := hf a s₁ b s₂ hm' hrun
    rw [hm a s₁ hm'] at hle
    refine ⟨(Code.le_push hopen i).trans hle, (code s).endCfg x, fun d hd => ⟨Code.Runs.refl, ?_⟩⟩
    exact Code.step_error_mono (hle.trans hd) (Code.step_push_error hopen hx)

theorem traps_not_runs {a : α} {s' : S} {y : Cfg σ} (h : traps M code e m s x) (hm : m.run s = .ok (a, s'))
    (hy : (code s').step M y = .ok none) : ¬(code s').Runs M ((code s).endCfg x) y := by
  intro hruns
  obtain ⟨_, z, hz⟩ := h a s' hm
  obtain ⟨hruns', hstep⟩ := hz (code s') (Code.Le.refl _)
  have heq := hruns.stop_unique hruns' (by rw [hy]; exact nofun) (by rw [hstep]; exact nofun)
  rw [heq, hstep] at hy
  cases hy

end wp

end Emit
