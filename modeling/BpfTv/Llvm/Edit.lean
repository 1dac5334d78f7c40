import BpfTv.Llvm.Ssa
import Mathlib.Algebra.Order.BigOperators.Group.List

/-!
# Edited functions

A function under a sequence of edits, in terms of the function at the start: each instruction has
become a list of instructions, each operand has been substituted, and some instructions have been put
at the head of the entry block. Each edit of `Llvm/Ssa.lean` keeps this form.
-/

namespace BpfTv.Ssa

structure Edits where
  new : Instr → List Instr := fun i => [i]
  subst : Val → Val := fun v => v
  entry : List Instr := []

variable {F : Fn} {E : Edits} {i j : Instr} {v : Val} {g : Nat}

def Block.edit (E : Edits) (b : Block) : Block :=
  { phis := b.phis.map (·.map E.subst)
    body := b.body.flatMap fun i => (E.new i).map (·.map E.subst)
    term := b.term.map E.subst }

def Fn.edit (F : Fn) (E : Edits) : Fn :=
  { F with blocks := (F.blocks.map (·.edit E)).modifyHead fun b => { b with body := E.entry ++ b.body } }

/-! ## Substitution -/

@[simp] theorem Instr.map_id (i : Instr) (f : Val → Val) : (i.map f).id = i.id := rfl

@[simp] theorem Instr.map_op (i : Instr) (f : Val → Val) : (i.map f).op = i.op := rfl

@[simp] theorem Instr.map_ops (i : Instr) (f : Val → Val) : (i.map f).ops = i.ops.map f := rfl

theorem Instr.map_map (i : Instr) (f h : Val → Val) : (i.map f).map h = i.map (h ∘ f) := by
  simp [Instr.map]

theorem Instr.map_eq_self {f : Val → Val} (h : ∀ v ∈ i.ops, f v = v) : i.map f = i := by
  have hops : i.ops.map f = i.ops := by
    conv_rhs => rw [← List.map_id i.ops]
    exact List.map_congr_left h
  rw [Instr.map, hops]

theorem Phi.map_map (p : Phi) (f h : Val → Val) : (p.map f).map h = p.map (h ∘ f) := by
  simp [Phi.map]

theorem Terminator.map_map (t : Terminator) (f h : Val → Val) : (t.map f).map h = t.map (h ∘ f) := by
  simp [Terminator.map]

theorem Val.subst_ne {old : Nat} {new v : Val} (h : v ≠ .inst old) : Val.subst old new v = v := if_neg h

@[simp] theorem Val.subst_self {old : Nat} {new : Val} : Val.subst old new (.inst old) = new := if_pos rfl

/-! ## One edit -/

theorem flatMap_eq_self {xs : List Instr} {f : Instr → List Instr} (h : ∀ x ∈ xs, f x = [x]) :
    xs.flatMap f = xs := by
  induction xs with
  | nil => rfl
  | cons x xs ih =>
    rw [List.flatMap_cons, h x (List.mem_cons_self ..), ih fun y hy => h y (List.mem_cons_of_mem _ hy)]
    rfl

theorem Instr.map_self (i : Instr) : i.map (fun v => v) = i := Instr.map_eq_self fun _ _ => rfl

theorem edit_none : F.edit {} = F := by
  have hblock : ∀ b : Block, b.edit {} = b := by
    rintro ⟨phis, body, term⟩
    have hphi : ∀ p : Phi, p.map (fun v => v) = p := fun p => by simp [Phi.map]
    have hterm : term.map (fun v => v) = term := by simp [Terminator.map]
    simp only [Block.edit, List.map_cons, List.map_nil, hphi, Instr.map_self, hterm, List.map_id',
      List.flatMap_singleton']
  cases hb : F.blocks with
  | nil => simp [Fn.edit, hb]; rw [← hb]
  | cons b bs =>
    simp only [Fn.edit, hb, List.map_cons, List.modifyHead_cons, hblock, List.map_id', List.nil_append]
    rw [← hb]

theorem expand_edit (f : Instr → List Instr) (hentry : ∀ a ∈ E.entry, f a = [a])
    (hf : ∀ j, f (j.map E.subst) = (f j).map (·.map E.subst)) :
    (F.edit E).expand f = F.edit { E with new := fun i => (E.new i).flatMap f } := by
  have hblock : ∀ b : Block, { b.edit E with body := (b.edit E).body.flatMap f } =
      b.edit { E with new := fun i => (E.new i).flatMap f } := by
    intro b
    simp only [Block.edit, List.flatMap_assoc, List.flatMap_map, List.map_flatMap, hf]
  cases hb : F.blocks with
  | nil => simp [Fn.edit, Fn.expand, hb]
  | cons b bs =>
    simp only [Fn.edit, Fn.expand, hb, List.map_cons, List.modifyHead_cons, List.map_map,
      List.flatMap_append, flatMap_eq_self hentry]
    rw [← hblock b]
    congr 2
    exact List.map_congr_left fun b _ => hblock b

theorem insertBefore_edit {xs : List Instr} (hentry : ∀ a ∈ E.entry, a.id ≠ g)
    (hxs : ∀ x ∈ xs, x.map E.subst = x) :
    (F.edit E).insertBefore g xs =
      F.edit { E with new := fun i => (E.new i).flatMap fun j => if j.id = g then xs ++ [j] else [j] } := by
  refine expand_edit _ (fun a ha => if_neg (hentry a ha)) fun j => ?_
  have hmap : xs.map (·.map E.subst) = xs := by
    conv_rhs => rw [← List.map_id xs]
    exact List.map_congr_left hxs
  rw [Instr.map_id]
  split
  · rw [List.map_append, hmap]
    rfl
  · rfl

theorem eraseFromParent_edit (hentry : ∀ a ∈ E.entry, a.id ≠ g) :
    (F.edit E).eraseFromParent g = F.edit { E with new := fun i => (E.new i).filter (·.id ≠ g) } := by
  have herase : ∀ xs : List Instr, xs.filter (·.id ≠ g) =
      xs.flatMap fun j => if j.id = g then [] else [j] := by
    intro xs
    induction xs with
    | nil => rfl
    | cons x xs ih =>
      rw [List.flatMap_cons, List.filter_cons, ih]
      by_cases hx : x.id = g <;> simp [hx]
  simp only [herase]
  refine expand_edit _ (fun a ha => if_neg (hentry a ha)) fun j => ?_
  rw [Instr.map_id]
  split <;> rfl

theorem replaceAllUsesWith_edit {v : Val} (hentry : ∀ a ∈ E.entry, a.ops = []) :
    (F.edit E).replaceAllUsesWith g v = F.edit { E with subst := Val.subst g v ∘ E.subst } := by
  have hblock : ∀ b : Block, Block.mk ((b.edit E).phis.map (·.map (Val.subst g v)))
      ((b.edit E).body.map (·.map (Val.subst g v))) ((b.edit E).term.map (Val.subst g v)) =
      b.edit { E with subst := Val.subst g v ∘ E.subst } := by
    intro b
    simp only [Block.edit, List.map_map, List.map_flatMap, Terminator.map_map, Block.mk.injEq, and_true]
    refine ⟨List.map_congr_left fun p _ => p.map_map _ _, ?_⟩
    congr 1
    funext i
    exact List.map_congr_left fun j _ => j.map_map _ _
  have hmap : E.entry.map (·.map (Val.subst g v)) = E.entry := by
    conv_rhs => rw [← List.map_id E.entry]
    refine List.map_congr_left fun a ha => Instr.map_eq_self fun w hw => ?_
    rw [hentry a ha] at hw
    cases hw
  cases hb : F.blocks with
  | nil => simp [Fn.edit, Fn.replaceAllUsesWith, Fn.map, hb]
  | cons b bs =>
    simp only [Fn.edit, Fn.replaceAllUsesWith, Fn.map, hb, List.map_cons, List.modifyHead_cons,
      List.map_map, List.map_append, hmap]
    rw [← hblock b]
    congr 2
    exact List.map_congr_left fun b _ => hblock b

theorem insertEntry_edit {a : Instr} :
    (F.edit E).insertEntry a = F.edit { E with entry := a :: E.entry } := by
  cases hb : F.blocks with
  | nil => simp [Fn.edit, Fn.insertEntry, hb]
  | cons b bs =>
    simp only [Fn.edit, Fn.insertEntry, hb, List.map_cons, List.modifyHead_cons, List.cons_append]
    rfl

theorem mem_edit_instrs (hF : F.blocks ≠ []) :
    j ∈ (F.edit E).instrs ↔ j ∈ E.entry ∨ ∃ i ∈ F.instrs, ∃ x ∈ E.new i, j = x.map E.subst := by
  obtain ⟨b, bs, hb⟩ := List.exists_cons_of_ne_nil hF
  simp only [Fn.edit, Fn.instrs, hb, List.map_cons, List.modifyHead_cons, List.flatMap_cons,
    List.flatMap_map, Block.edit, List.mem_append, List.mem_flatMap, List.mem_map]
  constructor
  · rintro ((h | ⟨i, hi, x, hx, rfl⟩) | ⟨b', hb', i, hi, x, hx, rfl⟩)
    · exact Or.inl h
    · exact Or.inr ⟨i, Or.inl hi, x, hx, rfl⟩
    · exact Or.inr ⟨i, Or.inr ⟨b', hb', hi⟩, x, hx, rfl⟩
  · rintro (h | ⟨i, hi | ⟨b', hb', hi⟩, x, hx, rfl⟩)
    · exact Or.inl (Or.inl h)
    · exact Or.inl (Or.inr ⟨i, hi, x, hx, rfl⟩)
    · exact Or.inr ⟨b', hb', i, hi, x, hx, rfl⟩

theorem getElem?_edit {k : Nat} : (F.edit E).blocks[k]? = F.blocks[k]?.map fun b =>
    { b.edit E with body := (if k = 0 then E.entry else []) ++ (b.edit E).body } := by
  rw [Fn.edit, List.getElem?_modifyHead, List.getElem?_map, Option.map_map]
  split
  · rfl
  · rfl

theorem mem_blocks_edit {b' : Block} (h : b' ∈ (F.edit E).blocks) :
    ∃ b ∈ F.blocks, b'.phis = b.phis.map (·.map E.subst) ∧ b'.term = b.term.map E.subst := by
  obtain ⟨k, hk⟩ := List.mem_iff_getElem?.mp h
  rw [getElem?_edit, Option.map_eq_some_iff] at hk
  obtain ⟨b, hb, rfl⟩ := hk
  exact ⟨b, List.mem_of_getElem? hb, rfl, rfl⟩

theorem phi_mem_edit {b : Block} {a : Nat} (hb : b ∈ F.blocks) (ha : a ∈ b.phis.map (·.id)) :
    a ∈ (F.edit E).ids := by
  obtain ⟨k, hk⟩ := List.mem_iff_getElem?.mp hb
  have hk' := getElem?_edit (F := F) (E := E) (k := k)
  rw [hk, Option.map_some] at hk'
  refine List.mem_flatMap.mpr ⟨_, List.mem_of_getElem? hk', List.mem_append_left _ ?_⟩
  simpa [Block.edit, Function.comp_def, Phi.map] using ha

/-- A use in an edited function was one before, or is one of an instruction that is new. -/
theorem usedBy_edit (hentry : ∀ a ∈ E.entry, a.ops = []) {u : User} (h : (F.edit E).UsedBy v u) :
    ∃ v₀, E.subst v₀ = v ∧ ((∃ i ∈ F.instrs, ∃ x ∈ E.new i, v₀ ∈ x.ops) ∨
      ∃ u₀, F.UsedBy v₀ u₀ ∧ ∀ i, u₀ ≠ .instr i) := by
  cases h with
  | @instr i hi hv =>
    obtain ⟨b', hb', _⟩ := Fn.mem_instrs.mp hi
    obtain ⟨b, hb, _⟩ := mem_blocks_edit hb'
    rcases (mem_edit_instrs (List.ne_nil_of_mem hb)).mp hi with ha | ⟨i, hmem, x, hx, rfl⟩
    · rw [hentry i ha] at hv
      cases hv
    · obtain ⟨v₀, hv₀, rfl⟩ := List.mem_map.mp hv
      exact ⟨v₀, rfl, Or.inl ⟨i, hmem, x, hx, hv₀⟩⟩
  | phi hb hp hv =>
    obtain ⟨b, hmem, hphis, _⟩ := mem_blocks_edit hb
    rw [hphis] at hp
    obtain ⟨p, hphi, rfl⟩ := List.mem_map.mp hp
    obtain ⟨e, he, rfl⟩ := List.mem_map.mp hv
    obtain ⟨e₀, he₀, rfl⟩ := List.mem_map.mp he
    exact ⟨e₀.2, rfl, Or.inr ⟨_, .phi hmem hphi (List.mem_map_of_mem he₀), nofun⟩⟩
  | term hb hv =>
    obtain ⟨b, hmem, _, hterm⟩ := mem_blocks_edit hb
    rw [hterm] at hv
    obtain ⟨v₀, hv₀, rfl⟩ := List.mem_map.mp hv
    exact ⟨v₀, rfl, Or.inr ⟨_, .term hmem hv₀, nofun⟩⟩

/-! ## Edits that put nothing at the head -/

theorem edit_blocks (hentry : E.entry = []) : (F.edit E).blocks = F.blocks.map (·.edit E) := by
  rw [Fn.edit, hentry]
  cases F.blocks with
  | nil => rfl
  | cons b bs => rfl

theorem instrs_edit (hentry : E.entry = []) :
    (F.edit E).instrs = F.instrs.flatMap fun i => (E.new i).map (·.map E.subst) := by
  rw [Fn.instrs, edit_blocks hentry, Fn.instrs, List.flatMap_map, List.flatMap_assoc]
  rfl

theorem mem_instrs_edit (hentry : E.entry = []) :
    j ∈ (F.edit E).instrs ↔ ∃ i ∈ F.instrs, ∃ x ∈ E.new i, j = x.map E.subst := by
  simp only [Fn.instrs, edit_blocks hentry, List.flatMap_map, Block.edit, List.mem_flatMap, List.mem_map]
  constructor
  · rintro ⟨b, hb, i, hi, x, hx, rfl⟩
    exact ⟨i, ⟨b, hb, hi⟩, x, hx, rfl⟩
  · rintro ⟨i, ⟨b, hb, hi⟩, x, hx, rfl⟩
    exact ⟨b, hb, i, hi, x, hx, rfl⟩

theorem sum_flatMap {α : Type} (f : α → List Instr) (h : Instr → Nat) (xs : List α) :
    ((xs.flatMap f).map h).sum = (xs.map fun x => ((f x).map h).sum).sum := by
  induction xs with
  | nil => rfl
  | cons x xs ih =>
    rw [List.flatMap_cons, List.map_append, List.sum_append_nat, ih]
    rfl

/-- No use of a value is lost when its uses in instructions are made up for. -/
theorem users_edit_le (hentry : E.entry = []) (hv : E.subst v = v)
    (hnew : (F.instrs.map fun i => i.ops.count v).sum ≤
      (F.instrs.map fun i => ((E.new i).map fun x => x.ops.count v).sum).sum) :
    (F.users v).length ≤ ((F.edit E).users v).length := by
  have hcount : ∀ vs : List Val, vs.count v ≤ (vs.map E.subst).count v := by
    intro vs
    have h := List.count_le_count_map (l := vs) (f := E.subst) (x := v)
    rwa [hv] at h
  rw [users_length, users_length, edit_blocks hentry, instrs_edit hentry, List.map_map, sum_flatMap]
  refine Nat.add_le_add (List.sum_le_sum fun b _ => Nat.add_le_add ?_ (hcount _)) (hnew.trans ?_)
  · show _ ≤ ((b.phis.map _).map _).sum
    rw [List.map_map]
    refine List.sum_le_sum fun p _ => ?_
    have hp := hcount (p.incoming.map (·.2))
    rw [List.map_map] at hp
    show _ ≤ ((p.incoming.map _).map _).count v
    rw [List.map_map]
    exact hp
  · refine List.sum_le_sum fun i _ => ?_
    rw [List.map_map]
    exact List.sum_le_sum fun x _ => hcount x.ops

end BpfTv.Ssa
