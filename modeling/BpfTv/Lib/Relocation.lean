import Mathlib.Data.List.Forall2
import Mathlib.Data.Set.Function

/-!
# Memories with cells at other places

`move` says where each cell of one memory is in another one. When no two cells come to one place, and
accesses in the two memories go to cells that correspond, both memories keep the same contents and
loads give the same (`run_agree`, `load_agree`).
-/

namespace BpfTv.Relocation

variable {A B β : Type}

/-- `a + i` -/
abbrev Shift (A : Type) := A → Nat → A

/-- The `w` cells at `a`. -/
def cells (shift : Shift A) (a : A) (w : Nat) : List A := (List.range w).map (shift a)

/-- An access to memory, and what it stores. -/
inductive Access (A β : Type)
  | load (a : A) (w : Nat)
  | store (a : A) (data : List β)
  | copy (dst src : A) (w : Nat)

/-- The cells that are accessed: the first one, and how many. -/
def Access.ranges : Access A β → List (A × Nat)
  | .load a w => [(a, w)]
  | .store a data => [(a, data.length)]
  | .copy dst src w => [(dst, w), (src, w)]

section

variable [DecidableEq A] [DecidableEq B]

def write (m : A → β) : List A → List β → A → β
  | a :: as, x :: xs => write (Function.update m a x) as xs
  | _, _ => m

def Access.apply (shift : Shift A) (m : A → β) : Access A β → A → β
  | .load _ _ => m
  | .store a data => write m (cells shift a data.length) data
  | .copy dst src w => write m (cells shift dst w) ((cells shift src w).map m)

/-- What memory holds after the accesses. -/
def run (shift : Shift A) (m : A → β) (t : List (Access A β)) : A → β := t.foldl (Access.apply shift) m

end

/-! ## Memories that agree -/

/-- The cells of `D` have the same contents at the places that they have moved to. -/
def Agree (D : A → Prop) (move : A → B) (m : A → β) (m' : B → β) : Prop := ∀ a, D a → m' (move a) = m a

/-- The cells at `a` have moved to the cells at `b`. -/
def Moves (D : A → Prop) (move : A → B) (shift : Shift A) (shift' : Shift B) (a : A) (b : B) (w : Nat) : Prop :=
  ∀ i < w, D (shift a i) ∧ move (shift a i) = shift' b i

/-- The two accesses are the same one, at places that correspond by `T`. -/
inductive Access.Same (T : A → B → Nat → Prop) : Access A β → Access B β → Prop
  | load {a b w} (h : T a b w) : Same T (.load a w) (.load b w)
  | store {a b data} (h : T a b data.length) : Same T (.store a data) (.store b data)
  | copy {a a' b b' w} (h : T a b w) (h' : T a' b' w) : Same T (.copy a a' w) (.copy b b' w)

variable {D : A → Prop} {move : A → B} {shift : Shift A} {shift' : Shift B} {m : A → β} {m' : B → β} {a : A} {b : B}
  {w : Nat}

theorem Access.Same.imp {T T' : A → B → Nat → Prop} {x : Access A β} {y : Access B β} (h : x.Same T y)
    (hT : ∀ a b w, (b, w) ∈ y.ranges → T a b w → T' a b w) : x.Same T' y := by
  cases h with
  | load h => exact .load (hT _ _ _ (List.mem_singleton_self _) h)
  | store h => exact .store (hT _ _ _ (List.mem_singleton_self _) h)
  | copy h h' =>
    exact .copy (hT _ _ _ (List.mem_cons_self ..) h)
      (hT _ _ _ (List.mem_cons_of_mem _ (List.mem_singleton_self _)) h')

theorem Moves.mem (h : Moves D move shift shift' a b w) : ∀ c ∈ cells shift a w, D c := by
  intro c hc
  obtain ⟨i, hi, rfl⟩ := List.mem_map.mp hc
  exact (h i (List.mem_range.mp hi)).1

theorem Moves.cells (h : Moves D move shift shift' a b w) :
    (cells shift a w).map move = Relocation.cells shift' b w := by
  rw [Relocation.cells, Relocation.cells, List.map_map]
  exact List.map_congr_left fun i hi => (h i (List.mem_range.mp hi)).2

theorem load_agree (hm : Agree D move m m') (h : Moves D move shift shift' a b w) :
    (cells shift' b w).map m' = (cells shift a w).map m := by
  rw [← h.cells, List.map_map]
  exact List.map_congr_left fun c hc => hm c (h.mem c hc)

section

variable [DecidableEq A] [DecidableEq B]

theorem update_agree (hinj : Set.InjOn move {a | D a}) (hm : Agree D move m m') (ha : D a) (x : β) :
    Agree D move (Function.update m a x) (Function.update m' (move a) x) := by
  intro c hc
  by_cases hca : c = a
  · rw [hca, Function.update_self, Function.update_self]
  · rw [Function.update_of_ne hca, Function.update_of_ne fun heq => hca (hinj hc ha heq)]
    exact hm c hc

theorem write_agree (hinj : Set.InjOn move {a | D a}) {as : List A} (hm : Agree D move m m') (has : ∀ a ∈ as, D a)
    (data : List β) : Agree D move (write m as data) (write m' (as.map move) data) := by
  induction as generalizing m m' data with
  | nil => exact hm
  | cons a as ih =>
    cases data with
    | nil => exact hm
    | cons x data =>
      exact ih (update_agree hinj hm (has a (List.mem_cons_self ..)) x)
        (fun c hc => has c (List.mem_cons_of_mem _ hc)) data

theorem apply_agree (hinj : Set.InjOn move {a | D a}) {x : Access A β} {y : Access B β} (hm : Agree D move m m')
    (h : x.Same (Moves D move shift shift') y) : Agree D move (x.apply shift m) (y.apply shift' m') := by
  cases h with
  | load => exact hm
  | store h =>
    rw [Access.apply, Access.apply, ← h.cells]
    exact write_agree hinj hm h.mem _
  | copy h h' =>
    rw [Access.apply, Access.apply, load_agree hm h', ← h.cells]
    exact write_agree hinj hm h.mem _

/-- After the same accesses, the memories agree. -/
theorem run_agree (hinj : Set.InjOn move {a | D a}) {t : List (Access A β)} {t' : List (Access B β)}
    (h : List.Forall₂ (Access.Same (Moves D move shift shift')) t t') (hm : Agree D move m m') :
    Agree D move (run shift m t) (run shift' m' t') := by
  induction h generalizing m m' with
  | nil => exact hm
  | cons hx _ ih => exact ih (apply_agree hinj hm hx)

end

end BpfTv.Relocation
