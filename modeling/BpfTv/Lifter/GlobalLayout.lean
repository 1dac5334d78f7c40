import BpfTv.Lib.Layout
import BpfTv.Lifter.GlobalLookup

/-!
# Layout of initializers

`lazyAddGlobal` makes a struct of a global's items, an `i8` for a byte and a pointer for a symbol. The
struct is not packed, so LLVM aligns its pointers; in the assembly the items are one behind the
other.
-/

namespace BpfTv

/-- The type that is pushed on `tys` for an item. -/
def InitItem.ty : InitItem → Ty
  | .byte _ => .int 8
  | .ptr _ _ => .ptr

/-- Size and alignment of the types of initializers. -/
def Ty.field : Ty → Layout.Field
  | .ptr => ⟨8, 8⟩
  | _ => ⟨1, 1⟩

/-- `StructType::create(tys)`: a struct that is not packed. -/
def structFields (items : List InitItem) : List Layout.Field := items.map fun item => item.ty.field

def structOffsets (items : List InitItem) : List Nat := Layout.offsetsFrom 0 (structFields items)

def structSize (items : List InitItem) : Nat := Layout.size (structFields items)

/-- The bytes of an item in the assembly. -/
def RODataItem.size : RODataItem → Nat
  | .byte _ => 1
  | .offsetSym _ _ => 8

def asmSize (data : List RODataItem) : Nat := (data.map RODataItem.size).sum

/-- The offset of item `i` in the assembly. -/
def asmOffset (data : List RODataItem) (i : Nat) : Nat := asmSize (data.take i)

/-- The items of the struct are where they are in the assembly. -/
structure SameLayout (data : List RODataItem) (items : List InitItem) : Prop where
  offsets : ∀ i < data.length, (structOffsets items)[i]? = some (asmOffset data i)
  size : structSize items = asmSize data

/-- Every symbol is at a multiple of 8, and the end is when there is a symbol. -/
structure SymbolsAligned (data : List RODataItem) : Prop where
  items : ∀ i sym offset, data[i]? = some (.offsetSym sym offset) → 8 ∣ asmOffset data i
  tail : (∃ sym offset, .offsetSym sym offset ∈ data) → 8 ∣ asmSize data

/-- Size and alignment of the member for an item. -/
def RODataItem.field : RODataItem → Layout.Field
  | .byte _ => ⟨1, 1⟩
  | .offsetSym _ _ => ⟨8, 8⟩

theorem initItems_fields (G : Globals) (data : List RODataItem) :
    structFields (G.initItems data).1 = data.map RODataItem.field := by
  induction data generalizing G with
  | nil => rfl
  | cons item data ih =>
    cases item with
    | byte b => exact congrArg (_ :: ·) (ih G)
    | offsetSym sym offset => exact congrArg (_ :: ·) (ih (G.refSym sym).2)

theorem fields_size (data : List RODataItem) :
    ((data.map RODataItem.field).map Layout.Field.size).sum = asmSize data := by
  rw [List.map_map, asmSize]
  refine congrArg List.sum (List.map_congr_left fun item _ => ?_)
  cases item <;> rfl

theorem fields_align_pos (data : List RODataItem) : ∀ f ∈ data.map RODataItem.field, 0 < f.align := by
  rw [List.forall_mem_map]
  intro item _
  cases item with
  | byte b => exact Nat.one_pos
  | offsetSym sym offset => exact Nat.succ_pos 7

theorem maxAlign_le (data : List RODataItem) : Layout.maxAlign (data.map RODataItem.field) ≤ 8 := by
  induction data with
  | nil => decide
  | cons item data ih =>
    refine Nat.max_le.mpr ⟨?_, ih⟩
    cases item with
    | byte b => exact Nat.le_of_ble_eq_true rfl
    | offsetSym sym offset => exact Nat.le_refl 8

theorem maxAlign_symbol {data : List RODataItem} {sym : String} {offset : Int}
    (h : .offsetSym sym offset ∈ data) : Layout.maxAlign (data.map RODataItem.field) = 8 := by
  refine Nat.le_antisymm (maxAlign_le data) ?_
  induction data with
  | nil => cases h
  | cons item data ih =>
    rcases List.mem_cons.mp h with rfl | h
    · exact Nat.le_max_left ..
    · exact Nat.le_trans (ih h) (Nat.le_max_right ..)

theorem maxAlign_bytes {data : List RODataItem} (h : ∀ sym offset, .offsetSym sym offset ∉ data) :
    Layout.maxAlign (data.map RODataItem.field) = 1 := by
  induction data with
  | nil => rfl
  | cons item data ih =>
    have htail := ih fun sym offset hmem => h sym offset (List.mem_cons_of_mem _ hmem)
    cases item with
    | byte b => exact (congrArg (max 1) htail)
    | offsetSym sym offset => exact absurd (List.mem_cons_self ..) (h sym offset)

theorem maxAlign_dvd_iff (data : List RODataItem) (n : Nat) :
    Layout.maxAlign (data.map RODataItem.field) ∣ n ↔
      ((∃ sym offset, .offsetSym sym offset ∈ data) → 8 ∣ n) := by
  by_cases h : ∃ sym offset, .offsetSym sym offset ∈ data
  · obtain ⟨sym, offset, hmem⟩ := h
    rw [maxAlign_symbol hmem]
    exact ⟨fun hdvd _ => hdvd, fun himp => himp ⟨sym, offset, hmem⟩⟩
  · rw [maxAlign_bytes fun sym offset hmem => h ⟨sym, offset, hmem⟩]
    exact iff_of_true (Nat.one_dvd n) fun hmem => absurd hmem h

theorem alignedFrom_fields (data : List RODataItem) :
    Layout.AlignedFrom 0 (data.map RODataItem.field) ↔
      ∀ i sym offset, data[i]? = some (.offsetSym sym offset) → 8 ∣ asmOffset data i := by
  rw [Layout.alignedFrom_iff]
  simp only [List.length_map, List.getElem_map, ← List.map_take, fields_size, Nat.zero_add]
  constructor
  · intro h i sym offset hi
    obtain ⟨hlt, heq⟩ := List.getElem?_eq_some_iff.mp hi
    have hdvd := h i hlt
    rw [heq] at hdvd
    exact hdvd
  · intro h i hlt
    cases hitem : data[i] with
    | byte b => exact Nat.one_dvd _
    | offsetSym sym offset => exact h i sym offset (by rw [List.getElem?_eq_getElem hlt, hitem])

theorem sameLayout_iff (G : Globals) (data : List RODataItem) :
    SameLayout data (G.initItems data).1 ↔ SymbolsAligned data := by
  have hpos := fields_align_pos data
  have hoffsets : (∀ i < data.length, (structOffsets (G.initItems data).1)[i]? = some (asmOffset data i)) ↔
      Layout.AlignedFrom 0 (data.map RODataItem.field) := by
    rw [← Layout.offsetsFrom_iff hpos, Layout.offsetsFrom_eq_packedFrom_iff, List.length_map]
    refine forall₂_congr fun i _ => ?_
    rw [structOffsets, initItems_fields, ← List.map_take, fields_size, Nat.zero_add, asmOffset]
  have hsize : Layout.AlignedFrom 0 (data.map RODataItem.field) →
      (structSize (G.initItems data).1 = asmSize data ↔
        ((∃ sym offset, .offsetSym sym offset ∈ data) → 8 ∣ asmSize data)) := by
    intro ha
    rw [structSize, initItems_fields, ← maxAlign_dvd_iff, ← fields_size, Layout.size_iff hpos ha]
  constructor
  · rintro ⟨hoff, hend⟩
    have ha := hoffsets.mp hoff
    exact ⟨(alignedFrom_fields data).mp ha, (hsize ha).mp hend⟩
  · rintro ⟨hitems, htail⟩
    have ha := (alignedFrom_fields data).mpr hitems
    exact ⟨hoffsets.mpr ha, (hsize ha).mpr htail⟩

/-- The struct that is built for a global of the assembly has the layout of the assembly exactly when
every symbol is at a multiple of 8, and so is the end when there is a symbol. -/
theorem initializer_layout (M : ModuleInfo) (G : Globals) (name : String) (g : MCGlobal)
    (hr : M.resolve name = some (.data g)) :
    ∃ (items : List InitItem) (G₁ : Globals), lazyAddGlobal M name G =
        .ok (G₁.create (demangle g.name) (.data items g.isConstant g.align)) ∧
      (SameLayout g.data items ↔ SymbolsAligned g.data) :=
  ⟨_, _, lazyAddGlobal_of_resolve hr G, sameLayout_iff G g.data⟩

/-- `t: .byte 1; .zero 7; .quad t`. -/
def alignedTable : List RODataItem := List.replicate 8 (.byte 1#8) ++ [.offsetSym "t" 0]

theorem alignedTable_aligned : SymbolsAligned alignedTable where
  items := by
    intro i sym offset hi
    obtain rfl : i = 8 := by
      by_contra hne
      rw [alignedTable, List.getElem?_append, List.length_replicate] at hi
      split at hi
      · rw [List.getElem?_replicate] at hi
        split at hi <;> cases hi
      · rw [List.getElem?_singleton, if_neg (by omega)] at hi
        cases hi
    decide
  tail _ := by decide

/-- The struct for the table has its layout. -/
theorem initializer_layout_table :
    let M := ModuleInfo.ofGlobals [{ name := "t", align := 8, section_ := ".data", data := alignedTable }]
    ∃ (items : List InitItem) (G₁ : Globals), lazyAddGlobal M "t" (Globals.init M) =
        .ok (G₁.create (demangle "t") (.data items false 8)) ∧ SameLayout alignedTable items := by
  obtain ⟨items, G₁, hadd, hiff⟩ := initializer_layout
    (ModuleInfo.ofGlobals [{ name := "t", align := 8, section_ := ".data", data := alignedTable }]) (Globals.init _) "t"
    { name := "t", align := 8, section_ := ".data", data := alignedTable } (by decide +kernel)
  exact ⟨items, G₁, hadd, hiff.mpr alignedTable_aligned⟩

theorem create_inj {G₁ G₂ : Globals} {n : String} {k₁ k₂ : GlobalKind}
    (h : G₁.create n k₁ = G₂.create n k₂) : k₁ = k₂ := by
  have hobjs := congrArg (fun p => p.2.objs.getLast?) h
  simp only [Globals.create, List.getLast?_append, List.getLast?_singleton, Option.some_or,
    Option.some_inj, GlobalObj.mk.injEq] at hobjs
  exact hobjs.2.2

/-- `p: .byte 1; .quad p` has 9 bytes, its struct has 16 and the pointer at 8. -/
theorem initializer_layout_packed_fails :
    ¬ ∀ (M : ModuleInfo) (G : Globals) (name : String) (g : MCGlobal),
      M.resolve name = some (.data g) →
      ∃ (items : List InitItem) (G₁ : Globals), lazyAddGlobal M name G =
          .ok (G₁.create (demangle g.name) (.data items g.isConstant g.align)) ∧
        SameLayout g.data items := by
  intro h
  let g : MCGlobal :=
    { name := "p", align := 1, section_ := ".data", data := [.byte 1#8, .offsetSym "p" 0] }
  let M := ModuleInfo.ofGlobals [g]
  have hr : M.resolve "p" = some (.data g) := by decide +kernel
  obtain ⟨items, G₁, hadd, hlayout⟩ := h M (Globals.init M) "p" g hr
  rw [lazyAddGlobal_of_resolve hr, Except.ok.injEq] at hadd
  obtain ⟨rfl, _, _⟩ := GlobalKind.data.inj (create_inj hadd)
  have hoff := hlayout.offsets 1 (by decide)
  revert hoff
  decide +kernel

end BpfTv
