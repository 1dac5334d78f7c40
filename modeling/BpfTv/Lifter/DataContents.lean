import Mathlib.Data.List.Nodup
import BpfTv.Lifter.Globals
import BpfTv.Mc.Alignment

/-!
# The contents of data objects

The streamer collects data in one buffer and records it under the latest label when a label or a size
directive comes. Debug sections add to the buffer too, and their labels are skipped. An object still is
the first entry of its name, and that entry holds what the assembly puts into the object, with three
exceptions: a `.comm` object, which is filled with the character `'0'`, an object of no bytes, and a
symbol minus a constant (`data_contents`).
-/

namespace BpfTv

/-- An item of a data object. -/
inductive DataItem
  | bytes (data : List (BitVec 8))
  | fill (numBytes : Int) (fillValue : Nat)
  | symbol (sym : String)
  /-- Symbol plus constant, or symbol minus constant. -/
  | offset (sub : Bool) (sym : String) (offset : Int)
  deriving DecidableEq, Repr

namespace DataItem

def callback : DataItem → Callback
  | bytes data => .emitBytes data
  | fill numBytes fillValue => .emitFill (some numBytes) fillValue
  | symbol sym => .emitValueImpl (.symbolRef sym)
  | offset sub sym off => .emitValueImpl (.binary sub sym off)

/-- What the item is in the assembled object. -/
def contents : DataItem → List RODataItem
  | bytes data => data.map .byte
  | fill numBytes fillValue => List.replicate numBytes.toNat (.byte (BitVec.ofNat 8 fillValue))
  | symbol sym => [.offsetSym sym 0]
  | offset sub sym off => [.offsetSym sym (if sub then -off else off)]

/-- What the streamer takes it for. -/
def stored : DataItem → List RODataItem
  | offset _ sym off => [.offsetSym sym off]
  | i => i.contents

/-- Nothing is subtracted from a symbol. -/
def Exact : DataItem → Prop
  | offset sub _ off => sub = false ∨ off = 0
  | _ => True

theorem stored_length (i : DataItem) : i.stored.length = i.contents.length := by
  cases i <;> rfl

theorem stored_eq (i : DataItem) : i.stored = i.contents ↔ i.Exact := by
  cases i with
  | offset sub sym off =>
    cases sub with
    | false => simp [stored, contents, Exact]
    | true =>
      simp only [stored, contents, Exact, if_true, List.cons.injEq, RODataItem.offsetSym.injEq, true_and,
        and_true, Bool.true_eq_false, false_or]
      omega
  | _ => simp [stored, Exact]

end DataItem

/-- A part of a stream: what an object is made of, a `.comm` object, or what stands between objects. -/
inductive Chunk
  | object (name sec : String) (labels : List String) (items : List DataItem)
  | common (sym : String) (size align : Nat)
  | debugLabel (sec lab : String)
  | debugBytes (data : List (BitVec 8))
  | align (a : Nat)
  deriving DecidableEq, Repr

namespace Chunk

def callbacks : Chunk → List Callback
  | object _ sec labels items =>
    labels.map (.emitLabel sec) ++ items.map DataItem.callback ++ [.emitELFSize]
  | common sym size a => [.emitCommonSymbol sym size a]
  | debugLabel sec lab => [.emitLabel sec lab]
  | debugBytes data => [.emitBytes data]
  | align a => [.emitValueToAlignment a]

/-- The name and the contents of an object. -/
def datum : Chunk → Option (String × List RODataItem)
  | object name _ _ items => some (name, items.flatMap DataItem.contents)
  | common sym size _ => some (demangle sym, List.replicate size (.byte 0))
  | _ => none

/-- The entry of an object. -/
def own : Chunk → Option (String × List RODataItem)
  | object name _ _ items =>
    let data := items.flatMap DataItem.stored
    if data = [] then none else some (name, data)
  | common sym size _ => some (demangle sym, List.replicate size (.byte 48))
  | _ => none

def name? (c : Chunk) : Option String := c.datum.map Prod.fst

/-- The labels of an object name it, in a section that is not a debug section; other labels are those of
debug and BTF sections, and no object is named by a label of the latter. -/
def Ok (names : List String) : Chunk → Prop
  | object name sec labels items =>
    labels ≠ [] ∧ items ≠ [] ∧ (∀ lab ∈ labels, demangle lab = name) ∧ isDebugSection sec = false
  | debugLabel sec lab =>
    isDebugSection sec = true ∨ ".BTF".toList <+: sec.toList ∧ demangle lab ∉ names
  | _ => True

/-- Something has been stored, and it is what it should be. -/
def Stored : Chunk → Prop
  | object _ _ _ items => items.flatMap DataItem.contents ≠ [] ∧ ∀ i ∈ items, i.Exact
  | common _ size _ => size = 0
  | _ => True

end Chunk

/-- The names of the objects of a stream. -/
def objectNames (cs : List Chunk) : List String := cs.filterMap Chunk.name?

structure DataStream (cs : List Chunk) : Prop where
  nodup : (objectNames cs).Nodup
  guard : "__stack_chk_guard" ∉ objectNames cs
  /-- The source asserts this of every name that it demangles. -/
  nonempty : "" ∉ objectNames cs
  ok : ∀ c ∈ cs, c.Ok (objectNames cs)

/-- The entries with their demangled names. -/
def Streamer.entries (S : Streamer) : List (String × List RODataItem) :=
  S.MF.MCglobals.map fun g => (demangle g.name, g.data)

/-- The first entry with the name of an object has the contents of the object. -/
def ContentsKept (cs : List Chunk) (S : Streamer) : Prop :=
  ∀ c ∈ cs, ∀ d, c.datum = some d → S.entries.lookup d.1 = some d.2

variable {lineMap : Nat → Option SrcInst} {S S' : Streamer} {c : Chunk} {cs : List Chunk}

/-! ## What a part of the stream does -/

/-- The entry that is made of the buffer. -/
def Streamer.flushed (S : Streamer) : List (String × List RODataItem) :=
  if S.curROData = [] then [] else [(demangle S.curSym, S.curROData)]

theorem pending_entries (S : Streamer) :
    S.pending.map (fun g => (demangle g.name, g.data)) = S.flushed := by
  unfold Streamer.pending Streamer.flushed
  split <;> rfl

theorem addConstant_fields (S : Streamer) : S.addConstant.entries = S.entries ++ S.flushed ∧
    S.addConstant.curROData = [] ∧ S.addConstant.curSym = S.curSym := by
  refine ⟨?_, ?_, ?_⟩
  · rw [Streamer.entries, addConstant_MCglobals, List.map_append, pending_entries]
    rfl
  · unfold Streamer.addConstant
    split
    · assumption
    · rfl
  · unfold Streamer.addConstant
    split <;> rfl

theorem emitLabel_fields {sec : String} (h : isDebugSection sec = false) (S : Streamer) (lab : String) :
    (S.emitLabel sec lab).entries = S.entries ++ S.flushed ∧ (S.emitLabel sec lab).curROData = [] ∧
      (S.emitLabel sec lab).curSym = lab ∧ (S.emitLabel sec lab).curSec = sec := by
  obtain ⟨_, hdata, _⟩ := addConstant_fields S
  refine ⟨?_, ?_⟩
  · rw [Streamer.entries, (emitLabel_spec S sec lab).1, List.map_append]
    have hadded : S.added (.emitLabel sec lab) = S.pending := if_neg (by rw [h]; decide)
    rw [hadded, pending_entries]
    rfl
  · unfold Streamer.emitLabel
    rw [if_neg (by rw [h]; decide)]
    simp only
    split
    · split <;> exact ⟨hdata, rfl, rfl⟩
    · split <;> exact ⟨hdata, rfl, rfl⟩

theorem labels_play {sec : String} {labels : List String} (hsec : isDebugSection sec = false)
    (hne : labels ≠ []) (h : (labels.map (.emitLabel sec)).foldlM (Streamer.emit lineMap) S = .ok S') :
    S'.entries = S.entries ++ S.flushed ∧ S'.curROData = [] ∧ S'.curSym ∈ labels ∧ S'.curSec = sec := by
  induction labels generalizing S with
  | nil => exact absurd rfl hne
  | cons lab labels ih =>
    obtain ⟨hentries, hdata, hsym, hcur⟩ := emitLabel_fields hsec S lab
    have hrest : (labels.map (.emitLabel sec)).foldlM (Streamer.emit lineMap) (S.emitLabel sec lab) =
        .ok S' := h
    by_cases hnil : labels = []
    · rw [hnil] at hrest
      cases hrest
      exact ⟨hentries, hdata, by rw [hsym]; exact List.mem_cons_self .., hcur⟩
    · obtain ⟨hentries', hdata', hsym', hcur'⟩ := ih hnil hrest
      refine ⟨?_, hdata', List.mem_cons_of_mem _ hsym', hcur'⟩
      have hempty : (S.emitLabel sec lab).flushed = [] := if_pos hdata
      rw [hentries', hentries, hempty, List.append_nil]

theorem item_play {i : DataItem} (hsec : isDebugSection S.curSec = false)
    (h : S.emit lineMap i.callback = .ok S') :
    S'.entries = S.entries ∧ S'.curROData = S.curROData ++ i.stored ∧ S'.curSym = S.curSym ∧
      S'.curSec = S.curSec := by
  cases i with
  | bytes data =>
    cases h
    exact ⟨rfl, rfl, rfl, rfl⟩
  | fill numBytes fillValue =>
    simp only [DataItem.callback, Streamer.emit, Streamer.emitFill] at h
    split at h
    · cases h
      exact ⟨rfl, rfl, rfl, rfl⟩
    · cases h
  | symbol sym =>
    simp only [DataItem.callback, Streamer.emit, Streamer.emitValueImpl, hsec] at h
    cases h
    exact ⟨rfl, rfl, rfl, rfl⟩
  | offset sub sym off =>
    simp only [DataItem.callback, Streamer.emit, Streamer.emitValueImpl, hsec] at h
    cases h
    exact ⟨rfl, rfl, rfl, rfl⟩

theorem items_play {items : List DataItem} (hsec : isDebugSection S.curSec = false)
    (h : (items.map DataItem.callback).foldlM (Streamer.emit lineMap) S = .ok S') :
    S'.entries = S.entries ∧ S'.curROData = S.curROData ++ items.flatMap DataItem.stored ∧
      S'.curSym = S.curSym := by
  induction items generalizing S with
  | nil =>
    cases h
    exact ⟨rfl, (List.append_nil _).symm, rfl⟩
  | cons i items ih =>
    rw [List.map_cons, List.foldlM_cons] at h
    obtain ⟨S₁, hi, h⟩ := except_bind_ok h
    obtain ⟨hentries, hdata, hsym, hcur⟩ := item_play hsec hi
    rw [← hcur] at hsec
    obtain ⟨hentries', hdata', hsym'⟩ := ih hsec h
    refine ⟨hentries'.trans hentries, ?_, hsym'.trans hsym⟩
    rw [hdata', hdata, List.append_assoc, List.flatMap_cons]

/-- What a part of the stream adds to the entries: the buffer under the label that was the latest one,
then the entry of the object. -/
theorem chunk_play {names : List String} (hok : c.Ok names)
    (h : c.callbacks.foldlM (Streamer.emit lineMap) S = .ok S') :
    (∃ es, S'.entries = S.entries ++ es ++ c.own.toList ∧ ∀ e ∈ es, e.1 = demangle S.curSym ∧ e.2 ≠ []) ∧
      (demangle S'.curSym = demangle S.curSym ∨ some (demangle S'.curSym) = c.name? ∨
        demangle S'.curSym ∉ names) := by
  have hflushed : ∀ e ∈ S.flushed, e.1 = demangle S.curSym ∧ e.2 ≠ [] := by
    intro e he
    unfold Streamer.flushed at he
    split at he
    · cases he
    · rw [List.mem_singleton.mp he]
      exact ⟨rfl, by assumption⟩
  cases c with
  | object name sec labels items =>
    obtain ⟨hlabels, _, hnames, hsec⟩ := hok
    rw [Chunk.callbacks, List.foldlM_append] at h
    obtain ⟨S₂, h, hsize⟩ := except_bind_ok h
    rw [List.foldlM_append] at h
    obtain ⟨S₁, h₁, h₂⟩ := except_bind_ok h
    obtain ⟨hentries, hdata, hsym, hcur⟩ := labels_play hsec hlabels h₁
    rw [← hcur] at hsec
    obtain ⟨hentries', hdata', hsym'⟩ := items_play hsec h₂
    cases hsize
    obtain ⟨hentries'', _, hsym''⟩ := addConstant_fields S₂
    rw [hdata, List.nil_append] at hdata'
    have hname := hnames _ hsym
    refine ⟨⟨S.flushed, ?_, hflushed⟩, Or.inr (Or.inl ?_)⟩
    · have hown : S₂.flushed = (Chunk.own (.object name sec labels items)).toList := by
        rw [Streamer.flushed, hdata', hsym', hname, Chunk.own]
        split <;> rfl
      rw [hentries'', hentries', hentries, hown]
    · rw [hsym'', hsym', hname]
      rfl
  | common sym size a =>
    cases h
    exact ⟨⟨[], by rw [List.append_nil]; exact List.map_append, by simp⟩, Or.inl rfl⟩
  | debugLabel sec lab =>
    cases h
    by_cases hsec : isDebugSection sec = true
    · have hskip : S.emitLabel sec lab = { S with curSec := sec } := if_pos hsec
      rw [hskip]
      exact ⟨⟨[], by simp [Chunk.own, Streamer.entries], by simp⟩, Or.inl rfl⟩
    · have hdebug : isDebugSection sec = false := by simpa using hsec
      obtain ⟨hentries, _, hsym, _⟩ := emitLabel_fields hdebug S lab
      refine ⟨⟨S.flushed, ?_, hflushed⟩, Or.inr (Or.inr ?_)⟩
      · rw [hentries]
        exact (List.append_nil _).symm
      · rw [hsym]
        exact (hok.resolve_left hsec).2
  | debugBytes data =>
    cases h
    exact ⟨⟨[], by simp [Chunk.own, Streamer.entries], by simp⟩, Or.inl rfl⟩
  | align a =>
    cases h
    exact ⟨⟨[], by simp [Chunk.own, Streamer.entries], by simp⟩, Or.inl rfl⟩

/-! ## The whole stream -/

theorem own_name {e : String × List RODataItem} (h : c.own = some e) : c.name? = some e.1 := by
  cases c with
  | object name sec labels items =>
    simp only [Chunk.own] at h
    split at h
    · cases h
    · cases h
      rfl
  | common sym size a =>
    cases h
    rfl
  | _ => cases h

/-- After `done`, its objects have their entries, and nothing goes under the name of a later object. -/
structure Recorded (done rest : List Chunk) (S : Streamer) : Prop where
  found : ∀ c ∈ done, ∀ e, c.own = some e → S.entries.lookup e.1 = some e.2
  later : ∀ N ∈ objectNames rest, S.entries.lookup N = none ∧ demangle S.curSym ≠ N
  /-- An entry without data belongs to a `.comm` object. -/
  empty : ∀ e ∈ S.entries, e.2 = [] → ∃ sym size a, Chunk.common sym size a ∈ done ∧ demangle sym = e.1

theorem lookup_none_of_ne {es : List (String × List RODataItem)} {N : String} (h : ∀ e ∈ es, e.1 ≠ N) :
    es.lookup N = none :=
  List.lookup_eq_none_iff.mpr fun e he => by simpa using (h e he).symm

theorem lookup_append_some {es es' : List (String × List RODataItem)} {N : String} {x : List RODataItem}
    (h : es.lookup N = some x) : (es ++ es').lookup N = some x := by
  rw [List.lookup_append, h, Option.some_or]

theorem Recorded.step {done rest : List Chunk} (hnodup : (objectNames (c :: rest)).Nodup)
    {names : List String} (hnames : ∀ N ∈ objectNames (c :: rest), N ∈ names) (hok : c.Ok names)
    (hrec : Recorded done (c :: rest) S) (h : c.callbacks.foldlM (Streamer.emit lineMap) S = .ok S') :
    Recorded (done ++ [c]) rest S' := by
  obtain ⟨⟨es, hentries, hes⟩, hsym⟩ := chunk_play hok h
  have hsub : ∀ N ∈ objectNames rest, N ∈ objectNames (c :: rest) := by
    intro N hN
    obtain ⟨c', hc', hN⟩ := List.mem_filterMap.mp hN
    exact List.mem_filterMap.mpr ⟨c', List.mem_cons_of_mem _ hc', hN⟩
  -- the name of this object is not the name of a later one
  have hfresh : ∀ N ∈ objectNames rest, c.name? ≠ some N := by
    intro N hN hname
    rw [objectNames, List.filterMap_cons_some hname] at hnodup
    exact (List.nodup_cons.mp hnodup).1 hN
  refine ⟨fun x hx e he => ?_, fun N hN => ?_, fun e he hnil => ?_⟩
  · rw [hentries, List.append_assoc]
    rcases List.mem_append.mp hx with hx | hx
    · exact lookup_append_some (hrec.found x hx e he)
    · obtain rfl := List.mem_singleton.mp hx
      have hin : e.1 ∈ objectNames (x :: rest) :=
        List.mem_filterMap.mpr ⟨x, List.mem_cons_self .., own_name he⟩
      obtain ⟨hnone, hne⟩ := hrec.later e.1 hin
      have hpending : es.lookup e.1 = none := lookup_none_of_ne fun e' he' heq => by
        rw [(hes e' he').1] at heq
        exact hne heq
      rw [List.lookup_append, hnone, Option.none_or, List.lookup_append, hpending, Option.none_or, he]
      exact List.lookup_cons_self
  · obtain ⟨hnone, hne⟩ := hrec.later N (hsub N hN)
    refine ⟨?_, ?_⟩
    · rw [hentries, List.lookup_append, List.lookup_append, hnone, Option.none_or]
      have hpending : es.lookup N = none := lookup_none_of_ne fun e' he' heq => by
        rw [(hes e' he').1] at heq
        exact hne heq
      rw [hpending, Option.none_or]
      refine lookup_none_of_ne fun e' he' heq => hfresh N hN ?_
      rw [own_name (Option.mem_toList.mp he'), heq]
    · rcases hsym with hsym | hsym | hsym
      · rw [hsym]
        exact hne
      · intro heq
        exact hfresh N hN (heq ▸ hsym.symm)
      · intro heq
        exact hsym (heq ▸ hnames N (hsub N hN))
  · rw [hentries] at he
    rcases List.mem_append.mp he with he | he
    · rcases List.mem_append.mp he with he | he
      · obtain ⟨sym, size, a, hmem, heq⟩ := hrec.empty e he hnil
        exact ⟨sym, size, a, List.mem_append_left _ hmem, heq⟩
      · exact absurd hnil (hes e he).2
    · -- the entry of an object is not empty
      have hown := Option.mem_toList.mp he
      cases c with
      | object name sec labels items =>
        simp only [Chunk.own] at hown
        split at hown
        · cases hown
        · cases hown
          exact absurd hnil (by assumption)
      | common sym size a =>
        cases hown
        exact ⟨sym, size, a, List.mem_append_right _ (List.mem_singleton_self _), rfl⟩
      | _ => cases hown

theorem recorded_run {done rest : List Chunk} (hnodup : (objectNames rest).Nodup) {names : List String}
    (hnames : ∀ N ∈ objectNames rest, N ∈ names) (hok : ∀ c ∈ rest, c.Ok names)
    (hrec : Recorded done rest S)
    (h : (rest.flatMap Chunk.callbacks).foldlM (Streamer.emit lineMap) S = .ok S') :
    Recorded (done ++ rest) [] S' := by
  induction rest generalizing done S with
  | nil =>
    cases h
    rwa [List.append_nil]
  | cons c rest ih =>
    rw [List.flatMap_cons, List.foldlM_append] at h
    obtain ⟨S₁, hc, h⟩ := except_bind_ok h
    have hrec' := hrec.step hnodup hnames (hok c (List.mem_cons_self ..)) hc
    have hsub : (objectNames rest).Sublist (objectNames (c :: rest)) :=
      List.Sublist.filterMap _ (List.sublist_cons_self c rest)
    have hrest := ih (hnodup.sublist hsub) (fun N hN => hnames N (hsub.subset hN))
      (fun c' hc' => hok c' (List.mem_cons_of_mem _ hc')) hrec' h
    rwa [List.append_assoc] at hrest

theorem recorded_start (hcs : DataStream cs) : Recorded [] cs {} where
  found := by simp
  later N hN := by
    have hguard : N ≠ "__stack_chk_guard" := fun h => hcs.guard (h ▸ hN)
    refine ⟨lookup_none_of_ne fun e he heq => hguard ?_, fun heq => hcs.nonempty ?_⟩
    · rw [List.mem_singleton.mp he] at heq
      rw [← heq]
      decide +kernel
    · have hempty : demangle ({} : Streamer).curSym = "" := by decide +kernel
      rw [hempty] at heq
      rwa [heq]
  empty e he hnil := by
    rw [List.mem_singleton.mp he] at hnil
    cases hnil

/-- Two parts of the stream with one name are one. -/
theorem eq_of_name (hnodup : (objectNames cs).Nodup) {c c' : Chunk} (hc : c ∈ cs) (hc' : c' ∈ cs)
    {N : String} (hN : c.name? = some N) (hN' : c'.name? = some N) : c = c' := by
  induction cs with
  | nil => cases hc
  | cons x cs ih =>
    have hfresh : ∀ y ∈ cs, x.name? = some N → y.name? ≠ some N := by
      intro y hy hx hyN
      rw [objectNames, List.filterMap_cons_some hx] at hnodup
      exact (List.nodup_cons.mp hnodup).1 (List.mem_filterMap.mpr ⟨y, hy, hyN⟩)
    have hsub : (objectNames cs).Sublist (objectNames (x :: cs)) :=
      List.Sublist.filterMap _ (List.sublist_cons_self x cs)
    rcases List.mem_cons.mp hc with rfl | hin
    · rcases List.mem_cons.mp hc' with rfl | hin'
      · rfl
      · exact absurd hN' (hfresh c' hin' hN)
    · rcases List.mem_cons.mp hc' with rfl | hin'
      · exact absurd hN (hfresh c hin hN')
      · exact ih (hnodup.sublist hsub) hin hin'

theorem flatMap_stored_eq {items : List DataItem} :
    items.flatMap DataItem.stored = items.flatMap DataItem.contents ↔ ∀ i ∈ items, i.Exact := by
  induction items with
  | nil => simp
  | cons i items ih =>
    rw [List.flatMap_cons, List.flatMap_cons, List.forall_mem_cons, ← ih, ← i.stored_eq]
    constructor
    · intro h
      exact List.append_inj h i.stored_length
    · rintro ⟨hi, hitems⟩
      rw [hi, hitems]

theorem flatMap_stored_nil {items : List DataItem} :
    items.flatMap DataItem.stored = [] ↔ items.flatMap DataItem.contents = [] := by
  simp only [List.flatMap_eq_nil_iff]
  refine forall₂_congr fun i _ => ?_
  rw [← List.length_eq_zero_iff, ← List.length_eq_zero_iff, i.stored_length]

/-- **Data contents.** For every stream of objects, the first entry of each object holds what the
assembly puts into it if and only if no object is without bytes, nothing is subtracted from a symbol
and the `.comm` objects are empty. -/
theorem data_contents (lineMap : Nat → Option SrcInst) (cs : List Chunk) (hcs : DataStream cs) (S : Streamer)
    (h : Streamer.emitAll lineMap (cs.flatMap Chunk.callbacks) = .ok S) :
    ContentsKept cs S ↔ ∀ c ∈ cs, c.Stored := by
  have hrec := recorded_run hcs.nodup (fun _ h => h) hcs.ok (recorded_start hcs) h
  rw [List.nil_append] at hrec
  constructor
  · intro hkept c hc
    cases c with
    | object name sec labels items =>
      have hlookup := hkept _ hc _ rfl
      have hne : items.flatMap DataItem.contents ≠ [] := by
        intro hnil
        rw [hnil] at hlookup
        obtain ⟨es, es', hentries, _⟩ := List.lookup_eq_some_iff.mp hlookup
        have hin : (name, []) ∈ S.entries := by
          rw [hentries]
          exact List.mem_append_right _ (List.mem_cons_self ..)
        obtain ⟨sym, size, a, hmem, hname⟩ := hrec.empty _ hin rfl
        have heq := eq_of_name hcs.nodup hmem hc (congrArg some hname) rfl
        cases heq
      refine ⟨hne, flatMap_stored_eq.mp ?_⟩
      have hown := hrec.found _ hc (name, items.flatMap DataItem.stored)
        (if_neg fun hnil => hne (flatMap_stored_nil.mp hnil))
      rw [hlookup] at hown
      exact (Option.some.inj hown).symm
    | common sym size a =>
      have hlookup := hkept _ hc _ rfl
      have hown := hrec.found _ hc _ rfl
      rw [hlookup] at hown
      show size = 0
      cases size with
      | zero => rfl
      | succ size =>
        have hhead := List.head_eq_of_cons_eq (Option.some.inj hown)
        exact absurd hhead (by decide)
    | _ => trivial
  · intro hst c hc d hd
    have hstored := hst c hc
    cases c with
    | object name sec labels items =>
      cases hd
      obtain ⟨hne, hexact⟩ := hstored
      have hown := hrec.found _ hc (name, items.flatMap DataItem.stored)
        (if_neg fun hnil => hne (flatMap_stored_nil.mp hnil))
      rwa [flatMap_stored_eq.mpr hexact] at hown
    | common sym size a =>
      cases hd
      have hown := hrec.found _ hc _ rfl
      have hsize : size = 0 := hstored
      rwa [hsize] at hown ⊢
    | _ => cases hd

/-- A map, debug and BTF sections, and a pointer to the map. -/
def mapStream : List Chunk :=
  [.object "the_map" ".maps" ["the_map", ".Lthe_map$local"] [.fill 32 0],
    .debugLabel ".debug_str" ".Linfo_string0", .debugBytes [102, 0], .debugLabel ".BTF" ".LBTF0",
    .debugBytes [159, 235], .align 8,
    .object "p" ".data" ["p"] [.offset false "the_map" 4, .bytes [1, 2]]]

theorem mapStream_data : DataStream mapStream where
  nodup := by decide
  guard := by decide
  nonempty := by decide
  ok c hc := by
    simp only [mapStream, List.mem_cons, List.not_mem_nil, or_false] at hc
    rcases hc with rfl | rfl | rfl | rfl | rfl | rfl | rfl
    · exact ⟨by decide, by decide, by decide +kernel, by decide⟩
    · exact Or.inl (by decide)
    · trivial
    · exact Or.inr ⟨by decide, by decide +kernel⟩
    · trivial
    · trivial
    · exact ⟨by decide, by decide, by decide +kernel, by decide⟩

theorem data_contents_map :
    ∃ S, Streamer.emitAll (fun _ => none) (mapStream.flatMap Chunk.callbacks) = .ok S ∧
      ContentsKept mapStream S := by
  obtain ⟨S, hS⟩ := ok_of_isSome
    (x := Streamer.emitAll (fun _ => none) (mapStream.flatMap Chunk.callbacks)) (by decide +kernel)
  refine ⟨S, hS, (data_contents _ _ mapStream_data S hS).mpr fun c hc => ?_⟩
  simp only [mapStream, List.mem_cons, List.not_mem_nil, or_false] at hc
  rcases hc with rfl | rfl | rfl | rfl | rfl | rfl | rfl
  · exact ⟨by decide, by simp [DataItem.Exact]⟩
  · trivial
  · trivial
  · trivial
  · trivial
  · trivial
  · exact ⟨by decide, by simp [DataItem.Exact]⟩

theorem object_data {name sec : String} {item : DataItem} (hname : demangle name = name)
    (hsec : isDebugSection sec = false) (hguard : "__stack_chk_guard" ≠ name) (hne : "" ≠ name) :
    DataStream [.object name sec [name] [item]] where
  nodup := List.nodup_singleton name
  guard h := hguard (List.mem_singleton.mp h)
  nonempty h := hne (List.mem_singleton.mp h)
  ok c hc := by
    obtain rfl := List.mem_singleton.mp hc
    exact ⟨List.cons_ne_nil _ _, List.cons_ne_nil _ _, fun lab hlab => List.mem_singleton.mp hlab ▸ hname, hsec⟩

/-- `.comm c,4,4`, an object of no bytes, and `.quad s-4`. -/
theorem data_contents_fails :
    (DataStream [.common "c" 4 4] ∧
      ∃ S, Streamer.emitAll (fun _ => none) (Chunk.common "c" 4 4).callbacks = .ok S ∧
        S.entries.lookup "c" = some [.byte 48, .byte 48, .byte 48, .byte 48] ∧
        ¬ContentsKept [.common "c" 4 4] S) ∧
    (DataStream [.object "o" ".data" ["o"] [.fill 0 0]] ∧
      ∃ S, Streamer.emitAll (fun _ => none) (Chunk.object "o" ".data" ["o"] [.fill 0 0]).callbacks = .ok S ∧
        ¬ContentsKept [.object "o" ".data" ["o"] [.fill 0 0]] S) ∧
    DataStream [.object "q" ".data" ["q"] [.offset true "s" 4]] ∧
      ∃ S, Streamer.emitAll (fun _ => none) (Chunk.object "q" ".data" ["q"] [.offset true "s" 4]).callbacks =
          .ok S ∧
        ¬ContentsKept [.object "q" ".data" ["q"] [.offset true "s" 4]] S := by
  have hcommon : DataStream [.common "c" 4 4] :=
    { nodup := List.nodup_singleton _, guard := by decide +kernel, nonempty := by decide +kernel
      ok := fun c hc => by
        obtain rfl := List.mem_singleton.mp hc
        trivial }
  refine ⟨⟨hcommon, _, rfl, by decide +kernel, fun h => ?_⟩,
    ⟨object_data (by decide +kernel) (by decide) (by decide) (by decide), _, rfl, fun h => ?_⟩,
    object_data (by decide +kernel) (by decide) (by decide) (by decide), _, rfl, fun h => ?_⟩
  · exact absurd (h _ (List.mem_singleton_self _) _ rfl) (by decide +kernel)
  · exact absurd (h _ (List.mem_singleton_self _) _ rfl) (by decide +kernel)
  · exact absurd (h _ (List.mem_singleton_self _) _ rfl) (by decide +kernel)

end BpfTv
