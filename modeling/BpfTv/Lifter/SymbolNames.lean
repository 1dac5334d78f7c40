import BpfTv.Lifter.Globals
import Mathlib.Data.List.Infix
import Mathlib.Tactic.Common

/-!
# Symbol names

`demangle` takes the spelling of a symbol in the assembly back to the name of the source global. It
looks at the spelling alone, where a private name has the prefix `.L` and a local alias the suffix
`$local`: names of private symbols come back when they start with a dot, names that look like one of
the spellings themselves do not (`symbol_names`). An operand is demangled twice on its way to
`lazyAddGlobal`, so that a private name may still be taken for a shorter one.
-/

namespace BpfTv

inductive Linkage
  | externalLinkage
  | internalLinkage
  | privateLinkage
  deriving DecidableEq, Repr

/-- A global of the source module; `dsoLocal` says that it is a dso_local definition. -/
structure SourceSymbol where
  name : String
  linkage : Linkage
  dsoLocal : Bool := false
  deriving DecidableEq, Repr

/-- The name behind the private prefix. -/
def privateName (name : String) : String := ".L" ++ name

/-- The local alias of a definition. -/
def localAlias (name : String) : String := ".L" ++ name ++ "$local"

/-- The spellings of a global in the assembly. -/
def SourceSymbol.spellings (g : SourceSymbol) : List String :=
  match g.linkage with
  | .externalLinkage => g.name :: if g.dsoLocal then [localAlias g.name] else []
  | .internalLinkage => [g.name]
  | .privateLinkage => [privateName g.name]

/-- Every spelling of a global leads back to its name. -/
def RoundTrips (gs : List SourceSymbol) : Prop :=
  ∀ g ∈ gs, ∀ s ∈ g.spellings, demangle s = g.name

/-- Globals of different names have no spellings that lead to one name. -/
def Separate (gs : List SourceSymbol) : Prop :=
  ∀ g ∈ gs, ∀ g' ∈ gs, g.name ≠ g'.name → ∀ s ∈ g.spellings, ∀ s' ∈ g'.spellings,
    demangle s ≠ demangle s'

/-- The name that is looked up for an operand: `MCExprToName` has demangled it before `lookupGlobal`. -/
def lookupName (s : String) : String := demangle (demangle s)

/-- A reference to one global finds no global of another name. -/
def NeverMixed (gs : List SourceSymbol) : Prop :=
  ∀ g ∈ gs, ∀ g' ∈ gs, g.name ≠ g'.name → ∀ s ∈ g.spellings, ∀ s' ∈ g'.spellings,
    lookupName s ≠ demangle s'

/-- A spelling with a private prefix and an alias suffix. -/
def isLocalAlias (name : String) : Prop := ".L".toList <+: name.toList ∧ "$local".toList <:+ name.toList

/-- The name is no other one's spelling: it does not start like a private symbol with a dot, nor is it
an alias; a private name starts with a dot and does not end like an alias. -/
def SourceSymbol.Plain (g : SourceSymbol) : Prop :=
  match g.linkage with
  | .privateLinkage => ".".toList <+: g.name.toList ∧ ¬"$local".toList <:+ g.name.toList
  | _ => ¬isLocalAlias g.name ∧ ¬".L.".toList <+: g.name.toList

/-- No private global is called `.L` and the name of a global that starts with a dot. -/
def NotNested (gs : List SourceSymbol) : Prop :=
  ∀ g ∈ gs, g.linkage = .privateLinkage → ∀ g' ∈ gs, ".".toList <+: g'.name.toList →
    g.name ≠ privateName g'.name

/-! ## The three spellings -/

variable {name : String}

theorem demangle_alias (name : String) : demangle (localAlias name) = name := by
  have hlist : (localAlias name).toList = ".L".toList ++ name.toList ++ "$local".toList := by
    rw [localAlias, String.toList_append, String.toList_append]
  have halias : ".L".toList <+: (localAlias name).toList ∧ "$local".toList <:+ (localAlias name).toList := by
    rw [hlist]
    exact ⟨by rw [List.append_assoc]; exact List.prefix_append _ _, List.suffix_append _ _⟩
  have hlen : (localAlias name).toList.length = 2 + name.toList.length + 6 := by
    rw [hlist, List.length_append, List.length_append]
    rfl
  unfold demangle
  simp only [if_pos halias, hlen]
  apply String.toList_injective
  rw [String.toList_ofList, hlist, List.append_assoc]
  show ((name.toList ++ "$local".toList).take (2 + name.toList.length + 6 - 2 - 6)) = name.toList
  rw [show 2 + name.toList.length + 6 - 2 - 6 = name.toList.length by omega]
  exact List.take_left' rfl

theorem demangle_eq_self : demangle name = name ↔ ¬isLocalAlias name ∧ ¬".L.".toList <+: name.toList := by
  unfold demangle isLocalAlias
  simp only
  constructor
  · intro h
    split at h
    · -- the alias is shorter
      rename_i halias
      have hlen := halias.1.length_le
      have hlen' := halias.2.length_le
      have hshort := congrArg (fun s : String => s.toList.length) h
      simp only [String.toList_ofList, List.length_take, List.length_drop] at hshort
      have h2 : ".L".toList.length = 2 := by decide
      have h6 : "$local".toList.length = 6 := by decide
      omega
    · rename_i halias
      split at h
      · rename_i hdot
        have hlen := hdot.length_le
        have hshort := congrArg (fun s : String => s.toList.length) h
        simp only [String.toList_ofList, List.length_drop] at hshort
        have h3 : ".L.".toList.length = 3 := by decide
        omega
      · rename_i hdot
        exact ⟨halias, hdot⟩
  · rintro ⟨halias, hdot⟩
    rw [if_neg halias, if_neg hdot]

theorem suffix_private : "$local".toList <:+ (privateName name).toList ↔ "$local".toList <:+ name.toList := by
  have hlist : (privateName name).toList = '.' :: 'L' :: name.toList := by
    rw [privateName, String.toList_append]
    rfl
  rw [hlist, List.suffix_cons_iff, List.suffix_cons_iff]
  constructor
  · rintro (h | h | h)
    · exact absurd (congrArg List.head? h) (by rw [List.head?_cons]; decide)
    · exact absurd (congrArg List.head? h) (by rw [List.head?_cons]; decide)
    · exact h
  · exact fun h => Or.inr (Or.inr h)

theorem demangle_private : demangle (privateName name) = name ↔
    ".".toList <+: name.toList ∧ ¬"$local".toList <:+ name.toList := by
  have hlist : (privateName name).toList = ".L".toList ++ name.toList := by
    rw [privateName, String.toList_append]
  have hprefix : ".L".toList <+: (privateName name).toList := hlist ▸ List.prefix_append _ _
  have hlen : (privateName name).toList.length = 2 + name.toList.length := by
    rw [hlist, List.length_append]
    rfl
  have hdot : ".L.".toList <+: (privateName name).toList ↔ ".".toList <+: name.toList := by
    rw [hlist]
    show ".L".toList ++ ".".toList <+: ".L".toList ++ name.toList ↔ _
    exact List.prefix_append_right_inj _
  unfold demangle
  simp only [suffix_private, hdot, hprefix, true_and]
  constructor
  · intro h
    split at h
    · -- what is left has lost the suffix too
      rename_i hsuffix
      have hshort := congrArg (fun s : String => s.toList.length) h
      simp only [String.toList_ofList, List.length_take, List.length_drop, hlen] at hshort
      have hle := hsuffix.length_le
      have h6 : "$local".toList.length = 6 := by decide
      have h6' : "$local".length = 6 := by decide
      omega
    · rename_i hsuffix
      split at h
      · rename_i hpre
        exact ⟨hpre, hsuffix⟩
      · have hsame := congrArg (fun s : String => s.toList.length) h
        simp only [hlen] at hsame
        omega
  · rintro ⟨hpre, hsuffix⟩
    rw [if_neg hsuffix, if_pos hpre]
    apply String.toList_injective
    rw [String.toList_ofList, hlist]
    rfl

theorem spellings_plain (g : SourceSymbol) : (∀ s ∈ g.spellings, demangle s = g.name) ↔ g.Plain := by
  obtain ⟨name, linkage, dsoLocal⟩ := g
  cases linkage with
  | externalLinkage =>
    simp only [SourceSymbol.spellings, SourceSymbol.Plain]
    rw [← demangle_eq_self]
    refine ⟨fun h => h name (List.mem_cons_self ..), fun h s hs => ?_⟩
    rcases List.mem_cons.mp hs with rfl | hs
    · exact h
    · split at hs
      · rw [List.mem_singleton.mp hs]
        exact demangle_alias name
      · cases hs
  | internalLinkage =>
    simp only [SourceSymbol.spellings, SourceSymbol.Plain, List.mem_singleton, forall_eq]
    exact demangle_eq_self
  | privateLinkage =>
    simp only [SourceSymbol.spellings, SourceSymbol.Plain, List.mem_singleton, forall_eq]
    exact demangle_private

theorem exists_spelling (g : SourceSymbol) : ∃ s, s ∈ g.spellings := by
  unfold SourceSymbol.spellings
  split
  · exact ⟨_, List.mem_cons_self ..⟩
  · exact ⟨_, List.mem_cons_self ..⟩
  · exact ⟨_, List.mem_cons_self ..⟩

/-- A plain name that is demangled once more is a private one, and loses its prefix. -/
theorem demangle_again {g : SourceSymbol} (h : g.Plain) : demangle g.name = g.name ∨
    g.linkage = .privateLinkage ∧ g.name = privateName (demangle g.name) ∧
      ".".toList <+: (demangle g.name).toList := by
  unfold SourceSymbol.Plain at h
  split at h
  · rename_i hpriv
    by_cases hdot : ".L.".toList <+: g.name.toList
    · obtain ⟨rest, hrest⟩ := hdot
      have hdem : (demangle g.name).toList = '.' :: rest := by
        unfold demangle
        rw [if_neg fun halias => h.2 halias.2, if_pos ⟨rest, hrest⟩, ← hrest]
        exact String.toList_ofList
      refine Or.inr ⟨hpriv, ?_, hdem ▸ ⟨rest, rfl⟩⟩
      apply String.toList_injective
      rw [privateName, String.toList_append, hdem, ← hrest]
      rfl
    · exact Or.inl (demangle_eq_self.mpr ⟨fun halias => h.2 halias.2, hdot⟩)
  · exact Or.inl (demangle_eq_self.mpr h)

/-- **Symbol names.** The spellings of the globals of a module lead back to their names, no two names
meet, and no reference finds another global, if and only if each name is plain and no private one is
nested. -/
theorem symbol_names (gs : List SourceSymbol) :
    (RoundTrips gs ∧ Separate gs ∧ NeverMixed gs) ↔ (∀ g ∈ gs, g.Plain) ∧ NotNested gs := by
  constructor
  · rintro ⟨htrips, _, hmixed⟩
    have hplain : ∀ g ∈ gs, g.Plain := fun g hg => (spellings_plain g).mp (htrips g hg)
    refine ⟨hplain, fun g hg hpriv g' hg' hdot hname => ?_⟩
    -- the name of `g` is the spelling that `g'` would have
    have hdem : demangle g.name = g'.name := by
      have hsuffix := hplain g hg
      simp only [SourceSymbol.Plain, hpriv, hname, suffix_private] at hsuffix
      rw [hname]
      exact demangle_private.mpr ⟨hdot, hsuffix.2⟩
    have hne : g.name ≠ g'.name := by
      intro heq
      have hlen := congrArg (fun s : String => s.toList.length) (heq.symm.trans hname)
      simp only [privateName, String.toList_append, List.length_append] at hlen
      have h2 : ".L".toList.length = 2 := by decide
      omega
    obtain ⟨s, hs⟩ := exists_spelling g
    obtain ⟨s', hs'⟩ := exists_spelling g'
    refine hmixed g hg g' hg' hne s hs s' hs' ?_
    rw [lookupName, htrips g hg s hs, hdem, htrips g' hg' s' hs']
  · rintro ⟨hplain, hnested⟩
    have htrips : RoundTrips gs := fun g hg => (spellings_plain g).mpr (hplain g hg)
    refine ⟨htrips, fun g hg g' hg' hne s hs s' hs' heq => hne ?_,
      fun g hg g' hg' hne s hs s' hs' heq => ?_⟩
    · rw [← htrips g hg s hs, ← htrips g' hg' s' hs', heq]
    · rw [lookupName, htrips g hg s hs, htrips g' hg' s' hs'] at heq
      rcases demangle_again (hplain g hg) with hsame | ⟨hpriv, hname, hdot⟩
      · exact hne (hsame.symm.trans heq)
      · rw [heq] at hname hdot
        exact hnested g hg hpriv g' hg' hdot hname

/-- A private name without a dot does not come back, and an external name that is spelled like an alias
meets another one. -/
theorem symbol_names_fails :
    ¬RoundTrips [⟨"str", .privateLinkage, false⟩] ∧
      ¬Separate [⟨"foo", .externalLinkage, false⟩, ⟨".Lfoo$local", .internalLinkage, false⟩] := by
  refine ⟨fun h => ?_, fun h => ?_⟩
  · exact absurd (h _ (List.mem_cons_self ..) ".Lstr" (by decide)) (by decide)
  · exact h ⟨"foo", .externalLinkage, false⟩ (by decide) ⟨".Lfoo$local", .internalLinkage, false⟩ (by decide)
      (by decide) "foo" (by decide) ".Lfoo$local" (by decide) (by decide)

end BpfTv
