import TupleAssign.Proofs.Cleanup
import TupleAssign.Proofs.Recognition
/-!
# References that need the import of the owner

A unit refers to the owner of the marker method through its simple name where an identifier is that
name and where the spelling of a class type starts with it: in `Tuple` and in `Tuple.Entry` alike
(`RefersToOwner`). A dotted expression starts with an identifier of its own, but the spelling of a
type is one string, and only a type that is spelled as the simple name alone is seen as a use
(`NamesOwner`).

So the import of the owner goes too early in exactly one situation: it was used, the simple name is
left nowhere on its own, and a type such as `Tuple.Entry` is left (`NamesNested`).
-/

namespace TupleAssign

open TupleAssign.Tree (Site)

/-! ## Below the imports -/

namespace Tree

theorem contains_importDecl_iff {i : Import} {s : Site} :
    (Site.importDecl i).Contains s ↔ s = .importDecl i := by
  constructor
  · intro h
    rcases Relation.ReflTransGen.cases_head h with rfl | ⟨part, hpart, -⟩
    · rfl
    · cases hpart
  · rintro rfl
    exact .refl

/-- What is neither the unit nor an import is in one of the classes. -/
theorem contains_unit_iff {u : CompilationUnit} {s : Site} (hunit : ∀ u, s ≠ .unit u)
    (himport : ∀ i, s ≠ .importDecl i) :
    (Site.unit u).Contains s ↔ ∃ c ∈ u.classes, (Site.classDecl c).Contains s := by
  constructor
  · intro h
    rcases Relation.ReflTransGen.cases_head h with rfl | ⟨part, hpart, hrest⟩
    · exact absurd rfl (hunit u)
    · rcases List.mem_append.1 hpart with hpart | hpart
      · obtain ⟨i, -, rfl⟩ := List.mem_map.1 hpart
        exact absurd (contains_importDecl_iff.1 hrest) (himport i)
      · obtain ⟨c, hc, rfl⟩ := List.mem_map.1 hpart
        exact ⟨c, hc, hrest⟩
  · rintro ⟨c, hc, h⟩
    exact .head (List.mem_append_right _ (List.mem_map.2 ⟨c, hc, rfl⟩)) h

theorem contains_setImports {u : CompilationUnit} (imports : List Import) {s : Site}
    (hunit : ∀ u, s ≠ .unit u) (himport : ∀ i, s ≠ .importDecl i) :
    (Site.unit { u with imports }).Contains s ↔ (Site.unit u).Contains s := by
  rw [contains_unit_iff hunit himport, contains_unit_iff hunit himport]

end Tree

namespace DeadImports

variable (m : Marker) (u : Tree.CompilationUnit)

/-! ## References -/

/-- The import is a single import of the owner, not a static one. -/
def ImportsOwner (i : Tree.Import) : Prop :=
  i.isStatic = false ∧ i.onDemand = false ∧ i.path = m.owner

instance (i : Tree.Import) : Decidable (ImportsOwner m i) := inferInstanceAs (Decidable (_ ∧ _))

/-- The first segment of the spelling is the simple name of the owner. -/
def StartsWithOwner (spelling : String) : Prop :=
  (Dotted.segments spelling).head? = some m.ownerSimpleName

instance (spelling : String) : Decidable (StartsWithOwner m spelling) :=
  inferInstanceAs (Decidable (_ = _))

/-- An identifier of the unit is the simple name of the owner, or the spelling of a class type in
it is that name or a dotted path that starts with it. -/
def RefersToOwner : Prop :=
  (∃ span, (Site.unit u).Contains (.expr (.ident span m.ownerSimpleName))) ∨
    ∃ spelling args, (Site.unit u).Contains (.type (.named spelling args)) ∧
      StartsWithOwner m spelling

/-- The unit contains a class type whose spelling goes on after the simple name of the owner. -/
def NamesNested : Prop :=
  ∃ spelling args, (Site.unit u).Contains (.type (.named spelling args)) ∧
    StartsWithOwner m spelling ∧ spelling ≠ m.ownerSimpleName

theorem startsWithOwner_self : StartsWithOwner m m.ownerSimpleName := by
  have hplain : Dotted.Plain m.ownerSimpleName := Dotted.plain_simpleName m.owner
  rw [StartsWithOwner, Dotted.segments_eq_singleton_iff.2 ⟨hplain, rfl⟩]
  rfl

theorem refersToOwner_iff : RefersToOwner m u ↔ NamesOwner m u ∨ NamesNested m u := by
  constructor
  · rintro (hident | ⟨spelling, args, htype, hstarts⟩)
    · exact .inl (.inl hident)
    · by_cases h : spelling = m.ownerSimpleName
      · exact .inl (.inr ⟨args, h ▸ htype⟩)
      · exact .inr ⟨spelling, args, htype, hstarts, h⟩
  · rintro ((hident | ⟨args, htype⟩) | ⟨spelling, args, htype, hstarts, -⟩)
    · exact .inl hident
    · exact .inr ⟨_, args, htype, startsWithOwner_self m⟩
    · exact .inr ⟨spelling, args, htype, hstarts⟩

/-- A class type that counts for `NamesNested`. -/
def isNestedType : Site → Bool
  | .type (.named n _) => decide (StartsWithOwner m n ∧ n ≠ m.ownerSimpleName)
  | _ => false

variable {m u}

theorem any_isNestedType_iff : (Tree.sites u).any (isNestedType m) = true ↔ NamesNested m u := by
  rw [List.any_eq_true]
  constructor
  · rintro ⟨s, hs, h⟩
    unfold isNestedType at h
    split at h
    · next n args => exact ⟨n, args, Tree.mem_sites_iff.1 hs, of_decide_eq_true h⟩
    · cases h
  · rintro ⟨n, args, hn, h⟩
    exact ⟨_, Tree.mem_sites_iff.2 hn, decide_eq_true h⟩

instance : Decidable (NamesNested m u) := decidable_of_iff _ any_isNestedType_iff

/-! ## Other imports, the same references -/

theorem namesOwner_setImports (imports : List Tree.Import) :
    NamesOwner m { u with imports } ↔ NamesOwner m u := by
  rw [← not_iff_not, ← isUnused_simple_iff, isUnused_imports, isUnused_simple_iff]

theorem namesNested_setImports (imports : List Tree.Import) :
    NamesNested m { u with imports } ↔ NamesNested m u := by
  have htype := fun t => Tree.contains_setImports (u := u) imports (s := .type t)
    (fun _ h => by cases h) fun _ h => by cases h
  simp only [NamesNested, htype]

theorem refersToOwner_setImports (imports : List Tree.Import) :
    RefersToOwner m { u with imports } ↔ RefersToOwner m u := by
  rw [refersToOwner_iff, refersToOwner_iff, namesOwner_setImports, namesNested_setImports]

/-! ## When the import of the owner goes -/

variable {used : List Form} {i : Tree.Import}

theorem dead_iff_of_importsOwner (h : ImportsOwner m i) :
    Dead m u used i ↔ Form.simple ∈ used ∧ ¬ NamesOwner m u := by
  obtain ⟨hstatic, hsingle, hpath⟩ := h
  constructor
  · rintro (⟨-, -, hbare, -⟩ | ⟨-, hused, -, -, hunused⟩)
    · exact absurd (hstatic.symm.trans hbare) Bool.false_ne_true
    · exact ⟨hused, hunused⟩
  · rintro ⟨hused, hunused⟩
    exact .inr ⟨hsingle, hused, hstatic, hpath, hunused⟩

/-- The import of the owner is among those that are left unless it was used and its name is not. -/
theorem not_mem_left_iff (h : ImportsOwner m i) (hi : i ∈ u.imports) :
    (i ∉ u.imports.filter fun i => ¬ Dead m u used i) ↔
      Form.simple ∈ used ∧ ¬ NamesOwner m u := by
  rw [List.mem_filter, decide_eq_true_eq, and_iff_right hi, not_not, dead_iff_of_importsOwner h]

end DeadImports

open DeadImports

/-- When an import of the owner goes, neither an identifier nor a type is left that is spelled as
its simple name. No reference of any kind is left exactly if it is not the case that the import was
there and used, its simple name stands nowhere alone, and a type whose spelling goes on after the
simple name is in the unit. -/
theorem removeDeadImports_load_spares_iff (m : Marker) (used : List Form) (u : Tree.CompilationUnit)
    (names : Interner) (hfits : (Program.load u names).1.store.arms.size ≤ absentRaw) :
    let loaded := Program.load u names
    let entered := Desugar.resolver m loaded.1.unit loaded.2
    ∃ removed p' u', loaded.1.removeDeadImports entered.2 m entered.1 used = .ok (removed, p') ∧
      p'.read entered.2 = .ok u' ∧
      (∀ i ∈ u.imports, ImportsOwner m i → i ∉ u'.imports → ¬ NamesOwner m u') ∧
      ((∀ i ∈ u.imports, ImportsOwner m i → i ∉ u'.imports → ¬ RefersToOwner m u') ↔
        ¬ ((∃ i ∈ u.imports, ImportsOwner m i) ∧ Form.simple ∈ used ∧ ¬ NamesOwner m u ∧
          NamesNested m u)) := by
  intro loaded entered
  obtain ⟨fp, hunit, hnodup, hr⟩ := load_entered m u names hfits
  obtain ⟨removed, p', hrun, hunit', -, -⟩ := hunit.removeDeadImports hnodup hr used
  refine ⟨removed, p', _, hrun, hunit'.read_known hnodup, ?_, ?_⟩
  · intro i hi howner hgone
    rw [namesOwner_setImports]
    exact ((not_mem_left_iff howner hi).1 hgone).2
  · rw [refersToOwner_setImports, refersToOwner_iff]
    constructor
    · rintro hspares ⟨⟨i, hi, howner⟩, hused, hunused, hnested⟩
      exact hspares i hi howner ((not_mem_left_iff howner hi).2 ⟨hused, hunused⟩) (.inr hnested)
    · intro hnot i hi howner hgone
      obtain ⟨hused, hunused⟩ := (not_mem_left_iff howner hi).1 hgone
      rintro (hnames | hnested)
      · exact hunused hnames
      · exact hnot ⟨⟨i, hi, howner⟩, hused, hunused, hnested⟩

/-- A class with one field of the given type, in a unit that imports the owner. -/
def ownerUnit (type : Tree.Ty) : Tree.CompilationUnit where
  package := "p"
  imports := [{ path := "lombok.Tuple" }]
  classes := [{ name := "C", members := [.field { type, name := "entry" }] }]

-- The qualified spelling needs no import, so it is no reference.
theorem removeDeadImports_load_spares_qualified :
    let u := ownerUnit (.array (.named "lombok.Tuple.Entry" []))
    let loaded := Program.load u {}
    let entered := Desugar.resolver {} loaded.1.unit loaded.2
    ∃ removed p' u', loaded.1.removeDeadImports entered.2 {} entered.1 [.simple] =
        .ok (removed, p') ∧
      p'.read entered.2 = .ok u' ∧
      ∀ i ∈ u.imports, ImportsOwner {} i → i ∉ u'.imports → ¬ RefersToOwner {} u' := by
  intro u
  have hnested : ¬ NamesNested {} u := by decide +kernel
  have h := removeDeadImports_load_spares_iff {} [.simple] u {} (by decide +kernel)
  generalize Program.load u {} = loaded at h ⊢
  obtain ⟨removed, p', u', hrun, hread, -, hspares⟩ := h
  exact ⟨removed, p', u', hrun, hread, hspares.2 fun hall => hnested hall.2.2.2⟩

/-- The import of `lombok.Tuple` is taken out of a unit that has a field of type `Tuple.Entry`. -/
theorem removeDeadImports_drops_needed :
    let u := ownerUnit (.named "Tuple.Entry" [])
    let loaded := Program.load u {}
    let entered := Desugar.resolver {} loaded.1.unit loaded.2
    ∃ removed p' u', loaded.1.removeDeadImports entered.2 {} entered.1 [.simple] =
        .ok (removed, p') ∧
      p'.read entered.2 = .ok u' ∧
      ∃ i ∈ u.imports, ImportsOwner {} i ∧ i ∉ u'.imports ∧ RefersToOwner {} u' := by
  intro u loaded entered
  obtain ⟨fp, hunit, hnodup, hr⟩ := load_entered {} u {} (by decide +kernel)
  obtain ⟨removed, p', hrun, hunit', -, -⟩ := hunit.removeDeadImports hnodup hr [.simple]
  have howner : ImportsOwner {} { path := "lombok.Tuple" } := by decide
  have hunused : ¬ NamesOwner {} u := by decide +kernel
  have hnested : NamesNested {} u := by decide +kernel
  refine ⟨removed, p', _, hrun, hunit'.read_known hnodup, { path := "lombok.Tuple" },
    List.mem_singleton_self _, howner, ?_, ?_⟩
  · exact (not_mem_left_iff howner (List.mem_singleton_self _)).2
      ⟨List.mem_singleton_self _, hunused⟩
  · rw [refersToOwner_setImports, refersToOwner_iff]
    exact .inr hnested

end TupleAssign
