import TupleAssign.Proofs.Containment
import TupleAssign.Proofs.Resolving
/-!
# Which imports go

An import goes if it is a single import that made one of the used forms available, and nothing that
the unit contains needs that form's name any more (`BareDead`, `SimpleDead`). What the unit contains
is said of its tree, whatever a walk over it comes to.

Taking these imports out changes the form of no expression in the unit, and there is nothing left to
take out then.
-/

namespace TupleAssign.DeadImports

open TupleAssign.Tree (Site)

variable (m : Marker) (u : Tree.CompilationUnit)

/-- The unit contains a receiver-less call of the marker method. -/
def CallsBare : Prop := ∃ span args, (Site.unit u).Contains (.expr (.call span none m.method args))

/-- The unit contains an identifier or a class type spelled as the simple name of the owner. -/
def NamesOwner : Prop :=
  (∃ span, (Site.unit u).Contains (.expr (.ident span m.ownerSimpleName))) ∨
    ∃ args, (Site.unit u).Contains (.type (.named m.ownerSimpleName args))

/-- A single import of the method, behind bare calls of which there are none any more. -/
def BareDead (used : List Form) (i : Tree.Import) : Prop :=
  i.onDemand = false ∧ Form.bare ∈ used ∧ i.isStatic = true ∧
    i.path = m.owner ++ "." ++ m.method ∧ ¬ CallsBare m u

/-- A single import of the owner, whose simple name is not in use any more. -/
def SimpleDead (used : List Form) (i : Tree.Import) : Prop :=
  i.onDemand = false ∧ Form.simple ∈ used ∧ i.isStatic = false ∧ i.path = m.owner ∧
    ¬ NamesOwner m u

def Dead (used : List Form) (i : Tree.Import) : Prop :=
  BareDead m u used i ∨ SimpleDead m u used i

/-! ## Use and the walk -/

theorem isBareCall_iff {s : Site} :
    isBareCall m s = true ↔ ∃ span args, s = .expr (.call span none m.method args) := by
  constructor
  · intro h
    unfold isBareCall at h
    split at h
    · next span n args =>
      obtain rfl := eq_of_beq h
      exact ⟨span, args, rfl⟩
    · cases h
  · rintro ⟨span, args, rfl⟩
    exact beq_self_eq_true _

theorem namesOwner_iff {s : Site} :
    namesOwner m s = true ↔ (∃ span, s = .expr (.ident span m.ownerSimpleName)) ∨
      ∃ args, s = .type (.named m.ownerSimpleName args) := by
  constructor
  · intro h
    unfold namesOwner at h
    split at h
    · next span n =>
      obtain rfl := eq_of_beq h
      exact .inl ⟨span, rfl⟩
    · next n args =>
      obtain rfl := eq_of_beq h
      exact .inr ⟨args, rfl⟩
    · cases h
  · rintro (⟨span, rfl⟩ | ⟨args, rfl⟩) <;> exact beq_self_eq_true _

variable {m u}

theorem isUnused_bare_iff : isUnused m u .bare = true ↔ ¬ CallsBare m u := by
  rw [isUnused, Bool.not_eq_true', ← Bool.not_eq_true, List.any_eq_true, CallsBare]
  refine not_congr ⟨?_, ?_⟩
  · rintro ⟨s, hs, hcall⟩
    obtain ⟨span, args, rfl⟩ := (isBareCall_iff m).1 hcall
    exact ⟨span, args, Tree.mem_sites_iff.1 hs⟩
  · rintro ⟨span, args, h⟩
    exact ⟨_, Tree.mem_sites_iff.2 h, (isBareCall_iff m).2 ⟨span, args, rfl⟩⟩

theorem isUnused_simple_iff : isUnused m u .simple = true ↔ ¬ NamesOwner m u := by
  rw [isUnused, Bool.not_eq_true', ← Bool.not_eq_true, List.any_eq_true, NamesOwner]
  refine not_congr ⟨?_, ?_⟩
  · rintro ⟨s, hs, hnames⟩
    rcases (namesOwner_iff m).1 hnames with ⟨span, rfl⟩ | ⟨args, rfl⟩
    · exact .inl ⟨span, Tree.mem_sites_iff.1 hs⟩
    · exact .inr ⟨args, Tree.mem_sites_iff.1 hs⟩
  · rintro (⟨span, h⟩ | ⟨args, h⟩)
    · exact ⟨_, Tree.mem_sites_iff.2 h, (namesOwner_iff m).2 (.inl ⟨span, rfl⟩)⟩
    · exact ⟨_, Tree.mem_sites_iff.2 h, (namesOwner_iff m).2 (.inr ⟨args, rfl⟩)⟩

instance : Decidable (CallsBare m u) :=
  decidable_of_iff (¬ isUnused m u .bare = true) (by rw [isUnused_bare_iff, not_not])

instance : Decidable (NamesOwner m u) :=
  decidable_of_iff (¬ isUnused m u .simple = true) (by rw [isUnused_simple_iff, not_not])

instance (used : List Form) (i : Tree.Import) : Decidable (BareDead m u used i) :=
  inferInstanceAs (Decidable (_ ∧ _))

instance (used : List Form) (i : Tree.Import) : Decidable (SimpleDead m u used i) :=
  inferInstanceAs (Decidable (_ ∧ _))

instance (used : List Form) (i : Tree.Import) : Decidable (Dead m u used i) :=
  inferInstanceAs (Decidable (_ ∨ _))

/-- What is in use depends on the classes of a unit alone. -/
theorem isUnused_imports (imports : List Tree.Import) (f : Form) :
    isUnused m { u with imports } f = isUnused m u f := by
  have hsites : ∀ q : Site → Bool, (∀ u, q (.unit u) = false) → (∀ i, q (.importDecl i) = false) →
      (Tree.sites { u with imports }).any q = (Tree.sites u).any q := by
    intro q hunit himport
    have hnone : ∀ is : List Tree.Import, (is.any fun _ => false) = false := fun is =>
      List.any_eq_false.2 fun _ _ => Bool.false_ne_true
    simp [Tree.sites, Tree.unitVisits, Site.before, List.any_flatMap, hunit, himport, hnone]
  cases f with
  | bare =>
    rw [isUnused, isUnused, hsites _ (fun _ => rfl) fun _ => rfl]
  | simple =>
    rw [isUnused, isUnused, hsites _ (fun _ => rfl) fun _ => rfl]
  | qualified => rfl

/-! ## Forms whose imports go -/

/-- The forms whose single imports are taken out. -/
def deadForms (m : Marker) (u : Tree.CompilationUnit) (used : List Form) : List Form :=
  Form.all.filter fun f => used.contains f && isUnused m u f

variable {used : List Form}

theorem nodup_deadForms : (deadForms m u used).Nodup :=
  List.Nodup.filter _ (by decide)

theorem mem_deadForms {f : Form} :
    f ∈ deadForms m u used ↔ f ∈ used ∧ isUnused m u f = true := by
  have hall : f ∈ Form.all := by cases f <;> decide
  rw [deadForms, List.mem_filter, Bool.and_eq_true, List.contains_iff_mem]
  exact and_iff_right hall

theorem deadForms_imports (imports : List Tree.Import) :
    deadForms m { u with imports } used = deadForms m u used := by
  simp only [deadForms, isUnused_imports]

theorem bareDead_iff {i : Tree.Import} :
    BareDead m u used i ↔
      Form.bare ∈ deadForms m u used ∧ servesForm m i i.path .bare = true := by
  rw [mem_deadForms, isUnused_bare_iff, servesForm, BareDead, Marker.staticImportPath]
  simp only [Bool.and_eq_true, Bool.not_eq_true', beq_iff_eq]
  tauto

theorem simpleDead_iff {i : Tree.Import} :
    SimpleDead m u used i ↔
      Form.simple ∈ deadForms m u used ∧ servesForm m i i.path .simple = true := by
  rw [mem_deadForms, isUnused_simple_iff, servesForm, SimpleDead]
  simp only [Bool.and_eq_true, Bool.not_eq_true', beq_iff_eq]
  tauto

theorem dead_iff {i : Tree.Import} :
    Dead m u used i ↔ ∃ f ∈ deadForms m u used, servesForm m i i.path f = true := by
  rw [Dead, bareDead_iff, simpleDead_iff]
  constructor
  · rintro (h | h) <;> exact ⟨_, h⟩
  · rintro ⟨f, hf, h⟩
    cases f with
    | bare => exact .inl ⟨hf, h⟩
    | simple => exact .inr ⟨hf, h⟩
    | qualified => cases h

/-- An import is the single import behind one form at most. -/
theorem servesForm_unique {i : Tree.Import} {f f' : Form} (h : servesForm m i i.path f = true)
    (h' : servesForm m i i.path f' = true) : f = f' := by
  cases f <;> cases f' <;> simp_all [servesForm]

/-- The imports taken out, form by form. -/
theorem removeServing_removed {forms : List Form} (hforms : forms.Nodup)
    (imports : List Tree.Import) :
    (Rewrite.removeServing m forms imports).1 =
      forms.flatMap fun f => imports.filter fun i => servesForm m i i.path f := by
  induction forms generalizing imports with
  | nil => rfl
  | cons f forms ih =>
    obtain ⟨hf, hforms⟩ := List.nodup_cons.1 hforms
    rw [Rewrite.removeServing, List.flatMap_cons]
    dsimp only
    rw [ih hforms]
    congr 1
    refine List.flatMap_congr fun f' hf' => ?_
    rw [List.filter_filter]
    refine List.filter_congr fun i _ => ?_
    -- What serves a later form does not serve this one.
    cases h : servesForm m i i.path f' with
    | false => rfl
    | true =>
      have hnot : servesForm m i i.path f ≠ true := fun h' => hf (servesForm_unique h' h ▸ hf')
      simp [hnot]

theorem flatMap_filter_serves (q : Form → Bool) (serves : Form → Tree.Import → Bool)
    (forms : List Form) (imports : List Tree.Import) :
    ((forms.filter q).flatMap fun f => imports.filter (serves f)) =
      forms.flatMap fun f => imports.filter fun i => q f && serves f i := by
  induction forms with
  | nil => rfl
  | cons f forms ih => cases h : q f <;> simp [h, ih]

/-- What is taken out and what is left, in terms of the unit. -/
theorem removeServing_deadForms (imports : List Tree.Import) :
    Rewrite.removeServing m (deadForms m u used) imports =
      (imports.filter (fun i => BareDead m u used i) ++
        imports.filter (fun i => SimpleDead m u used i),
      imports.filter fun i => ¬ Dead m u used i) := by
  refine Prod.ext ?_ ?_
  · have hserves : ∀ f i, (used.contains f && isUnused m u f && servesForm m i i.path f) =
        decide (f ∈ deadForms m u used ∧ servesForm m i i.path f = true) := by
      intro f i
      rw [Bool.eq_iff_iff, decide_eq_true_eq, mem_deadForms]
      simp only [Bool.and_eq_true, List.contains_iff_mem]
    rw [removeServing_removed nodup_deadForms, deadForms, flatMap_filter_serves]
    simp only [hserves, bareDead_iff, simpleDead_iff]
    -- Nothing serves the qualified form.
    simp [Form.all, servesForm]
  · rw [Rewrite.removeServing_left]
    refine List.filter_congr fun i _ => ?_
    rw [Bool.eq_iff_iff, List.all_eq_true, decide_eq_true_eq, dead_iff]
    simp

end TupleAssign.DeadImports

namespace TupleAssign

open DeadImports Store

/-- If nothing is taken out, the imports are as they were. -/
theorem removeServing_of_removed_eq_nil {m : Marker} {names : Interner} {forms : List Form}
    {imports : List Node.Import} (h : (DeadImports.removeServing m names forms imports).1 = []) :
    (DeadImports.removeServing m names forms imports).2 = imports := by
  induction forms generalizing imports with
  | nil => rfl
  | cons f forms ih =>
    rw [DeadImports.removeServing] at h ⊢
    obtain ⟨hserves, hrest⟩ := List.append_eq_nil_iff.1 h
    have hall : (imports.filter fun i => !servesForm m i (names.lookup i.path) f) = imports := by
      refine List.filter_eq_self.2 fun i hi => ?_
      have hi := List.filter_eq_nil_iff.1 hserves i hi
      simpa using hi
    dsimp only at hrest ⊢
    rw [ih hrest, hall]

/-- Over a stored unit the dead imports are taken out, and what is left is stored. -/
theorem UnitAt.removeDeadImports {p : Program} {names : Interner} {u : Tree.CompilationUnit}
    {fp : List NodeRef} (h : UnitAt p names.Knows u fp) (hnodup : fp.Nodup) {m : Marker}
    {r : Resolver Name} {imports : List Tree.Import}
    (hr : ∀ f, names.SpelledAs f → r.map f = .ofImports m imports) (used : List Form) :
    ∃ removed p', p.removeDeadImports names m r used = .ok (removed, p') ∧
      UnitAt p' names.Knows
        { u with imports := u.imports.filter (fun i => ¬ Dead m u used i) } fp ∧
      removed.map names.lookup =
        (u.imports.filter (fun i => BareDead m u used i) ++
          u.imports.filter fun i => SimpleDead m u used i).map (·.path) ∧
      (removed = [] → p' = p) := by
  obtain ⟨f, -, hinj, -, hf, -⟩ := names.exists_spelledAs
  obtain ⟨us, hus, hspares⟩ := (h.imp hf).usage hinj (hr f hf) hnodup
  obtain ⟨hpackage, hspan, himports, hclasses⟩ := h
  obtain ⟨hremoved, hleft⟩ := removeServing_eq m (deadForms m u used) himports
  rw [removeServing_deadForms] at hremoved hleft
  refine ⟨_, _, removeDeadImports_eq hus hspares used, ⟨hpackage, hspan, hleft, hclasses⟩,
    map_paths names.spelledAs_lookup hremoved, fun hnil => ?_⟩
  rw [removeServing_of_removed_eq_nil (List.map_eq_nil_iff.1 hnil)]

/-- In the table with the names that are looked for, a loaded unit can have its imports removed. -/
theorem load_entered (m : Marker) (u : Tree.CompilationUnit) (names : Interner)
    (hfits : (Program.load u names).1.store.arms.size ≤ absentRaw) :
    let loaded := Program.load u names
    let entered := Desugar.resolver m loaded.1.unit loaded.2
    ∃ fp, UnitAt loaded.1 entered.2.Knows u fp ∧ fp.Nodup ∧
      ∀ f, entered.2.SpelledAs f → entered.1.map f = .ofImports m u.imports := by
  intro loaded entered
  obtain ⟨fp, hunit, hnodup⟩ := Program.load_unitAt u names hfits
  exact ⟨fp, hunit.imp (keeps_resolver m loaded.1.unit loaded.2), hnodup,
    fun f hf => map_resolver hunit m hf⟩

/-- Exactly the dead imports of a loaded unit go, those behind bare calls first. The imports that
stay keep their order, no expression in the unit changes its form, and doing it again removes
nothing. -/
theorem removeDeadImports_load (m : Marker) (used : List Form) (u : Tree.CompilationUnit)
    (names : Interner) (hfits : (Program.load u names).1.store.arms.size ≤ absentRaw) :
    let left := u.imports.filter fun i => ¬ Dead m u used i
    let loaded := Program.load u names
    let entered := Desugar.resolver m loaded.1.unit loaded.2
    ∃ removed p', loaded.1.removeDeadImports entered.2 m entered.1 used = .ok (removed, p') ∧
      p'.read entered.2 = .ok { u with imports := left } ∧
      removed.map entered.2.lookup =
        (u.imports.filter (fun i => BareDead m u used i) ++
          u.imports.filter fun i => SimpleDead m u used i).map (·.path) ∧
      (∀ e, (Tree.Site.unit u).Contains (.expr e) →
        (Resolver.ofImports m left).classify e = (Resolver.ofImports m u.imports).classify e) ∧
      p'.removeDeadImports entered.2 m entered.1 used = .ok ([], p') := by
  intro left loaded entered
  obtain ⟨fp, hunit, hnodup, hr⟩ := load_entered m u names hfits
  obtain ⟨removed, p', hrun, hunit', hpaths, -⟩ := hunit.removeDeadImports hnodup hr used
  refine ⟨removed, p', hrun, hunit'.read_known hnodup, hpaths, fun e he => ?_, ?_⟩
  · have hunused : ∀ f ∈ deadForms m u used, isUnused m u f = true :=
      fun f hf => (mem_deadForms.1 hf).2
    have halike := Rewrite.alike_removeServing m hunused u.imports
    rw [removeServing_deadForms] at halike
    exact (halike.mono he.visits_subset).classify_eq.symm
  · obtain ⟨removed', p'', hrun', -, hpaths', hsame⟩ := hunit'.removeDeadImports hnodup hr used
    have hnone : ∀ i ∈ left, ¬ Dead m { u with imports := left } used i := by
      intro i hi
      rw [dead_iff, deadForms_imports, ← dead_iff]
      exact of_decide_eq_true (List.mem_filter.1 hi).2
    have hremoved : removed' = [] := by
      rw [← List.map_eq_nil_iff (f := entered.2.lookup), hpaths', List.map_eq_nil_iff,
        List.append_eq_nil_iff, List.filter_eq_nil_iff, List.filter_eq_nil_iff]
      simp only [decide_eq_true_eq]
      exact ⟨fun i hi h => hnone i hi (.inl h), fun i hi h => hnone i hi (.inr h)⟩
    rw [hrun', hremoved, hsame hremoved]

/-- A class without marker calls that still has an array of tuples. -/
def staleUnit : Tree.CompilationUnit where
  package := "p"
  imports := [
    { path := "lombok.Tuple" },
    { path := "lombok.Tuple.tuple", isStatic := true },
    { path := "lombok.Tuple", isStatic := true, onDemand := true }]
  classes := [{
    name := "C"
    members := [.field { type := .array (.named "Tuple" []), name := "tuple" }] }]

-- The class is named inside a type, so its import is needed; that of the method is not.
theorem removeDeadImports_load_staleUnit :
    let loaded := Program.load staleUnit {}
    let entered := Desugar.resolver {} loaded.1.unit loaded.2
    ∃ removed p', loaded.1.removeDeadImports entered.2 {} entered.1 [.bare, .simple] =
        .ok (removed, p') ∧
      p'.read entered.2 = .ok { staleUnit with imports := [
        { path := "lombok.Tuple" },
        { path := "lombok.Tuple", isStatic := true, onDemand := true }] } ∧
      removed.map entered.2.lookup = ["lombok.Tuple.tuple"] ∧
      p'.removeDeadImports entered.2 {} entered.1 [.bare, .simple] = .ok ([], p') := by
  have hleft : (staleUnit.imports.filter fun i => ¬ Dead {} staleUnit [.bare, .simple] i) = [
      { path := "lombok.Tuple" },
      { path := "lombok.Tuple", isStatic := true, onDemand := true }] := by
    decide +kernel
  have hgone : (staleUnit.imports.filter (fun i => BareDead {} staleUnit [.bare, .simple] i) ++
      staleUnit.imports.filter fun i => SimpleDead {} staleUnit [.bare, .simple] i).map (·.path) =
        ["lombok.Tuple.tuple"] := by
    decide +kernel
  have h := removeDeadImports_load {} [.bare, .simple] staleUnit {} (by decide +kernel)
  rw [hleft, hgone] at h
  -- From here on it does not matter how the unit is stored.
  generalize Program.load staleUnit {} = loaded at h ⊢
  obtain ⟨removed, p', hrun, hread, hpaths, -, hagain⟩ := h
  exact ⟨removed, p', hrun, hread, hpaths, hagain⟩

end TupleAssign
