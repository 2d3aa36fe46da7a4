import TupleAssign.Proofs.Items
import TupleAssign.Proofs.Loading
import TupleAssign.Proofs.StoredSites
import TupleAssign.Proofs.Verbatim
/-!
# The pass refines the rewrite

A run of the pass over a stored unit leaves a program in which the rewritten unit is stored, again
in distinct nodes (`desugar_eq`). The walk over the store does to the tree of names that the unit is
what the rewrite does to it (`walk_eq`), and what the rewrite does to names it does to strings
(`walk_matches`). So reading the unit back after a run over a loaded tree gives what the rewrite
makes of the tree, and the outcome is the same (`desugar_load_refines`).
-/

namespace TupleAssign

open Store Desugar

/-! ## The walk -/

/-- Rewrites the classes of a unit of names. -/
def Desugar.namedClasses (config : DesugarConfig) (r : Resolver Name) (names : Interner)
    (v : Tree.CompilationUnit Name) : List (Tree.Class Name) × Progress :=
  (v.classes.mapM (Rewrite.cls r)).run
    { temps := ⟨{ stem := config.stem, reserved := Tree.identifiers v }, names⟩ }

/-- The walk leaves a program that holds the rewritten classes. -/
theorem walk_eq {p : Program} {v : Tree.CompilationUnit Name} {fp : List NodeRef}
    (config : DesugarConfig) (names : Interner) (h : UnitAt p Verbatim v fp) (hnodup : fp.Nodup) :
    let entered := resolver config.marker p.unit names
    let res := namedClasses config entered.1 entered.2 v
    ∃ s fp', walk config p names = .ok s ∧ Agrees s res.2 ∧ entered.2.Keeps s.names ∧
      UnitAt s.program Verbatim { v with classes := res.1 } fp' ∧ fp'.Nodup := by
  intro entered res
  obtain ⟨reserved, hreserved, hall⟩ := h.identifiers hnodup
  obtain rfl : reserved = Tree.identifiers v := List.forall₂_eq_eq_eq ▸ hall
  obtain ⟨hpackage, hspan, himports, hclasses⟩ := h
  let s₀ := start config p names (Tree.identifiers v)
  -- Nothing has been declared, tried or counted yet.
  have hstart : Agrees s₀ { temps := ⟨s₀.temps, s₀.names⟩ } :=
    ⟨rfl, .nil, rfl, rfl, rfl, rfl, fun k hk => absurd hk (Nat.not_lt_zero k), Nat.le_refl 0⟩
  obtain ⟨s, classes, fp', hrun, hagrees, hmoves, hunit, hclasses', hrenewed⟩ :=
    (class_follows (r := entered.1) p.unit).list (fun hg h => h.grow hg fun _ _ hn => hn)
      ClassAt.old v.classes p.unit.classes [] fp s₀ _ rfl rfl hstart hclasses hnodup
  refine ⟨s, fp', ?_, hagrees, hmoves.names, ?_, hrenewed.nodup⟩
  · simp only [walk, hreserved, bind, Except.bind]
    have hrun' : (Walk.unit entered.1 p.unit).run s₀ = .ok ((), s) := hrun
    rw [hrun']
    rfl
  · rw [UnitAt, hunit]
    exact ⟨hpackage, hspan, himports, hclasses'⟩

/-! ## The names that are looked for -/

theorem snd_resolver (m : Marker) (u : Node.CompilationUnit) (names : Interner) :
    (resolver m u names).2 = names.internAll m.names :=
  Resolver.snd_enter _ names

theorem keeps_resolver (m : Marker) (u : Node.CompilationUnit) (names : Interner) :
    names.Keeps (resolver m u names).2 :=
  snd_resolver m u names ▸ names.keeps_internAll m.names

theorem Along.map_eq {α β : Type} {R : α → β → List NodeRef → Prop} {g : β → α} {as : List α}
    {bs : List β} {fp : List NodeRef} (h : Along R as bs fp) (hg : ∀ a b f, R a b f → g b = a) :
    bs.map g = as := by
  induction h with
  | nil => rfl
  | cons head _ ih => rw [List.map_cons, hg _ _ _ head, ih]

/-- The imports of a unit, read in the table. -/
theorem map_imports {names : Interner} {is : List Tree.Import} {is' : List Node.Import}
    {fp : List NodeRef} {f : Name → String} (hf : names.SpelledAs f)
    (h : Along (ImportAt names.Knows) is is' fp) : is'.map (Import.map f) = is := by
  refine h.map_eq fun i i' _ hi => ?_
  obtain ⟨hpath, hstatic, honDemand, hspan, -⟩ := hi
  simp only [Import.map, hf _ _ hpath, hstatic, honDemand, hspan]

theorem map_paths {names : Interner} {is : List Tree.Import} {is' : List Node.Import}
    {fp : List NodeRef} {f : Name → String} (hf : names.SpelledAs f)
    (h : Along (ImportAt names.Knows) is is' fp) :
    (is'.map (·.path)).map f = is.map (·.path) := by
  rw [← map_imports hf h, List.map_map, List.map_map]
  rfl

theorem map_resolver {p : Program} {names : Interner} {u : Tree.CompilationUnit} {fp : List NodeRef}
    (h : UnitAt p names.Knows u fp) (m : Marker) {f : Name → String}
    (hf : (resolver m p.unit names).2.SpelledAs f) :
    (resolver m p.unit names).1.map f = .ofImports m u.imports := by
  rw [← map_imports (fun _ _ hn => hn.reads) h.2.2.1]
  exact Resolver.map_enter _ hf

/-! ## Names and strings -/

/-- What the rewrite makes of the names of a unit is, spelled out, what it makes of the unit. -/
theorem namedClasses_respell {p : Program} {names : Interner} {u : Tree.CompilationUnit}
    {v : Tree.CompilationUnit Name} {fp fv : List NodeRef} (config : DesugarConfig)
    (h : UnitAt p names.Knows u fp) (hnodup : fp.Nodup) (hv : UnitAt p Verbatim v fv)
    (hnodup' : fv.Nodup) {f : Name → String} (hf : Function.Injective f)
    (hvu : Tree.mapUnit f v = u) :
    let entered := resolver config.marker p.unit names
    let res := namedClasses config entered.1 entered.2 v
    entered.2.Keeps res.2.temps.names ∧
      (res.2.temps.names.SpelledAs f →
        (Rewrite.classes config u).1 = res.1.map (Tree.mapClass f) ∧
          Rewrite.Respelled f res.2 (Rewrite.classes config u).2) := by
  intro entered res
  obtain ⟨ns, hns, hall⟩ := h.identifiers hnodup
  obtain ⟨ns', hns', hall'⟩ := hv.identifiers hnodup'
  obtain rfl : ns' = Tree.identifiers v := List.forall₂_eq_eq_eq ▸ hall'
  obtain rfl := Except.ok.inj (hns.symm.trans hns')
  have hkeeps := keeps_resolver config.marker p.unit names
  obtain ⟨hkeeps', hpass⟩ := Rewrite.Respells.mapM (Rewrite.cls_respells hf entered.1) v.classes
    { temps := ⟨{ stem := config.stem, reserved := Tree.identifiers v }, entered.2⟩ }
  refine ⟨hkeeps', fun hspelled => ?_⟩
  have hstart := hpass (Rewrite.start config u)
    ⟨⟨rfl, rfl, rfl, hall.imp hkeeps⟩, rfl, rfl, rfl, rfl, rfl⟩ hspelled
  have hclasses : v.classes.map (Tree.mapClass f) = u.classes :=
    congrArg CompilationUnit.classes hvu
  rw [map_resolver h config.marker (hspelled.of_keeps hkeeps'), hclasses] at hstart
  exact hstart

/-- What two maps that only agree on a table spell alike, any map that agrees with the table spells
so. -/
theorem map_problems {names : Interner} {f f₁ f₂ : Name → String} (hf : names.SpelledAs f)
    (hknows : ∀ n, f₁ n = f₂ n → names.Knows n (f₁ n)) {ps : List (Problem Name)}
    (h : ps.map (Problem.map f₁) = ps.map (Problem.map f₂)) :
    ps.map (Problem.map f) = ps.map (Problem.map f₁) := by
  refine List.map_congr_left fun p hp => ?_
  have hp := List.map_inj_left.1 h p hp
  obtain ⟨cause, span⟩ := p
  cases cause with
  | unresolvedTarget n =>
    have hn : f₁ n = f₂ n := by simpa [Problem.map, Cause.map] using hp
    simp only [Problem.map, Cause.map, hf _ _ (hknows n hn)]
  | _ => rfl

/-- The walk has come as far as the rewrite of the strings: however names outside the table are
spelled, its problems are those of the rewrite. -/
structure Desugar.Matches (s : State) (g : Rewrite.Progress) : Prop where
  temps : s.temps.SpelledBy s.names g.temps
  tried : s.temps.Tried s.names
  used : s.used = g.used
  problems : ∀ f, s.names.SpelledAs f → s.problems.map (Problem.map f) = g.problems
  transformed : s.transformed = g.transformed
  skipped : s.skipped = g.skipped

/-- The walk over a stored unit does to its strings what the rewrite does. -/
theorem walk_matches {p : Program} {names : Interner} {u : Tree.CompilationUnit} {fp : List NodeRef}
    (config : DesugarConfig) (h : UnitAt p names.Knows u fp) (hnodup : fp.Nodup) :
    ∃ s fp', walk config p names = .ok s ∧ Matches s (Rewrite.classes config u).2 ∧
      (resolver config.marker p.unit names).2.Keeps s.names ∧
      UnitAt s.program s.names.Knows { u with classes := (Rewrite.classes config u).1 } fp' ∧
      fp'.Nodup := by
  obtain ⟨v, fv, hv, hnodupv, hmap⟩ := h.exists_verbatim hnodup
  obtain ⟨s, fp', hwalk, hagrees, hkeeps, hunit, hnodup'⟩ := walk_eq config names hv hnodupv
  let entered := resolver config.marker p.unit names
  let res := namedClasses config entered.1 entered.2 v
  have htemps : res.2.temps = ⟨s.temps, s.names⟩ := hagrees.temps
  have hbefore := (keeps_resolver config.marker p.unit names).trans hkeeps
  -- A map that agrees with the last table spells the names as the rewrite of the strings has them.
  have hspells : ∀ f, Function.Injective f → s.names.SpelledAs f →
      (Rewrite.classes config u).1 = res.1.map (Tree.mapClass f) ∧
        Rewrite.Respelled f res.2 (Rewrite.classes config u).2 :=
    fun f hinj hf => (namedClasses_respell config h hnodup hv hnodupv hinj
      (hmap f (hf.of_keeps hbefore))).2 (htemps ▸ hf)
  obtain ⟨f₁, f₂, hinj₁, hinj₂, hf₁, hf₂, hknows⟩ := s.names.exists_spelledAs
  obtain ⟨hclasses₁, hspelled₁⟩ := hspells f₁ hinj₁ hf₁
  obtain ⟨hclasses₂, hspelled₂⟩ := hspells f₂ hinj₂ hf₂
  have hunit₁ : Tree.mapUnit f₁ { v with classes := res.1 } =
      { u with classes := (Rewrite.classes config u).1 } := by
    rw [hclasses₁, ← hmap f₁ (hf₁.of_keeps hbefore)]
    rfl
  have hunit₂ : Tree.mapUnit f₂ { v with classes := res.1 } =
      { u with classes := (Rewrite.classes config u).1 } := by
    rw [hclasses₂, ← hmap f₂ (hf₂.of_keeps hbefore)]
    rfl
  have hstored := hunit.respell hknows (hunit₁.trans hunit₂.symm)
  rw [hunit₁] at hstored
  have hproblems : s.problems.map (Problem.map f₁) = (Rewrite.classes config u).2.problems :=
    (congrArg _ hagrees.problems).trans hspelled₁.problems.symm
  have hproblems₂ : s.problems.map (Problem.map f₂) = (Rewrite.classes config u).2.problems :=
    (congrArg _ hagrees.problems).trans hspelled₂.problems.symm
  refine ⟨s, fp', hwalk, ?_, hkeeps, hstored, hnodup'⟩
  exact {
    temps := by
      have hspelled := hspelled₁.temps
      rwa [htemps] at hspelled
    tried := hagrees.tried
    used := hagrees.used.trans hspelled₁.used.symm
    problems := fun f hf =>
      (map_problems hf hknows (hproblems.trans hproblems₂.symm)).trans hproblems
    transformed := hagrees.transformed.trans hspelled₁.transformed.symm
    skipped := hagrees.skipped.trans hspelled₁.skipped.symm }

/-! ## Imports -/

section Usage

open DeadImports

variable {st : Store} {f : Name → String} (hf : Function.Injective f) {r : Resolver Name}
  {m : Marker} {imports : List Tree.Import} (hr : r.map f = .ofImports m imports)

include hf hr

theorem SiteAt.callsBare_eq {s : Tree.Site} {n : Node.Site} {fp : List NodeRef}
    (h : SiteAt st (Spells f) s n fp) : callsBare r.method n = isBareCall m s := by
  have hmethod : f r.method = m.method := congrArg Resolver.method hr
  cases h with
  | expr hnode h =>
    obtain ⟨node, _, _, _, hnode', head, -⟩ := exprAt_iff.1 h
    obtain rfl := Option.some.inj (hnode.symm.trans hnode')
    cases head with
    | @call n _ receiver receiver' span slice args hreceiver hn =>
      cases hn
      cases receiver <;> cases receiver' <;> simp at hreceiver
      · rw [callsBare, isBareCall, ← hmethod, beq_map hf]
      · rfl
    | _ => rfl
  | _ => rfl

theorem SiteAt.mentions_eq {s : Tree.Site} {n : Node.Site} {fp : List NodeRef}
    (h : SiteAt st (Spells f) s n fp) : mentions r.ownerSimple n = namesOwner m s := by
  have howner : f r.ownerSimple = m.ownerSimpleName := congrArg Resolver.ownerSimple hr
  cases h with
  | expr hnode h =>
    obtain ⟨node, _, _, _, hnode', head, -⟩ := exprAt_iff.1 h
    obtain rfl := Option.some.inj (hnode.symm.trans hnode')
    cases head with
    | ident span hn =>
      cases hn
      rw [mentions, namesOwner, ← howner, beq_map hf]
    | _ => rfl
  | type hnode h =>
    obtain ⟨node, _, _, hnode', head, -⟩ := tyAt_iff.1 h
    obtain rfl := Option.some.inj (hnode.symm.trans hnode')
    cases head with
    | named slice args hn =>
      cases hn
      rw [mentions, namesOwner, ← howner, beq_map hf]
    | _ => rfl
  | _ => rfl

omit hf hr in
theorem countP_beq_zero {α β : Type} {R : α → β → Prop} {q : α → Bool} {q' : β → Bool} {as : List α}
    {bs : List β} (h : List.Forall₂ R as bs) (hq : ∀ a b, R a b → q' b = q a) :
    (bs.countP q' == 0) = !as.any q := by
  induction h with
  | nil => rfl
  | @cons a b as bs hab _ ih =>
    rw [List.countP_cons, List.any_cons, hq a b hab]
    cases q a
    · simpa using ih
    · simp

/-- The uses counted in a program are those in its tree. -/
theorem UnitAt.usage {p : Program} {u : Tree.CompilationUnit} {fp : List NodeRef}
    (h : UnitAt p (Spells f) u fp) (hnodup : fp.Nodup) :
    ∃ us, p.usage r = .ok us ∧ ∀ form, us.spares form = isUnused m u form := by
  have hcomes : Comes p.store (Spells f) (Tree.sites u) p.sites fp :=
    h.visits hnodup fun _ _ _ _ _ => rfl
  obtain ⟨ns, hns, hall, -⟩ := hcomes
  refine ⟨⟨_, _⟩, by simp only [Program.usage, hns]; rfl, fun form => ?_⟩
  cases form with
  | bare =>
    refine countP_beq_zero hall fun s n hs => ?_
    obtain ⟨_, -, hs⟩ := hs
    exact hs.callsBare_eq hf hr
  | simple =>
    refine countP_beq_zero hall fun s n hs => ?_
    obtain ⟨_, -, hs⟩ := hs
    exact hs.mentions_eq hf hr
  | qualified => rfl

end Usage

section Imports

variable {names : Interner} {is : List Tree.Import} {is' : List Node.Import}

theorem along_filter {q : Tree.Import → Bool} {q' : Node.Import → Bool}
    (hq : ∀ i i', ImportAt names.Knows i i' [] → q i = q' i')
    (h : Along (ImportAt names.Knows) is is' []) :
    Along (ImportAt names.Knows) (is.filter q) (is'.filter q') [] := by
  induction is generalizing is' with
  | nil =>
    obtain ⟨rfl, -⟩ := Along.nil_iff.1 h
    exact .nil
  | cons i is ih =>
    obtain ⟨i', is', f, fs, rfl, hnil, head, tail⟩ := Along.cons_iff.1 h
    obtain ⟨rfl, rfl⟩ := List.append_eq_nil_iff.1 hnil.symm
    rw [List.filter_cons, List.filter_cons, hq i i' head]
    split
    · exact .cons (f := []) head (ih tail)
    · exact ih tail

/-- The same imports are taken out. -/
theorem removeServing_eq (m : Marker) (forms : List Form)
    (h : Along (ImportAt names.Knows) is is' []) :
    Along (ImportAt names.Knows) (Rewrite.removeServing m forms is).1
        (DeadImports.removeServing m names forms is').1 [] ∧
      Along (ImportAt names.Knows) (Rewrite.removeServing m forms is).2
        (DeadImports.removeServing m names forms is').2 [] := by
  induction forms generalizing is is' with
  | nil => exact ⟨.nil, h⟩
  | cons form forms ih =>
    have hserves : ∀ i i', ImportAt names.Knows i i' [] → DeadImports.servesForm m i i.path form =
        DeadImports.servesForm m i' (names.lookup i'.path) form := by
      intro i i' hi
      obtain ⟨hpath, hstatic, honDemand, -, -⟩ := hi
      rw [hpath.reads]
      cases form <;> simp only [DeadImports.servesForm, hstatic, honDemand]
    -- What serves this form is taken out; the other forms take theirs from what is left.
    have hleft := ih (along_filter (q := fun i => !DeadImports.servesForm m i i.path form)
      (fun i i' hi => congrArg (!·) (hserves i i' hi)) h)
    exact ⟨(along_filter hserves h).append hleft.1, hleft.2⟩

/-- The imports left out are those of the forms that were used and are not needed any more, also if
none was used. -/
theorem removeDeadImports_eq {p : Program} {r : Resolver Name} {u : Tree.CompilationUnit}
    {us : DeadImports.Usage} {m : Marker} (hus : p.usage r = .ok us)
    (hspares : ∀ form, us.spares form = DeadImports.isUnused m u form) (used : List Form) :
    let dead := Form.all.filter fun f => used.contains f && DeadImports.isUnused m u f
    let split := DeadImports.removeServing m names dead p.unit.imports
    p.removeDeadImports names m r used =
      .ok (split.1.map (·.path), { p with unit := { p.unit with imports := split.2 } }) := by
  cases used with
  | nil => simp [Program.removeDeadImports, DeadImports.removeServing, pure, Except.pure]
  | cons f fs =>
    simp only [Program.removeDeadImports, hus, hspares, bind, Except.bind]
    rfl

end Imports

/-! ## Outcomes -/

section Outcomes

variable {ν μ : Type} (f : ν → μ)

def Outcome.map (o : Outcome ν) : Outcome μ where
  transformed := o.transformed
  temporaries := o.temporaries
  skipped := o.skipped
  markers := o.markers
  removedImports := o.removedImports.map f
  problems := o.problems.map (Problem.map f)

end Outcomes

/-- However names outside the table are spelled, the first outcome is spelled as the second. -/
def Outcome.SpelledBy (o : Outcome) (names : Interner) (o' : Outcome String) : Prop :=
  ∀ f, names.SpelledAs f → o.map f = o'

theorem Interner.spelledAs_lookup (names : Interner) : names.SpelledAs names.lookup :=
  fun _ _ hn => hn.reads

/-- A unit whose names are in the table is read back as it is. -/
theorem UnitAt.read_known {p : Program} {names : Interner} {u : Tree.CompilationUnit}
    {fp : List NodeRef} (h : UnitAt p names.Knows u fp) (hnodup : fp.Nodup) :
    p.read names = .ok u :=
  UnitAt.read_eq (h.imp names.spelledAs_lookup) hnodup

/-! ## The run -/

/-- A run over a stored unit does what the rewrite does, and stores the result. -/
theorem desugar_eq {p : Program} {names : Interner} {u : Tree.CompilationUnit} {fp : List NodeRef}
    (config : DesugarConfig) (h : UnitAt p names.Knows u fp) (hnodup : fp.Nodup) :
    ∃ o p' names' fp', desugar config p names = .ok (o, p', names') ∧ names.Keeps names' ∧
      o.SpelledBy names' (Rewrite.run config u).1 ∧
      UnitAt p' names'.Knows (Rewrite.run config u).2 fp' ∧ fp'.Nodup := by
  obtain ⟨s, fp', hwalk, hmatches, hkeeps, hunit, hnodup'⟩ := walk_matches config h hnodup
  -- The uses are counted by name, so they are those of the strings.
  obtain ⟨f, -, hinj, -, hf, -⟩ := s.names.exists_spelledAs
  obtain ⟨us, hus, hspares⟩ := (hunit.imp hf).usage hinj
    (map_resolver h config.marker (hf.of_keeps hkeeps)) hnodup'
  obtain ⟨hpackage, hspan, himports, hclasses⟩ := hunit
  let dead := Form.all.filter fun f => (Rewrite.classes config u).2.used.contains f &&
    DeadImports.isUnused config.marker { u with classes := (Rewrite.classes config u).1 } f
  obtain ⟨hremoved, hleft⟩ := removeServing_eq config.marker dead himports
  let split := DeadImports.removeServing config.marker s.names dead s.program.unit.imports
  refine ⟨{
      transformed := (Rewrite.run config u).1.transformed
      temporaries := (Rewrite.run config u).1.temporaries
      skipped := (Rewrite.run config u).1.skipped
      markers := (Rewrite.run config u).1.markers
      removedImports := split.1.map (·.path)
      problems := s.problems },
    { s.program with unit := { s.program.unit with imports := split.2 } }, s.names, fp', ?_,
    (keeps_resolver config.marker p.unit names).trans hkeeps, fun f hf => ?_,
    ⟨hpackage, hspan, hleft, hclasses⟩, hnodup'⟩
  · simp only [desugar, hwalk, removeDeadImports_eq hus hspares, bind, Except.bind, pure,
      Except.pure, hmatches.used, hmatches.temps.allocated, hmatches.transformed, hmatches.skipped]
    rfl
  · simp only [Outcome.map, hmatches.problems f hf, split, map_paths hf hremoved]
    rfl

/-- Whatever a run over a stored unit returns, the outcome is that of the rewrite. -/
theorem outcome_of_desugar {p p' : Program} {names names' : Interner} {u : Tree.CompilationUnit}
    {fp : List NodeRef} {config : DesugarConfig} {o : Outcome} (h : UnitAt p names.Knows u fp)
    (hnodup : fp.Nodup) (hrun : desugar config p names = .ok (o, p', names')) :
    o.map names'.lookup = (Rewrite.run config u).1 := by
  obtain ⟨_, _, _, _, hrun', -, ho, -⟩ := desugar_eq config h hnodup
  cases hrun.symm.trans hrun'
  exact ho _ names'.spelledAs_lookup

/-- Reading a loaded unit back after a run gives the rewritten tree, and the outcome of the run,
spelled by the table that it leaves, is that of the rewrite. Ids have 32 bits, so the arms of a unit
have to fit. -/
theorem desugar_load_refines (config : DesugarConfig) (u : Tree.CompilationUnit) (names : Interner)
    (hfits : (Program.load u names).1.store.arms.size ≤ absentRaw) :
    ∃ o p' names', desugar config (Program.load u names).1 (Program.load u names).2 =
        .ok (o, p', names') ∧
      o.map names'.lookup = (Rewrite.run config u).1 ∧
      p'.read names' = .ok (Rewrite.run config u).2 := by
  obtain ⟨fp, hunit, hnodup⟩ := Program.load_unitAt u names hfits
  obtain ⟨o, p', names', fp', hrun, -, ho, hunit', hnodup'⟩ := desugar_eq config hunit hnodup
  exact ⟨o, p', names', hrun, ho _ names'.spelledAs_lookup, hunit'.read_known hnodup'⟩

/-- `swapUnit` with its method rewritten: the second value goes through a temporary. -/
def Rewrite.swappedUnit : Tree.CompilationUnit where
  package := "p"
  classes := [{
    name := "C"
    members := [.method {
      name := "swap"
      params := [
        { type := .primitive .int, name := "a", span := ⟨1, 2⟩ },
        { type := .primitive .int, name := "b", span := ⟨3, 4⟩ }]
      body := some {
        stmts := [
          .localVar ⟨5, 9⟩ (.primitive .int) "$tuple0" (some (.ident ⟨7, 8⟩ "a")) true,
          .expr ⟨5, 9⟩ (.assign ⟨5, 9⟩ (.ident ⟨5, 9⟩ "a") (.ident ⟨7, 7⟩ "b")),
          .expr ⟨5, 9⟩ (.assign ⟨5, 9⟩ (.ident ⟨5, 9⟩ "b") (.ident ⟨5, 9⟩ "$tuple0"))] } }] }]

-- The import is gone as well, since no bare call is left.
theorem desugar_load_refines_swapUnit :
    ∃ o p' names', desugar {} (Program.load Rewrite.swapUnit {}).1
        (Program.load Rewrite.swapUnit {}).2 = .ok (o, p', names') ∧
      o.map names'.lookup = {
        transformed := 1, temporaries := 1, skipped := 0, markers := ["tuple"]
        removedImports := ["lombok.Tuple.tuple"], problems := [] } ∧
      p'.read names' = .ok Rewrite.swappedUnit := by
  obtain ⟨o, p', names', hrun, ho, hread⟩ :=
    desugar_load_refines {} Rewrite.swapUnit {} (by decide +kernel)
  have hswapped : (Rewrite.run {} Rewrite.swapUnit).2 = Rewrite.swappedUnit := by rfl
  exact ⟨o, p', names', hrun, ho.trans (by decide +kernel), hswapped ▸ hread⟩

end TupleAssign
