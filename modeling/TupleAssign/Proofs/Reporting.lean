import TupleAssign.Proofs.Occurrences
/-!
# The names in an outcome

An outcome names targets and imports. All of them are names of the unit (`classes_named`,
`removeServing_subset`), none is one that the run has entered. So a run gives the same outcome, down
to the numbers of the names, in every table that the unit has been entered in (`desugar_outcome`).
-/

namespace TupleAssign

open TupleAssign.Tree (Ty Expr Site)

/-! ## Targets -/

namespace Rewrite

variable {r : Resolver} {u : Tree.CompilationUnit} {a : Unpacking}

/-- An unpacking of a unit is an expression in it. -/
theorem exists_of_mem_unitUnpackings (h : a ∈ unitUnpackings r u) :
    ∃ e, (Site.unit u).Contains (.expr e) ∧ r.unpacking? e = some a := by
  rw [unitUnpackings_eq] at h
  obtain ⟨s, hs, ha⟩ := List.mem_filterMap.1 h
  cases s with
  | expr e => exact ⟨e, Site.contains_of_mem_visits (s := .unit u) hs, ha⟩
  | _ => cases ha

theorem targetNames_subset_identifiers (h : a ∈ unitUnpackings r u) :
    targetNames a ⊆ Tree.identifiers u := by
  intro x hx
  obtain ⟨e, he, ha⟩ := exists_of_mem_unitUnpackings h
  obtain ⟨span, t, v, rfl, hleft, -⟩ := Desugar.unpacking?_eq_some ha
  obtain ⟨span', receiver, method, rfl⟩ := Desugar.side?_eq_some hleft
  obtain ⟨arg, harg, hname⟩ := List.mem_filterMap.1 hx
  have hcontains : (Site.unit u).Contains (.expr arg) := by
    refine (he.tail List.mem_cons_self).tail ?_
    exact List.mem_append_right _ (List.mem_map_of_mem harg)
  cases arg with
  | ident span'' y =>
    cases hname
    exact List.mem_filterMap.2 ⟨_, Tree.mem_sites_iff.2 hcontains, rfl⟩
  | _ => cases hname

theorem mem_targetNames_of_unresolved {scopes : Scopes Ty} {x : String}
    (h : unresolved? scopes a = some x) : x ∈ targetNames a := by
  obtain ⟨⟨t, hazard⟩, hfind, rfl⟩ := Option.map_eq_some_iff.1 h
  exact (List.of_mem_zip (List.mem_of_find?_eq_some hfind)).1

/-- A problem names a target or nothing. -/
theorem Occurrence.mem_targetNames {o : Occurrence} {x : String} {span : Span}
    (h : o.problem? = some ⟨.unresolvedTarget x, span⟩) : x ∈ targetNames o.unpacking := by
  have hverdict : o.verdict = .reported ⟨.unresolvedTarget x, span⟩ := by
    unfold problem? at h
    split at h
    · next p hp => rw [hp, Option.some.inj h]
    · cases h
  unfold verdict at hverdict
  dsimp only at hverdict
  -- Of the checks that can fail, only the last one names a target.
  split at hverdict
  · cases hverdict
  split at hverdict
  · cases hverdict
  split at hverdict
  · cases hverdict
  split at hverdict
  · cases hverdict
  split at hverdict
  · next t ht =>
    cases hverdict
    exact mem_targetNames_of_unresolved ht
  · cases hverdict

/-- What the problems of a run name is an identifier of the unit. -/
theorem classes_named (config : DesugarConfig) (u : Tree.CompilationUnit) {x : String} {span : Span}
    (h : ⟨.unresolvedTarget x, span⟩ ∈ (classes config u).2.problems) : x ∈ Tree.identifiers u := by
  rw [(classes_meet config u).problems, start, List.nil_append] at h
  obtain ⟨o, ho, hproblem⟩ := List.mem_filterMap.1 h
  have hunpacking := List.mem_map_of_mem (f := Occurrence.unpacking) ho
  rw [map_occurrences] at hunpacking
  exact targetNames_subset_identifiers hunpacking (o.mem_targetNames hproblem)

theorem removeServing_subset (m : Marker) (forms : List Form) (imports : List Tree.Import) :
    (removeServing m forms imports).1 ⊆ imports := by
  induction forms generalizing imports with
  | nil => exact List.nil_subset _
  | cons form forms ih =>
    refine List.append_subset.2 ⟨List.filter_subset_self _, ?_⟩
    exact List.Subset.trans (ih _) (List.filter_subset_self _)

end Rewrite

/-! ## Spelling outcomes -/

section Injective

variable {ν μ : Type} {f : ν → μ} (hf : Function.Injective f)

include hf

theorem Problem.map_injective : Function.Injective (Problem.map f) := by
  rintro ⟨cause, span⟩ ⟨cause', span'⟩ h
  simp only [Problem.map, Problem.mk.injEq] at h ⊢
  refine ⟨?_, h.2⟩
  cases cause <;> cases cause' <;> simp_all [Cause.map, hf.eq_iff]

theorem Outcome.map_injective : Function.Injective (Outcome.map f) := by
  rintro ⟨⟩ ⟨⟩ h
  simp only [Outcome.map, Outcome.mk.injEq, List.map_inj_right hf,
    List.map_inj_right (Problem.map_injective hf)] at h ⊢
  exact h

end Injective

/-- What is written of a problem depends on how its names are spelled. -/
theorem Problem.toDiagnostic_map {ν μ : Type} (f : ν → μ) (spell : μ → String) (p : Problem ν) :
    (p.map f).toDiagnostic spell = p.toDiagnostic (spell ∘ f) := by
  obtain ⟨cause, span⟩ := p
  cases cause <;> rfl

theorem Outcome.diagnostics_map {ν μ : Type} (f : ν → μ) (spell : μ → String) (o : Outcome ν) :
    (o.map f).diagnostics spell = o.diagnostics (spell ∘ f) := by
  simp only [diagnostics, Outcome.map, List.map_map, Function.comp_def, Problem.toDiagnostic_map]

theorem Outcome.SpelledBy.keeps {o : Outcome} {names names' : Interner} {o' : Outcome String}
    (h : o.SpelledBy names o') (hkeeps : names.Keeps names') : o.SpelledBy names' o' :=
  fun f hf => h f (hf.of_keeps hkeeps)

/-- In one table, an outcome is spelled as the same strings as no other. -/
theorem Outcome.SpelledBy.unique {o₁ o₂ : Outcome} {names : Interner} {o' : Outcome String}
    (h₁ : o₁.SpelledBy names o') (h₂ : o₂.SpelledBy names o') : o₁ = o₂ := by
  obtain ⟨f, -, hinj, -, hf, -⟩ := names.exists_spelledAs
  exact Outcome.map_injective hinj ((h₁ f hf).trans (h₂ f hf).symm)

theorem exists_map_eq {α β γ : Type} {P : γ → Prop} {g : γ → α → β} {bs : List β}
    (h : ∀ b ∈ bs, ∃ a, ∀ c, P c → g c a = b) : ∃ as : List α, ∀ c, P c → as.map (g c) = bs := by
  induction bs with
  | nil => exact ⟨[], fun _ _ => rfl⟩
  | cons b bs ih =>
    obtain ⟨⟨a, ha⟩, hbs⟩ := List.forall_mem_cons.1 h
    obtain ⟨as, has⟩ := ih hbs
    exact ⟨a :: as, fun c hc => by rw [List.map_cons, ha c hc, has c hc]⟩

section Runs

variable {p : Program} {names : Interner} {u : Tree.CompilationUnit} {fp : List NodeRef}

theorem exists_knows_of_mem {ns : List Name} {ss : List String}
    (h : List.Forall₂ names.Knows ns ss) {x : String} (hx : x ∈ ss) : ∃ n, names.Knows n x := by
  induction h with
  | nil => cases hx
  | cons head _ ih =>
    rcases List.mem_cons.1 hx with rfl | hx
    · exact ⟨_, head⟩
    · exact ih hx

theorem Along.exists_of_mem_left {α β : Type} {R : α → β → List NodeRef → Prop} {as : List α}
    {bs : List β} {fp : List NodeRef} (h : Along R as bs fp) {a : α} (ha : a ∈ as) :
    ∃ b f, R a b f := by
  induction h with
  | nil => cases ha
  | cons head _ ih =>
    rcases List.mem_cons.1 ha with rfl | ha
    · exact ⟨_, _, head⟩
    · exact ih ha

theorem UnitAt.exists_knows_identifier (h : UnitAt p names.Knows u fp) (hnodup : fp.Nodup)
    {x : String} (hx : x ∈ Tree.identifiers u) : ∃ n, names.Knows n x := by
  obtain ⟨ns, -, hall⟩ := h.identifiers hnodup
  exact exists_knows_of_mem hall hx

/-- The outcome of a run can be told in the names of the stored unit. -/
theorem UnitAt.exists_outcome (h : UnitAt p names.Knows u fp) (hnodup : fp.Nodup)
    (config : DesugarConfig) : ∃ o : Outcome, o.SpelledBy names (Rewrite.run config u).1 := by
  have hproblems : ∀ q ∈ (Rewrite.run config u).1.problems,
      ∃ q' : Problem Name, ∀ f, names.SpelledAs f → q'.map f = q := by
    rintro ⟨cause, span⟩ hq
    cases cause with
    | unresolvedTarget x =>
      obtain ⟨n, hn⟩ := h.exists_knows_identifier hnodup (Rewrite.classes_named config u hq)
      exact ⟨⟨.unresolvedTarget n, span⟩, fun f hf => by rw [← hf n x hn]; rfl⟩
    | arityMismatch targets values => exact ⟨⟨.arityMismatch targets values, span⟩, fun _ _ => rfl⟩
    | invalidLeftShape => exact ⟨⟨.invalidLeftShape, span⟩, fun _ _ => rfl⟩
    | noEnclosingMethod => exact ⟨⟨.noEnclosingMethod, span⟩, fun _ _ => rfl⟩
  have hpaths : ∀ x ∈ (Rewrite.run config u).1.removedImports,
      ∃ n : Name, ∀ f, names.SpelledAs f → f n = x := by
    intro x hx
    obtain ⟨i, hi, rfl⟩ := List.mem_map.1 hx
    obtain ⟨i', _, himport⟩ :=
      h.2.2.1.exists_of_mem_left (Rewrite.removeServing_subset _ _ _ hi)
    exact ⟨i'.path, fun f hf => hf _ _ himport.1⟩
  obtain ⟨problems, hproblems⟩ := exists_map_eq hproblems
  obtain ⟨paths, hpaths⟩ := exists_map_eq hpaths
  refine ⟨{ (Rewrite.run config u).1 with removedImports := paths, problems }, fun f hf => ?_⟩
  simp only [Outcome.map, hproblems f hf, hpaths f hf]

/-- A run gives the same outcome in every table that keeps the names of the stored unit, and stores
the same rewritten unit. -/
theorem desugar_outcome (h : UnitAt p names.Knows u fp) (hnodup : fp.Nodup)
    (config : DesugarConfig) :
    ∃ o : Outcome, o.SpelledBy names (Rewrite.run config u).1 ∧
      ∀ names', names.Keeps names' → ∃ p' names'' fp',
        desugar config p names' = .ok (o, p', names'') ∧ names'.Keeps names'' ∧
        UnitAt p' names''.Knows (Rewrite.run config u).2 fp' ∧ fp'.Nodup := by
  obtain ⟨o, ho⟩ := h.exists_outcome hnodup config
  refine ⟨o, ho, fun names' hkeeps => ?_⟩
  obtain ⟨o', p', names'', fp', hrun, hkeeps', ho', hunit, hnodup'⟩ :=
    desugar_eq config (h.imp hkeeps) hnodup
  obtain rfl : o' = o := ho'.unique (ho.keeps (hkeeps.trans hkeeps'))
  exact ⟨p', names'', fp', hrun, hkeeps', hunit, hnodup'⟩

end Runs

end TupleAssign
