import TupleAssign.Proofs.Rejection
/-!
# What a run enters

A run enters strings in the table of names: the names that it looks for, and the names that it tries
for temporaries. Which these are depends on the unit and not on what else is in the table
(`desugar_strings`).
-/

namespace TupleAssign

open Store Desugar

/-! ## Names tried -/

/-- Nothing has been entered but names that were tried. -/
structure Entering (temps : TempNames Name) (names : Interner) (temps' : TempNames Name)
    (names' : Interner) : Prop where
  stem : temps'.stem = temps.stem
  next : temps.next ≤ temps'.next
  keeps : names.Keeps names'
  names : ∀ x ∈ names'.strings, x ∈ names.strings ∨
    ∃ k < temps'.next, x = TempNames.candidate temps.stem k

namespace Entering

variable {temps temps' temps'' : TempNames Name} {names names' names'' : Interner}

theorem refl (temps : TempNames Name) (names : Interner) : Entering temps names temps names :=
  ⟨rfl, Nat.le_refl _, fun _ _ hn => hn, fun _ hx => .inl hx⟩

theorem trans (h : Entering temps names temps' names') (h' : Entering temps' names' temps'' names'') :
    Entering temps names temps'' names'' where
  stem := h'.stem.trans h.stem
  next := Nat.le_trans h.next h'.next
  keeps := h.keeps.trans h'.keeps
  names x hx := by
    rcases h'.names x hx with hx | ⟨k, hk, hx⟩
    · rcases h.names x hx with hx | ⟨k, hk, hx⟩
      · exact .inl hx
      · exact .inr ⟨k, Nat.lt_of_lt_of_le hk h'.next, hx⟩
    · exact .inr ⟨k, hk, h.stem ▸ hx⟩

theorem allocate (temps : TempNames Name) (names : Interner) :
    Entering temps names (temps.allocate names).2.1 (temps.allocate names).2.2 := by
  have hkeeps := temps.keeps_allocate names
  obtain ⟨k, hle, htemps, htable, -⟩ := temps.allocate_eq names
  rw [htemps]
  refine ⟨rfl, Nat.le_succ_of_le hle, hkeeps, fun x hx => ?_⟩
  rw [htable] at hx
  rcases Interner.mem_internAll.1 hx with hx | hx
  · exact .inl hx
  · obtain ⟨j, hj, rfl⟩ := List.mem_map.1 hx
    have hj := List.mem_range'_1.1 hj
    have hlt : j < k + 1 := by omega
    exact .inr ⟨j, hlt, rfl⟩

theorem nameSteps (temps : TempNames Name) (names : Interner) (steps : List PlannedStep) :
    Entering temps names (State.nameSteps temps names steps).2.1
      (State.nameSteps temps names steps).2.2 := by
  induction steps generalizing temps names with
  | nil => exact refl temps names
  | cons step steps ih =>
    rw [State.nameSteps]
    cases step.tempType with
    | none => exact ih temps names
    | some type => exact (allocate temps names).trans (ih _ _)

end Entering

/-! ## The walk -/

namespace Desugar

/-- Carrying out a plan enters what naming its steps enters. -/
theorem State.carryOut_named {s s' : State} {plan : Plan} (h : s.carryOut plan = .ok s') :
    s'.temps = (State.nameSteps s.temps s.names plan.steps).2.1 ∧
      s'.names = (State.nameSteps s.temps s.names plan.steps).2.2 := by
  unfold State.carryOut at h
  generalize State.nameSteps s.temps s.names plan.steps = named at h ⊢
  obtain ⟨steps, temps, names⟩ := named
  dsimp only at h
  split at h
  · cases h
  · obtain ⟨⟨spliced, program⟩, -, h⟩ := bind_eq_ok_iff.1 h
    cases spliced <;> cases h <;> exact ⟨rfl, rfl⟩

/-- On a walk nothing is entered but names that are tried. -/
theorem entering_stepwise :
    Stepwise fun s s' => Entering s.temps s.names s'.temps s'.names where
  refl s := .refl s.temps s.names
  trans h h' := h.trans h'
  path s _ := .refl s.temps s.names
  scopes s _ := .refl s.temps s.names
  handle {s s' u ids} h := by
    simp only [State.handle, bind_eq_ok_iff] at h
    obtain ⟨verdict, -, h⟩ := h
    cases verdict with
    | ok plan =>
      obtain ⟨htemps, hnames⟩ := State.carryOut_named h
      rw [htemps, hnames]
      exact .nameSteps s.temps s.names plan.steps
    | error r => cases r <;> cases h <;> exact .refl s.temps s.names

end Desugar

/-! ## Runs -/

section Runs

variable {config : DesugarConfig} {p p' : Program} {names names' : Interner} {o : Outcome}

/-- What was in the table and what the run looks for is there when the run ends. -/
theorem keeps_of_desugar (h : desugar config p names = .ok (o, p', names')) :
    (names.internAll config.marker.names).Keeps names' := by
  simp only [desugar, bind_eq_ok_iff] at h
  obtain ⟨s, hwalk, removed, -, h⟩ := h
  cases h
  obtain ⟨reserved, -, hentering⟩ := Desugar.entering_stepwise.walk hwalk
  rw [← snd_resolver config.marker p.unit names]
  exact hentering.keeps

/-- The names that a run looks for are in the table when it ends. -/
theorem internAll_of_desugar (h : desugar config p names = .ok (o, p', names')) :
    names'.internAll config.marker.names = names' := by
  refine Interner.internAll_of_knows fun x hx => ?_
  obtain ⟨n, hn⟩ := names.exists_knows_internAll hx
  exact ⟨n, keeps_of_desugar h n x hn⟩

/-- The strings that a run over a unit looks for or tries. -/
def Rewrite.interned (config : DesugarConfig) (u : Tree.CompilationUnit) : List String :=
  config.marker.names ++
    (List.range (Rewrite.classes config u).2.temps.next).map (TempNames.candidate config.stem)

/-- After a run the table holds what it held, and what the run looked for or tried. -/
theorem desugar_strings {u : Tree.CompilationUnit} {fp : List NodeRef}
    (hunit : UnitAt p names.Knows u fp) (hnodup : fp.Nodup)
    (h : desugar config p names = .ok (o, p', names')) (x : String) :
    x ∈ names'.strings ↔ x ∈ names.strings ∨ x ∈ Rewrite.interned config u := by
  have hkeeps := keeps_of_desugar h
  obtain ⟨s, -, hwalk, hmatches, -⟩ := walk_matches config hunit hnodup
  simp only [desugar, hwalk, bind_eq_ok_iff, Except.ok.injEq, exists_eq_left'] at h
  obtain ⟨removed, -, h⟩ := h
  cases h
  obtain ⟨reserved, -, hentering⟩ := entering_stepwise.walk hwalk
  have hstem : s.temps.stem = config.stem := hentering.stem
  rw [Rewrite.interned, List.mem_append, ← hmatches.temps.next]
  constructor
  · intro hx
    rcases hentering.names x hx with hx | ⟨k, hk, rfl⟩
    · rw [start, snd_resolver] at hx
      exact (Interner.mem_internAll.1 hx).imp_right .inl
    · exact .inr (.inr (List.mem_map.2 ⟨k, List.mem_range.2 hk, rfl⟩))
  · rintro (hx | hx | hx)
    · exact hkeeps.mem (Interner.mem_internAll.2 (.inl hx))
    · exact hkeeps.mem (Interner.mem_internAll.2 (.inr hx))
    · obtain ⟨k, hk, rfl⟩ := List.mem_map.1 hx
      rw [← hstem]
      exact Interner.mem_strings_iff.2 (hmatches.tried.known k (List.mem_range.1 hk))

end Runs

end TupleAssign
