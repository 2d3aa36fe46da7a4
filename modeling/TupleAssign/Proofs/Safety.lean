import TupleAssign.Proofs.Accounting
import TupleAssign.Proofs.Ownership
import TupleAssign.Proofs.Relisting
/-!
# Runs meet no fault

On a loaded unit no run of a sequence of runs meets a fault: no id or slice is out of bounds, no
splice is rejected by its check, and the result can be printed. Counters stay below the sizes of
tables, so they cannot overflow while the tables can be indexed (`runsSafely_load`).

A splice is made only where a statement was located, and a located statement can always be
replaced: `carryOut_replaces`, for every state whatever.
-/

namespace TupleAssign

open Store Desugar

/-! ## Edits only add -/

/-- Whatever comes of it, the edit changes nothing that was there. -/
def Edit.OnlyAdds {α : Type} (m : Edit α) : Prop :=
  ∀ st : Store, st.Grows (m.run.run st).2 nothing

namespace Edit.OnlyAdds

variable {α β : Type}

theorem pure (a : α) : OnlyAdds (Pure.pure a : Edit α) := fun st => .refl st nothing

theorem get : OnlyAdds (MonadState.get : Edit Store) := fun st => .refl st nothing

theorem ofExcept (x : Except Fault α) : OnlyAdds (liftExcept x : Edit α) := by
  intro st
  cases x <;> exact .refl st nothing

theorem lift {m : StateM Store α} (h : ∀ st : Store, st.Grows (m st).2 nothing) :
    OnlyAdds (liftM m : Edit α) := h

theorem bind {m : Edit α} {k : α → Edit β} (h : OnlyAdds m) (hk : ∀ a, OnlyAdds (k a)) :
    OnlyAdds (m >>= k) := by
  intro st
  have hm := h st
  change st.Grows (ExceptT.bindCont k (m.run.run st).1 (m.run.run st).2).2 nothing
  generalize m.run.run st = res at hm
  obtain ⟨a, st'⟩ := res
  cases a with
  | error f => exact hm
  | ok a => exact hm.trans (hk a st')

theorem mapM {f : α → Edit β} (h : ∀ a, OnlyAdds (f a)) (as : List α) : OnlyAdds (as.mapM f) := by
  induction as with
  | nil => exact .pure []
  | cons a as ih =>
    rw [List.mapM_cons]
    exact (h a).bind fun _ => ih.bind fun _ => .pure _

theorem copyTypeTo (levels : Nat) (id : TypeId) : OnlyAdds (Store.copyTypeTo levels id) := by
  induction levels generalizing id with
  | zero => exact fun st => .refl st nothing
  | succ levels ih =>
    rw [Store.copyTypeTo]
    refine get.bind fun st => (ofExcept _).bind fun node => ?_
    cases node with
    | primitive p => exact lift fun st => (allocType_adds st _).grows
    | named name args =>
      refine get.bind fun st => (ofExcept _).bind fun parts => (mapM ih parts).bind fun copies => ?_
      exact (lift fun st => (allocTypeList_adds st _).grows).bind fun list =>
        lift fun st => (allocType_adds st _).grows
    | array elem => exact (ih elem).bind fun copy => lift fun st => (allocType_adds st _).grows

theorem declareTemps (span : Span) (steps : List Step) :
    OnlyAdds (Expansion.declareTemps span steps) := by
  induction steps with
  | nil => exact .pure []
  | cons step steps ih =>
    rw [Expansion.declareTemps]
    cases step.temp with
    | none => exact ih
    | some t =>
      refine (get.bind fun st => copyTypeTo _ _).bind fun type => ?_
      exact (lift fun st => (allocStmt_adds st _).grows).bind fun decl => ih.bind fun _ => .pure _

end Edit.OnlyAdds

theorem assignTargets_grows (span : Span) (steps : List Step) (st : Store) :
    st.Grows (Expansion.assignTargets span steps st).2 nothing := by
  induction steps generalizing st with
  | nil => exact .refl st nothing
  | cons step steps ih =>
    have hvalue : st.Grows (assignedValue span step st).2 nothing := by
      unfold assignedValue
      cases step.temp with
      | none => exact .refl st nothing
      | some t => exact (allocExpr_adds st _).grows
    have hassign : ∀ (v : ExprId) (st : Store),
        st.Grows (Build.assignStmt span step.target v st).2 nothing := fun v st =>
      ((allocExpr_adds st _).grows.trans (allocExpr_adds _ _).grows).trans (allocStmt_adds _ _).grows
    rw [assignTargets_cons]
    exact (hvalue.trans (hassign _ _)).trans (ih _)

theorem expand_onlyAdds (span : Span) (steps : List Step) : Edit.OnlyAdds (expand span steps) :=
  (Edit.OnlyAdds.declareTemps span steps).bind fun _ =>
    (Edit.OnlyAdds.lift (assignTargets_grows span steps)).bind fun _ => .pure _

/-! ## A located statement can be replaced -/

namespace Program

variable {p : Program} {c : Container} {ids : List StmtId}

/-- A splice into a container with a list is not turned down. -/
theorem splice_ne_error (h : p.Lists c ids) (id : StmtId) (new : List StmtId) (u : Unsupported)
    (p' : Program) : p.splice c id new ≠ .ok (.error u, p') := by
  obtain ⟨slice, hslice, hids⟩ := h
  obtain ⟨p'', hrelist, -⟩ := relist_eq ⟨slice, hslice, hids⟩ (exchange id new ids)
  rw [splice_eq_of_relist hslice hids hrelist]
  cases checkSplice ids (exchange id new ids) id new <;> simp [Except.mapError, Except.map]

end Program

/-- A plan is made only for a located statement. -/
theorem locate_of_verdict {s : State} {u : Unpacking Name} {ids : List ExprId} {plan : Plan}
    (h : s.verdict u ids = .ok (.ok plan)) : s.program.locate s.path = .ok (.ok plan.location) := by
  unfold State.verdict at h
  split at h
  · cases h
  · simp only [bind_eq_ok_iff] at h
    obtain ⟨located, hlocate, h⟩ := h
    cases located with
    | error r => cases h
    | ok l =>
      dsimp only at h
      split at h
      · cases h
      · cases h
        exact hlocate

/-- A plan that is carried out replaces its statement: it is never passed over. -/
theorem carryOut_replaces {s s' : State} {u : Unpacking Name} {ids : List ExprId} {plan : Plan}
    (hv : s.verdict u ids = .ok (.ok plan)) (hc : s.carryOut plan = .ok s') :
    s'.transformed = s.transformed + 1 ∧ s'.skipped = s.skipped := by
  obtain ⟨-, listed, hlists, -⟩ := Program.locate_eq_ok_iff.1 (locate_of_verdict hv)
  unfold State.carryOut at hc
  generalize State.nameSteps s.temps s.names plan.steps = named at hc
  obtain ⟨steps, temps, names⟩ := named
  have hg := expand_onlyAdds plan.span steps s.program.store
  dsimp only at hc
  generalize (expand plan.span steps).run.run s.program.store = res at hc hg
  obtain ⟨stmts, st⟩ := res
  cases stmts with
  | error f => cases hc
  | ok stmts =>
    simp only [bind_eq_ok_iff] at hc
    obtain ⟨spliced, hsplice, hc⟩ := hc
    obtain ⟨spliced, program⟩ := spliced
    cases spliced with
    | error e =>
      -- The expansion only adds nodes, so the container still has its list.
      have hlists' : Program.Lists { s.program with store := st } plan.location.container listed := by
        refine Program.Lists.of_untouched (T := nothing) hg ?_ (fun _ _ hn => hn) hlists
        rfl
      exact absurd hsplice (Program.splice_ne_error hlists' _ _ e program)
    | ok r =>
      cases hc
      exact ⟨rfl, rfl⟩

/-! ## Runs -/

/-- The walk over a stored unit keeps its counters below the sizes of tables. -/
theorem UnitAt.walk_ok {p : Program} {names : Interner} {u : Tree.CompilationUnit}
    {fp : List NodeRef} (h : UnitAt p names.Knows u fp) (hnodup : fp.Nodup)
    (config : DesugarConfig) :
    ∃ s, walk config p names = .ok s ∧
      s.temps.allocated ≤ s.temps.next ∧ s.temps.next ≤ s.names.size ∧
      s.transformed + s.skipped + s.problems.length ≤ p.store.exprs.size := by
  obtain ⟨s, -, hwalk, hmatches, -⟩ := walk_matches config h hnodup
  refine ⟨s, hwalk, hmatches.tried.allocated_le, hmatches.tried.next_le, ?_⟩
  have hproblems := congrArg List.length (hmatches.problems _ s.names.spelledAs_lookup)
  have hhandled := Rewrite.handled_classes config u
  have hle := Rewrite.length_unitUnpackings_le (r := Resolver.ofImports config.marker u.imports)
    h hnodup
  rw [List.length_map] at hproblems
  rw [Rewrite.Progress.handled] at hhandled
  rw [hmatches.transformed, hmatches.skipped, hproblems]
  omega

/-- Runs of the pass one after another, in each of which the walk, the removal of imports and the
reading of the result succeed and all counters stay below the sizes of tables: that of temporaries
below the number of names, the others below the number of expressions. -/
def RunsSafely : List DesugarConfig → Program → Interner → Prop
  | [], _, _ => True
  | config :: configs, p, names =>
    ∃ s removed p' u, walk config p names = .ok s ∧
      s.temps.allocated ≤ s.temps.next ∧ s.temps.next ≤ s.names.size ∧
      s.transformed + s.skipped + s.problems.length ≤ p.store.exprs.size ∧
      s.program.removeDeadImports s.names config.marker (resolver config.marker p.unit names).1
        s.used = .ok (removed, p') ∧
      p'.read s.names = .ok u ∧ RunsSafely configs p' s.names

theorem UnitAt.runsSafely {p : Program} {names : Interner} {u : Tree.CompilationUnit}
    {fp : List NodeRef} (h : UnitAt p names.Knows u fp) (hnodup : fp.Nodup)
    (configs : List DesugarConfig) : RunsSafely configs p names := by
  induction configs generalizing p names u fp with
  | nil => exact trivial
  | cons config configs ih =>
    obtain ⟨s, hwalk, hallocated, hnext, hcount⟩ := h.walk_ok hnodup config
    obtain ⟨o, p', names', fp', hrun, -, -, hunit, hnodup'⟩ := desugar_eq config h hnodup
    simp only [desugar, hwalk, bind_eq_ok_iff, Except.ok.injEq, exists_eq_left'] at hrun
    obtain ⟨⟨removed, program⟩, hremove, hout⟩ := hrun
    cases hout
    have hread := hunit.read_known hnodup'
    exact ⟨s, removed, program, _, hwalk, hallocated, hnext, hcount, hremove, hread,
      ih hunit hnodup'⟩

/-- A sequence of safe runs gives a result for each of its configurations. -/
theorem RunsSafely.desugarEach_ok {configs : List DesugarConfig} {p : Program} {names : Interner}
    (h : RunsSafely configs p names) :
    ∃ rs, desugarEach configs p names = .ok rs ∧ rs.length = configs.length := by
  induction configs generalizing p names with
  | nil => exact ⟨[], rfl, rfl⟩
  | cons config configs ih =>
    obtain ⟨s, removed, p', u, hwalk, -, -, -, hremove, -, hrest⟩ := h
    obtain ⟨rs, hrs, hlen⟩ := ih hrest
    simp only [desugarEach, desugar, hwalk, hremove, hrs, bind, Except.bind, pure, Except.pure]
    exact ⟨_, rfl, congrArg Nat.succ hlen⟩

/-- On a loaded unit no run of a sequence of runs meets a fault or overflows a counter, and wherever
a statement has been located and its replacement entered, the replacement takes its place. -/
theorem runsSafely_load (configs : List DesugarConfig) (u : Tree.CompilationUnit) (names : Interner)
    (hfits : (Program.load u names).1.store.arms.size ≤ absentRaw) :
    RunsSafely configs (Program.load u names).1 (Program.load u names).2 ∧
      (∃ rs, desugarEach configs (Program.load u names).1 (Program.load u names).2 = .ok rs ∧
        rs.length = configs.length) ∧
      ∀ (s s' : State) (a : Unpacking Name) (ids : List ExprId) (plan : Plan),
        s.verdict a ids = .ok (.ok plan) → s.carryOut plan = .ok s' →
        s'.transformed = s.transformed + 1 ∧ s'.skipped = s.skipped := by
  obtain ⟨fp, hunit, hnodup⟩ := Program.load_unitAt u names hfits
  have hruns := hunit.runsSafely hnodup configs
  exact ⟨hruns, hruns.desugarEach_ok, fun _ _ _ _ _ hv hc => carryOut_replaces hv hc⟩

theorem runsSafely_load_swapUnit :
    RunsSafely [{}, { marker := ⟨"", ".."⟩, stem := "" }] (Program.load Rewrite.swapUnit {}).1
      (Program.load Rewrite.swapUnit {}).2 :=
  (runsSafely_load [{}, { marker := ⟨"", ".."⟩, stem := "" }] Rewrite.swapUnit {}
    (by decide +kernel)).1

end TupleAssign
