import TupleAssign.Proofs.Relisting
import TupleAssign.Proofs.Safety
import TupleAssign.Proofs.Walking
/-!
# A rejected unpacking leaves no trace

Whatever the state, handling an unpacking either replaces the statement around it, or adds one
problem, or adds one to the count of those passed over; in the last two cases nothing else changes
(`State.handle_cases`). A walk does nothing to the program, the names and the temporaries but by
handling unpackings. So a run that replaces nothing leaves the program as it was
(`desugar_untouched`).
-/

namespace TupleAssign

open Store Desugar

/-! ## One unpacking -/

/-- A splice that succeeds exchanges the statement in the list of the container. -/
theorem Program.lists_of_splice {p p' : Program} {c : Container} {id : StmtId}
    {new : List StmtId} {slice : Slice .stmt}
    (h : p.splice c id new = .ok (.ok slice, p')) :
    ∃ ids, p.Lists c ids ∧ p'.Lists c (exchange id new ids) := by
  simp only [splice, bind_eq_ok_iff] at h
  obtain ⟨old, hold, h⟩ := h
  cases old with
  | none => cases h
  | some old =>
    simp only [bind_eq_ok_iff] at h
    obtain ⟨ids, hids, res, hrelist, h⟩ := h
    have hlists : p.Lists c ids := ⟨old, hold, hids⟩
    obtain ⟨p₁, hrelist', hlist, hpointed, -⟩ := relist_eq hlists (exchange id new ids)
    cases hrelist.symm.trans hrelist'
    have hp₁ : p₁ = p' := by
      dsimp only at h
      split at h
      · cases h
      · cases h
        rfl
    exact ⟨ids, hlists, hp₁ ▸ ⟨_, containerStmts?_of_pointedAt hpointed, hlist⟩⟩

/-- What is located stands in the list of its container, as the path says. -/
theorem Program.anchor_of_locate {p : Program} {path : Path} {l : Location}
    (h : p.locate path = .ok (.ok l)) :
    path.anchor = .ok (l.stmt, l.container) ∧ ∃ ids, p.Lists l.container ids ∧ l.stmt ∈ ids := by
  obtain ⟨hanchor, ids, hlists, hposition⟩ := locate_eq_ok_iff.1 h
  refine ⟨hanchor, ids, hlists, ?_⟩
  rw [← List.isSome_idxOf?, hposition]
  rfl

theorem Program.Lists.unique {p : Program} {c : Container} {ids ids' : List StmtId}
    (h : p.Lists c ids) (h' : p.Lists c ids') : ids = ids' := by
  obtain ⟨slice, hslice, hids⟩ := h
  obtain ⟨slice', hslice', hids'⟩ := h'
  cases hslice.symm.trans hslice'
  exact Except.ok.inj (hids.symm.trans hids')

namespace Desugar

/-- The statement at the end of the path, which stood in the list of its container, has been
exchanged there for others; one more unpacking is counted as replaced. -/
structure State.Rewrites (s s' : State) : Prop where
  exchanged : ∃ c id ids new, s.path.anchor = .ok (id, c) ∧ s.program.Lists c ids ∧ id ∈ ids ∧
    s'.program.Lists c (exchange id new ids)
  transformed : s'.transformed = s.transformed + 1
  skipped : s'.skipped = s.skipped
  problems : s'.problems = s.problems

/-- One problem or one more passed over, and no other change. -/
def State.Rejects (s s' : State) : Prop :=
  (∃ p, s' = { s with problems := s.problems ++ [p] }) ∨ s' = { s with skipped := s.skipped + 1 }

/-- A plan that is carried out puts other statements in the place of the located one. -/
theorem State.carryOut_rewrites {s s' : State} {u : Unpacking Name} {ids : List ExprId} {plan : Plan}
    (hv : s.verdict u ids = .ok (.ok plan)) (hc : s.carryOut plan = .ok s') : s.Rewrites s' := by
  obtain ⟨htransformed, hskipped⟩ := carryOut_replaces hv hc
  obtain ⟨hanchor, stmts, hlists, hmem⟩ := Program.anchor_of_locate (locate_of_verdict hv)
  unfold State.carryOut at hc
  generalize State.nameSteps s.temps s.names plan.steps = named at hc
  obtain ⟨steps, temps, names⟩ := named
  have hg := expand_onlyAdds plan.span steps s.program.store
  dsimp only at hc
  generalize (expand plan.span steps).run.run s.program.store = res at hc hg
  obtain ⟨new, st⟩ := res
  cases new with
  | error f => cases hc
  | ok new =>
    simp only [bind_eq_ok_iff] at hc
    obtain ⟨⟨spliced, program⟩, hsplice, hc⟩ := hc
    cases spliced with
    | error e =>
      cases hc
      exact absurd htransformed (Nat.ne_of_lt (Nat.lt_succ_self _))
    | ok r =>
      cases hc
      obtain ⟨before, hbefore, hafter⟩ := Program.lists_of_splice hsplice
      -- The expansion only adds nodes, so the list is still the one that was located.
      have hsame : Program.Lists { s.program with store := st } plan.location.container stmts := by
        refine Program.Lists.of_untouched (T := nothing) hg ?_ (fun _ _ hn => hn) hlists
        rfl
      cases hbefore.unique hsame
      exact ⟨⟨_, _, stmts, new, hanchor, hlists, hmem, hafter⟩, rfl, rfl, rfl⟩

/-- In any state, an unpacking is carried out or leaves no trace. -/
theorem State.handle_cases {s s' : State} {u : Unpacking Name} {ids : List ExprId}
    (h : s.handle u ids = .ok s') : s.Rewrites s' ∨ s.Rejects s' := by
  simp only [State.handle, bind_eq_ok_iff] at h
  obtain ⟨verdict, hverdict, h⟩ := h
  cases verdict with
  | ok plan => exact .inl (carryOut_rewrites hverdict h)
  | error r =>
    cases r with
    | problem p =>
      cases h
      exact .inr (.inl ⟨p, rfl⟩)
    | unsupported u =>
      cases h
      exact .inr (.inr rfl)

/-! ## The walk

A walk changes its state by opening and closing frames and scopes, by declaring, and by handling
unpackings. What all of these do, the walk does. -/

/-- A preorder on states that every elementary step of a walk follows. -/
structure Stepwise (R : State → State → Prop) : Prop where
  refl : ∀ s, R s s
  trans : ∀ {s s' s''}, R s s' → R s' s'' → R s s''
  path : ∀ s path, R s { s with path }
  scopes : ∀ s scopes, R s { s with scopes }
  handle : ∀ {s s' : State} {u ids}, s.handle u ids = .ok s' → R s s'

theorem Stepwise.carried {R : State → State → Prop} (hR : Stepwise R)
    (r : Resolver Name) : Carried r R where
  refl := hR.refl
  trans := hR.trans
  frame _ h := hR.trans (hR.path _ _) (hR.trans h (hR.path _ _))
  scope h := hR.trans (hR.scopes _ _) (hR.trans h (hR.scopes _ _))
  declare s _ _ _ := hR.scopes s _
  handle _ _ h := hR.handle h

/-- The walk over a program leads from the start to a related state. -/
theorem Stepwise.walk {R : State → State → Prop} (hR : Stepwise R) {config : DesugarConfig}
    {p : Program} {names : Interner} {s : State} (h : Desugar.walk config p names = .ok s) :
    ∃ reserved, p.identifiers = .ok reserved ∧ R (start config p names reserved) s :=
  (hR.carried _).walk h

/-! ## Runs that replace nothing -/

/-- As long as nothing has been replaced, everything that a replacement writes to is as it was. -/
structure Untouched (s s' : State) : Prop where
  le : s.transformed ≤ s'.transformed
  program : s'.transformed = s.transformed → s'.program = s.program
  names : s'.transformed = s.transformed → s'.names = s.names
  temps : s'.transformed = s.transformed → s'.temps = s.temps
  used : s'.transformed = s.transformed → s'.used = s.used

theorem untouched_stepwise : Stepwise Untouched where
  refl s := ⟨Nat.le_refl _, fun _ => rfl, fun _ => rfl, fun _ => rfl, fun _ => rfl⟩
  path s path := ⟨Nat.le_refl _, fun _ => rfl, fun _ => rfl, fun _ => rfl, fun _ => rfl⟩
  scopes s scopes := ⟨Nat.le_refl _, fun _ => rfl, fun _ => rfl, fun _ => rfl, fun _ => rfl⟩
  trans {s s' s''} h h' := by
    -- The counter only grows, so if it ends where it began it has not moved in between.
    have hmid : s''.transformed = s.transformed →
        s'.transformed = s.transformed ∧ s''.transformed = s'.transformed := by
      have := h.le
      have := h'.le
      omega
    constructor
    · exact Nat.le_trans h.le h'.le
    · exact fun heq => (h'.program (hmid heq).2).trans (h.program (hmid heq).1)
    · exact fun heq => (h'.names (hmid heq).2).trans (h.names (hmid heq).1)
    · exact fun heq => (h'.temps (hmid heq).2).trans (h.temps (hmid heq).1)
    · exact fun heq => (h'.used (hmid heq).2).trans (h.used (hmid heq).1)
  handle {s s' u ids} h := by
    rcases State.handle_cases h with hrewrites | ⟨p, rfl⟩ | rfl
    · have hne : s'.transformed ≠ s.transformed := by
        rw [hrewrites.transformed]
        exact Nat.succ_ne_self _
      constructor
      · rw [hrewrites.transformed]
        exact Nat.le_succ _
      all_goals exact fun heq => absurd heq hne
    · exact ⟨Nat.le_refl _, fun _ => rfl, fun _ => rfl, fun _ => rfl, fun _ => rfl⟩
    · exact ⟨Nat.le_refl _, fun _ => rfl, fun _ => rfl, fun _ => rfl, fun _ => rfl⟩

end Desugar

/-- A run over any program that replaces nothing changes nothing, but that the names it looks for
are in the table. -/
theorem desugar_untouched {config : DesugarConfig} {p p' : Program} {names names' : Interner}
    {o : Outcome} (h : desugar config p names = .ok (o, p', names')) (hzero : o.transformed = 0) :
    p' = p ∧ names' = names.internAll config.marker.names ∧ o.temporaries = 0 ∧ o.markers = [] ∧
      o.removedImports = [] := by
  simp only [desugar, bind_eq_ok_iff] at h
  obtain ⟨s, hwalk, ⟨removed, program⟩, hremove, h⟩ := h
  cases h
  obtain ⟨reserved, -, hstart⟩ := untouched_stepwise.walk hwalk
  have hused : s.used = [] := hstart.used hzero
  have hremoved : removed = [] ∧ program = s.program := by
    rw [Program.removeDeadImports, hused] at hremove
    cases hremove
    exact ⟨rfl, rfl⟩
  obtain ⟨rfl, rfl⟩ := hremoved
  have hnames : s.names = (resolver config.marker p.unit names).2 := hstart.names hzero
  refine ⟨hstart.program hzero, hnames.trans (snd_resolver _ _ _), ?_, ?_, rfl⟩
  · exact congrArg TempNames.allocated (hstart.temps hzero)
  · simp [hused]

/-- Handling an unpacking that is not carried out leaves the whole state as it was, but for one more
problem or one more passed over. Hence a run over a loaded unit, which always gives a result, leaves
program and names as they were whenever it replaces nothing. -/
theorem desugar_load_untouched (config : DesugarConfig) (u : Tree.CompilationUnit)
    (names : Interner) (hfits : (Program.load u names).1.store.arms.size ≤ absentRaw) :
    (∀ (s s' : State) (a : Unpacking Name) (ids : List ExprId), s.handle a ids = .ok s' →
      s.Rewrites s' ∨ (∃ p, s' = { s with problems := s.problems ++ [p] }) ∨
        s' = { s with skipped := s.skipped + 1 }) ∧
    ∃ o p' names',
      desugar config (Program.load u names).1 (Program.load u names).2 = .ok (o, p', names') ∧
      (o.transformed = 0 →
        p' = (Program.load u names).1 ∧
        names' = (Program.load u names).2.internAll
          (config.marker.method :: config.marker.ownerSimpleName :: config.marker.ownerSegments) ∧
        o.temporaries = 0 ∧ o.markers = [] ∧ o.removedImports = []) := by
  obtain ⟨fp, hunit, hnodup⟩ := Program.load_unitAt u names hfits
  obtain ⟨o, p', names', -, hrun, -⟩ := desugar_eq config hunit hnodup
  exact ⟨fun _ _ _ _ h => State.handle_cases h, o, p', names', hrun, desugar_untouched hrun⟩

/-- A method that swaps two variables which are declared nowhere. -/
def Rewrite.strayUnit : Tree.CompilationUnit where
  package := "p"
  imports := [{ path := "lombok.Tuple.tuple", isStatic := true }]
  classes := [{
    name := "C"
    members := [.method {
      name := "swap"
      body := some {
        stmts := [.expr ⟨5, 9⟩ (.assign ⟨5, 9⟩
          (.call ⟨5, 6⟩ none "tuple" [.ident ⟨5, 5⟩ "a", .ident ⟨5, 6⟩ "b"])
          (.call ⟨7, 8⟩ none "tuple" [.ident ⟨7, 7⟩ "b", .ident ⟨7, 8⟩ "a"]))] } }] }]

theorem desugar_load_untouched_strayUnit :
    ∃ o names',
      desugar {} (Program.load Rewrite.strayUnit {}).1 (Program.load Rewrite.strayUnit {}).2 =
        .ok (o, (Program.load Rewrite.strayUnit {}).1, names') ∧
      names' = (Program.load Rewrite.strayUnit {}).2.internAll ["tuple", "Tuple", "lombok", "Tuple"] ∧
      o.transformed = 0 ∧ o.removedImports = [] ∧
      o.problems.map (Problem.map names'.lookup) = [⟨.unresolvedTarget "b", ⟨5, 9⟩⟩] := by
  have hfits : (Program.load Rewrite.strayUnit {}).1.store.arms.size ≤ absentRaw := by
    decide +kernel
  obtain ⟨-, o, p', names', hrun, hzero⟩ := desugar_load_untouched {} Rewrite.strayUnit {} hfits
  obtain ⟨fp, hunit, hnodup⟩ := Program.load_unitAt Rewrite.strayUnit {} hfits
  have hspelled := outcome_of_desugar hunit hnodup hrun
  -- From here on it does not matter how the unit is stored.
  generalize Program.load Rewrite.strayUnit {} = loaded at hrun hzero ⊢
  have houtcome : (Rewrite.run {} Rewrite.strayUnit).1.transformed = 0 ∧
      (Rewrite.run {} Rewrite.strayUnit).1.problems = [⟨.unresolvedTarget "b", ⟨5, 9⟩⟩] := by
    decide +kernel
  have htransformed : o.transformed = 0 := (congrArg Outcome.transformed hspelled).trans houtcome.1
  obtain ⟨rfl, hnames, -, -, hremoved⟩ := hzero htransformed
  have hsought : Marker.names {} = ["tuple", "Tuple", "lombok", "Tuple"] := by decide +kernel
  rw [← Marker.names, hsought] at hnames
  exact ⟨o, names', hrun, hnames, htransformed, hremoved,
    (congrArg Outcome.problems hspelled).trans houtcome.2⟩

end TupleAssign
