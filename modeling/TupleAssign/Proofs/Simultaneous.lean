import TupleAssign.Proofs.Sequencing
import TupleAssign.Proofs.Sharing
/-!
# Simultaneous assignment

A plan whose values and types can be read in a store, whatever nodes they share, is entered as its
expansion: the final temporaries, then the assignments (`expand_of_read`). If the plan has a
temporary exactly where the analysis of hazards asks for one, and the names of the temporaries are
used for nothing else, then these statements do what evaluating all values and storing them after
that would do (`expand_simultaneous`).
-/

namespace TupleAssign

open Store

/-! ## Reading a plan -/

/-- The step that a step of a plan stands for. -/
def Store.readStep (st : Store) (names : Interner) (s : Step) : Except Fault Rewrite.Step := do
  let value ← st.readExpr names.lookup s.value
  let temp ← s.temp.mapM fun t => do return (names.lookup t.name, ← st.readType names.lookup t.type)
  return ⟨names.lookup s.target, value, temp⟩

section Reading

variable {names : Interner} {st st' : Store} {t : Name} {v : ExprId}

theorem readStep_none_iff {s : Rewrite.Step} : st.readStep names ⟨t, v, none⟩ = .ok s ↔
    ∃ e, st.readExpr names.lookup v = .ok e ∧ s = ⟨names.lookup t, e, none⟩ := by
  simp only [readStep, bind_eq_ok_iff, Option.mapM_none, ok_pure_iff]
  constructor
  · rintro ⟨e, he, _, rfl, rfl⟩
    exact ⟨e, he, rfl⟩
  · rintro ⟨e, he, rfl⟩
    exact ⟨e, he, none, rfl, rfl⟩

theorem readStep_some_iff {temp : Temporary} {s : Rewrite.Step} :
    st.readStep names ⟨t, v, some temp⟩ = .ok s ↔
      ∃ e ty, st.readExpr names.lookup v = .ok e ∧ st.readType names.lookup temp.type = .ok ty ∧
        s = ⟨names.lookup t, e, some (names.lookup temp.name, ty)⟩ := by
  simp only [readStep, bind_eq_ok_iff, Option.mapM_some, ok_pure_iff]
  constructor
  · rintro ⟨e, he, o, ho, rfl⟩
    obtain ⟨p, hp, ho⟩ := bind_eq_ok_iff.1 ho
    obtain ⟨ty, hty, hp⟩ := bind_eq_ok_iff.1 hp
    cases hp
    cases ho
    exact ⟨e, ty, he, hty, rfl⟩
  · rintro ⟨e, ty, he, hty, rfl⟩
    exact ⟨e, he, _, by rw [hty]; rfl, rfl⟩

theorem Store.Grows.readStep (hg : st.Grows st' nothing) (s : Step) :
    Extends (st.readStep names s) (st'.readStep names s) := by
  refine (hg.readExpr s.value).bind fun e => ?_
  refine (Extends.optionMapM (fun t => ?_) s.temp).ret _
  exact (hg.readType t.type).ret _

theorem map_temp_of_read {plan : List Step} {steps : List Rewrite.Step}
    (h : plan.mapM (st.readStep names) = .ok steps) :
    steps.map (·.temp.isSome) = plan.map (·.temp.isSome) := by
  induction plan generalizing steps with
  | nil =>
    cases h
    rfl
  | cons s plan ih =>
    obtain ⟨s', steps, hs, hsteps, rfl⟩ := mapM_cons_eq_ok_iff.1 h
    have hhead : s'.temp.isSome = s.temp.isSome := by
      obtain ⟨target, value, temp⟩ := s
      cases temp with
      | none =>
        obtain ⟨e, -, rfl⟩ := readStep_none_iff.1 hs
        rfl
      | some temp =>
        obtain ⟨e, ty, -, -, rfl⟩ := readStep_some_iff.1 hs
        rfl
    rw [List.map_cons, List.map_cons, hhead, ih hsteps]

end Reading

/-! ## Entering a plan -/

section Entering

variable {names : Interner} {st : Store}

theorem readStmt_localVar {id : StmtId} {t : TypeId} {n : Name} {v : ExprId} {isFinal : Bool}
    {span : Span} {ty : Tree.Ty} {e : Tree.Expr}
    (hnode : st.stmts[id.index]? = some ⟨.localVar t n (some v) isFinal, span⟩)
    (ht : st.readType names.lookup t = .ok ty) (hv : st.readExpr names.lookup v = .ok e) :
    st.readStmt names.lookup id = .ok (.localVar span ty (names.lookup n) (some e) isFinal) := by
  rw [readStmt, readStmtTo, stmt_eq_ok_iff.2 hnode]
  simp [ht, hv, bind, Except.bind, pure, Except.pure, Functor.map, Except.map]

/-- The declarations of a plan that can be read. Each one leaves a store that has grown, in which the
rest of the plan and the declarations so far read as before. -/
theorem declareTemps_of_read (span : Span) {plan : List Step} {steps : List Rewrite.Step}
    (h : plan.mapM (st.readStep names) = .ok steps) :
    ∃ ids st', (Expansion.declareTemps span plan).run.run st = (.ok ids, st') ∧
      st.Grows st' nothing ∧
      ids.mapM (st'.readStmt names.lookup) =
        .ok (steps.filterMap (Rewrite.Step.declaration? span)) := by
  induction plan generalizing st steps with
  | nil =>
    cases h
    exact ⟨[], st, rfl, .refl st nothing, rfl⟩
  | cons s plan ih =>
    obtain ⟨s', steps, hs, hsteps, rfl⟩ := mapM_cons_eq_ok_iff.1 h
    obtain ⟨target, value, temp⟩ := s
    cases temp with
    | none =>
      obtain ⟨e, -, rfl⟩ := readStep_none_iff.1 hs
      obtain ⟨ids, st', hrun, hg, hread⟩ := ih hsteps
      refine ⟨ids, st', ?_, hg, hread⟩
      rw [Expansion.declareTemps]
      exact hrun
    | some temp =>
      obtain ⟨e, ty, he, hty, rfl⟩ := readStep_some_iff.1 hs
      obtain ⟨ty', st₁, f, hcopy, hadds, hcopied⟩ := copyType_of_read hty
      have hdecl := allocStmt_adds st₁ ⟨.localVar ty' temp.name (some value) true, span⟩
      have hg₁ := hadds.grows.trans hdecl.grows
      have hstmt := readStmt_localVar (stmts_allocStmt st₁ _)
        (hdecl.grows.readType _ _ (readType_eq hcopied hadds.nodup)) (hg₁.readExpr _ _ he)
      obtain ⟨ids, st₂, hrun, hg₂, hread⟩ := ih (Extends.mapM hg₁.readStep plan steps hsteps)
      refine ⟨_, st₂, ?_, hg₁.trans hg₂,
        mapM_cons_eq_ok_iff.2 ⟨_, _, hg₂.readStmt _ _ hstmt, hread, rfl⟩⟩
      rw [Expansion.declareTemps]
      dsimp only
      rw [Edit.run_bind hcopy, Edit.run_bind (Edit.run_lift _)]
      exact Edit.run_bind hrun

theorem readExprTo_ident {levels : Nat} {id : ExprId} {n : Name} {span : Span}
    (hnode : st.exprs[id.index]? = some ⟨.ident n, span⟩) :
    st.readExprTo names.lookup (levels + 1) id = .ok (.ident span (names.lookup n)) := by
  rw [readExprTo, expr_eq_ok_iff.2 hnode]
  rfl

/-- The statement `name = value;` entered over a value that can be read. -/
theorem assignStmt_of_read (span : Span) (n : Name) {v : ExprId} {e : Tree.Expr}
    (h : st.readExpr names.lookup v = .ok e) :
    ∃ id st', Build.assignStmt span n v st = (id, st') ∧ st.Grows st' nothing ∧
      st'.readStmt names.lookup id =
        .ok (.expr span (.assign span (.ident span (names.lookup n)) e)) := by
  have hident := allocExpr_adds st ⟨.ident n, span⟩
  have hi := exprs_allocExpr st ⟨.ident n, span⟩
  generalize hst₁ : allocExpr ⟨.ident n, span⟩ st = r₁ at hident hi
  obtain ⟨i, st₁⟩ := r₁
  have hassign := allocExpr_adds st₁ ⟨.assign i v, span⟩
  have ha := exprs_allocExpr st₁ ⟨.assign i v, span⟩
  generalize hst₂ : allocExpr ⟨.assign i v, span⟩ st₁ = r₂ at hassign ha
  obtain ⟨a, st₂⟩ := r₂
  have hstmt := allocStmt_adds st₂ ⟨.expr a, span⟩
  have hs := stmts_allocStmt st₂ ⟨.expr a, span⟩
  have hg := hident.grows.trans hassign.grows
  -- The value was there before the two nodes, so the levels left below the assignment are enough.
  have hlevels : st.exprs.size + 1 ≤ st₂.exprs.size := by
    have h₁ : st₁.exprs.size = st.exprs.size + 1 := by cases hst₁; simp
    have h₂ : st₂.exprs.size = st₁.exprs.size + 1 := by cases hst₂; simp
    omega
  obtain ⟨k, hk⟩ := Nat.exists_eq_add_of_le' hlevels
  have hvalue : st₂.readExprTo names.lookup st₂.exprs.size v = .ok e := hg.readExprTo hlevels v e h
  have htarget : st₂.readExprTo names.lookup st₂.exprs.size i =
      .ok (.ident span (names.lookup n)) := by
    rw [hk, ← Nat.add_assoc]
    exact readExprTo_ident (hassign.grows.expr_eq hi)
  have hexpr : st₂.readExpr names.lookup a =
      .ok (.assign span (.ident span (names.lookup n)) e) := by
    rw [readExpr, readExprTo, expr_eq_ok_iff.2 ha]
    simp [htarget, hvalue, bind, Except.bind, pure, Except.pure]
  refine ⟨(allocStmt ⟨.expr a, span⟩ st₂).1, (allocStmt ⟨.expr a, span⟩ st₂).2, ?_,
    hg.trans hstmt.grows, ?_⟩
  · simp only [Build.assignStmt, Build.expr, Build.stmt, bind, StateT.bind, hst₁, hst₂,
      Prod.mk.eta]
  · rw [readStmt, readStmtTo, stmt_eq_ok_iff.2 hs]
    simp [hstmt.grows.readExpr _ _ hexpr, bind, Except.bind, pure, Except.pure]

/-- What a step assigns can be read: its value, or the name of its temporary. -/
theorem assignedValue_of_read (span : Span) {s : Step} {s' : Rewrite.Step}
    (h : st.readStep names s = .ok s') :
    ∃ v e st', assignedValue span s st = (v, st') ∧ st.Grows st' nothing ∧
      st'.readExpr names.lookup v = .ok e ∧ s'.assignment span =
        .expr span (.assign span (.ident span (names.lookup s.target)) e) := by
  obtain ⟨target, value, temp⟩ := s
  cases temp with
  | none =>
    obtain ⟨e, he, rfl⟩ := readStep_none_iff.1 h
    exact ⟨value, e, st, rfl, .refl st nothing, he, rfl⟩
  | some temp =>
    obtain ⟨e, ty, -, -, rfl⟩ := readStep_some_iff.1 h
    exact ⟨_, _, _, rfl, (allocExpr_adds st ⟨.ident temp.name, span⟩).grows,
      readExprTo_ident (exprs_allocExpr st _), rfl⟩

theorem assignTargets_of_read (span : Span) {plan : List Step} {steps : List Rewrite.Step}
    (h : plan.mapM (st.readStep names) = .ok steps) :
    ∃ ids st', Expansion.assignTargets span plan st = (ids, st') ∧ st.Grows st' nothing ∧
      ids.mapM (st'.readStmt names.lookup) = .ok (steps.map (Rewrite.Step.assignment span)) := by
  induction plan generalizing st steps with
  | nil =>
    cases h
    exact ⟨[], st, rfl, .refl st nothing, rfl⟩
  | cons s plan ih =>
    obtain ⟨s', steps, hs, hsteps, rfl⟩ := mapM_cons_eq_ok_iff.1 h
    obtain ⟨v, e, st₁, hvalue, hg₁, he, hassignment⟩ := assignedValue_of_read span hs
    obtain ⟨id, st₂, hassign, hg₂, hstmt⟩ := assignStmt_of_read span s.target he
    have hg := hg₁.trans hg₂
    obtain ⟨ids, st₃, hrun, hg₃, hread⟩ := ih (Extends.mapM hg.readStep plan steps hsteps)
    refine ⟨id :: ids, st₃, ?_, hg.trans hg₃, mapM_cons_eq_ok_iff.2 ⟨_, _, ?_, hread, rfl⟩⟩
    · simp only [assignTargets_cons, hvalue, hassign, hrun]
    · rw [hassignment]
      exact hg₃.readStmt _ _ hstmt

/-- A plan that can be read is entered as its expansion, and nothing else changes. -/
theorem expand_of_read (span : Span) {plan : List Step} {steps : List Rewrite.Step}
    (h : plan.mapM (st.readStep names) = .ok steps) :
    ∃ ids st', (expand span plan).run.run st = (.ok ids, st') ∧ st.Grows st' nothing ∧
      ids.mapM (st'.readStmt names.lookup) = .ok (Rewrite.expansion span steps) := by
  obtain ⟨ids₁, st₁, hrun₁, hg₁, hdecls⟩ := declareTemps_of_read span h
  obtain ⟨ids₂, st₂, hrun₂, hg₂, hassigns⟩ :=
    assignTargets_of_read span (Extends.mapM hg₁.readStep plan steps h)
  refine ⟨ids₁ ++ ids₂, st₂, ?_, hg₁.trans hg₂, ?_⟩
  · have hlift : (liftM (Expansion.assignTargets span plan) : Edit _).run.run st₁ =
        (.ok ids₂, st₂) := by
      rw [Edit.run_lift, hrun₂]
    rw [expand, Edit.run_bind hrun₁, Edit.run_bind hlift]
    rfl
  · rw [List.mapM_append, Extends.mapM hg₂.readStmt ids₁ _ hdecls, hassigns]
    rfl

end Entering

/-! ## Running it -/

namespace Semantics

open TupleAssign.Tree (Expr)
open Rewrite (tempNames expansion)

/-- A plan that has a temporary where a value is hazardous reads no target too late. -/
theorem inOrder_of_analyzeAfter {done : List String} {steps : List Rewrite.Step}
    (h : steps.map (·.temp.isSome) =
      (Hazard.analyzeAfter done (steps.map (·.target)) (steps.map (·.value))).map
        (· == .hazardous)) :
    InOrder done steps := by
  induction steps generalizing done with
  | nil => exact trivial
  | cons s steps ih =>
    simp only [List.map_cons, Hazard.analyzeAfter, List.cons.injEq] at h
    obtain ⟨hhead, hrest⟩ := h
    refine ⟨fun hnone x hx => not_mem_of_classify ?_ hx, ih hrest⟩
    rw [hnone] at hhead
    cases hclass : Hazard.classify done s.value with
    | hazardous =>
      rw [hclass] at hhead
      cases hhead
    | safe => rfl
    | indeterminate => rfl

/-- A statement for each temporary, and one for each step. -/
theorem length_expansion (span : Span) (steps : List Rewrite.Step) :
    (expansion span steps).length = steps.countP (·.temp.isSome) + steps.length := by
  have hdecls : (steps.filterMap (Rewrite.Step.declaration? span)).length =
      steps.countP (·.temp.isSome) := by
    rw [List.length_filterMap_eq_countP]
    exact List.countP_congr fun s _ => by simp [Rewrite.Step.declaration?]
  rw [expansion, List.length_append, List.length_map, hdecls]

/-- The steps run as one simultaneous assignment: one run, which ends as it would if all values were
evaluated first. -/
theorem expansion_simultaneous {V : Type} (I : Interp V) (r : Resolver) (span : Span)
    {steps : List Rewrite.Step} (hpure : allPure (steps.map (·.value)) = true)
    (happart : Apart (tempNames steps) steps) (horder : InOrder [] steps) (σ : Env V) :
    ∃ vs τ, evalAll I σ (steps.map (·.value)) = some vs ∧
      (∀ sig τ', execAll I r (expansion span steps) σ sig τ' ↔ sig = .normal ∧ τ' = τ) ∧
      Agree (tempNames steps) (storeAll σ (steps.map (·.target)) vs) τ := by
  obtain ⟨vs, hvs⟩ := exists_evalAll I σ _ hpure
  obtain ⟨τ, hrun, hagree⟩ := expansion_run (r := r) span happart horder hvs (.refl σ)
  refine ⟨vs, τ, hvs, fun sig τ' => ⟨fun hrun' => ?_, ?_⟩, hagree⟩
  · exact expansion_single span steps _ _ _ _ _ hrun hrun'
  · rintro ⟨rfl, rfl⟩
    exact hrun

/-- Entering a plan makes statements that assign simultaneously, in any store in which the plan can
be read. -/
theorem expand_simultaneous (st : Store) (names : Interner) (span : Span) {plan : List Step}
    {steps : List Rewrite.Step} (hread : plan.mapM (st.readStep names) = .ok steps)
    (hpure : allPure (steps.map (·.value)) = true)
    (hearly : plan.map (·.temp.isSome) =
      (Hazard.analyze (steps.map (·.target)) (steps.map (·.value))).map (· == .hazardous))
    (hnodup : (tempNames steps).Nodup) (htargets : ∀ s ∈ steps, s.target ∉ tempNames steps)
    (hvalues : ∀ s ∈ steps, Avoids (tempNames steps) s.value) :
    ∃ ids st', (expand span plan).run.run st = (.ok ids, st') ∧ st.Grows st' nothing ∧
      ids.length = plan.countP (·.temp.isSome) + plan.length ∧
      ids.mapM (st'.readStmt names.lookup) =
        .ok (steps.filterMap (Rewrite.Step.declaration? span) ++
          steps.map (Rewrite.Step.assignment span)) ∧
      ∀ (V : Type) (I : Interp V) (r : Resolver) (σ : Env V), ∃ vs τ,
        evalAll I σ (steps.map (·.value)) = some vs ∧
        (∀ sig τ', execAll I r (steps.filterMap (Rewrite.Step.declaration? span) ++
          steps.map (Rewrite.Step.assignment span)) σ sig τ' ↔ sig = .normal ∧ τ' = τ) ∧
        Agree (tempNames steps) (storeAll σ (steps.map (·.target)) vs) τ := by
  obtain ⟨ids, st', hrun, hgrows, hstmts⟩ := expand_of_read span hread
  have htemps := map_temp_of_read hread
  have hcount : steps.countP (·.temp.isSome) = plan.countP (·.temp.isSome) := by
    simpa [List.countP_map, Function.comp_def] using congrArg (List.countP id) htemps
  have happart : Apart (tempNames steps) steps :=
    ⟨hnodup, List.Subset.refl _, htargets, hvalues⟩
  have horder : InOrder [] steps := inOrder_of_analyzeAfter (htemps.trans hearly)
  refine ⟨ids, st', hrun, hgrows, ?_, hstmts, fun V I r σ =>
    expansion_simultaneous I r span hpure happart horder σ⟩
  rw [← length_of_mapM hstmts, length_expansion, hcount, length_of_mapM hread]

/-! A store for `tuple(a, b, a) = tuple(b, a + a, a)`, in which all readings of `a` are one node and
the two arguments of the type are one node. -/

def rotationNames : Interner := ({} : Interner).internAll ["a", "b", "$tuple0", "$tuple1", "Pair"]

def rotationStore : Store where
  exprs := #[⟨.ident ⟨2⟩, {}⟩, ⟨.ident ⟨1⟩, {}⟩, ⟨.binary .add ⟨1⟩ ⟨1⟩, {}⟩]
  types := #[.primitive .int, .named ⟨5⟩ ⟨0, 2⟩]
  typeLists := #[⟨0⟩, ⟨0⟩]

def rotationPlan : List Step :=
  [⟨⟨1⟩, ⟨0⟩, none⟩, ⟨⟨2⟩, ⟨2⟩, some ⟨⟨3⟩, ⟨1⟩⟩⟩, ⟨⟨1⟩, ⟨1⟩, some ⟨⟨4⟩, ⟨1⟩⟩⟩]

def rotationSteps : List Rewrite.Step :=
  let pair : Tree.Ty := .named "Pair" [.primitive .int, .primitive .int]
  let a : Expr := .ident {} "a"
  [⟨"a", .ident {} "b", none⟩, ⟨"b", .binary {} .add a a, some ("$tuple0", pair)⟩,
    ⟨"a", a, some ("$tuple1", pair)⟩]

theorem expand_simultaneous_rotation :
    rotationPlan.mapM (rotationStore.readStep rotationNames) = .ok rotationSteps ∧
      ∃ ids st', (expand ⟨7, 9⟩ rotationPlan).run.run rotationStore = (.ok ids, st') ∧
        ids.length = 5 ∧
        ∀ (V : Type) (I : Interp V) (r : Resolver) (σ : Env V), ∃ vs τ,
          evalAll I σ (rotationSteps.map (·.value)) = some vs ∧
          execAll I r (expansion ⟨7, 9⟩ rotationSteps) σ .normal τ ∧
          Agree ["$tuple0", "$tuple1"] (storeAll σ ["a", "b", "a"] vs) τ := by
  have hread : rotationPlan.mapM (rotationStore.readStep rotationNames) = .ok rotationSteps := rfl
  have hvalues : ∀ s ∈ rotationSteps, Avoids (tempNames rotationSteps) s.value := by
    simp [rotationSteps, tempNames, Avoids, Expr.readings]
  obtain ⟨ids, st', hrun, -, hlen, -, hmeans⟩ := expand_simultaneous rotationStore rotationNames
    ⟨7, 9⟩ hread (by decide) (by decide) (by decide) (by decide) hvalues
  refine ⟨hread, ids, st', hrun, hlen, fun V I r σ => ?_⟩
  obtain ⟨vs, τ, hvs, hruns, hagree⟩ := hmeans V I r σ
  exact ⟨vs, τ, hvs, (hruns _ _).2 ⟨rfl, rfl⟩, hagree⟩

end Semantics

end TupleAssign
