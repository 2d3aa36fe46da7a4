import Mathlib.Data.List.Forall2
import TupleAssign.Proofs.Loading
import TupleAssign.Proofs.Rewrite
/-!
# Entering an expansion

`expand` enters the statements that take the place of an unpacking. Given a plan whose values and
types are stored, the statements it enters are the expansion of the plan as trees, in the nodes of
the values and in new ones (`expand_eq`). A type is copied node by node, so a temporary shares no
node with the declaration its type comes from.
-/

namespace TupleAssign

open Store

/-! ## Running an edit -/

namespace Edit

variable {α β : Type} {st st' : Store}

theorem run_bind {m : Edit α} {k : α → Edit β} {a : α} (h : m.run.run st = (.ok a, st')) :
    (m >>= k).run.run st = (k a).run.run st' := by
  change (ExceptT.bindCont k (m.run.run st).1) (m.run.run st).2 = _
  rw [h]
  rfl

theorem run_lift (m : StateM Store α) : (liftM m : Edit α).run.run st = (.ok (m st).1, (m st).2) :=
  rfl

theorem run_get : (get : Edit Store).run.run st = (.ok st, st) := rfl

theorem run_liftExcept {x : Except Fault α} {a : α} (h : x = .ok a) :
    (liftExcept x : Edit α).run.run st = (.ok a, st) := by
  subst h
  rfl

end Edit

/-! ## Copies of types -/

section Copy

variable {ν : Type} {sp : Spelling ν}

/-! What copying does at a node, from what it does at the parts. -/

theorem copyTypeTo_primitive {st : Store} {id : TypeId} {p : Primitive} (levels : Nat)
    (hnode : st.types[id.index]? = some (.primitive p)) :
    ∃ id' st' f', (copyTypeTo (levels + 1) id).run.run st = (.ok id', st') ∧ st.Adds st' f' ∧
      TyAt st' sp (.primitive p) id' f' := by
  refine ⟨_, _, _, ?_, allocType_adds st (.primitive p),
    tyAt_primitive_iff.2 ⟨types_allocType st _, rfl⟩⟩
  rw [copyTypeTo, Edit.run_bind Edit.run_get,
    Edit.run_bind (Edit.run_liftExcept (type_eq_ok_iff.2 hnode))]
  rfl

theorem copyTypeTo_named {st st₁ : Store} {id : TypeId} {n : Name} {s : ν} {slice : Slice .type}
    {ids ids' : List TypeId} {args : List (Tree.Ty ν)} {levels : Nat} {f : List NodeRef}
    (hnode : st.types[id.index]? = some (.named n slice)) (hn : sp n s)
    (hids : st.typeList slice = .ok ids)
    (hrun : (ids.mapM (copyTypeTo levels)).run.run st = (.ok ids', st₁)) (hadds : st.Adds st₁ f)
    (hcopies : Along (TyAt st₁ sp) args ids' f) :
    ∃ id' st' f', (copyTypeTo (levels + 1) id).run.run st = (.ok id', st') ∧ st.Adds st' f' ∧
      TyAt st' sp (.named s args) id' f' := by
  have hlist := allocTypeList_adds st₁ ids'
  have htype := allocType_adds (allocTypeList ids' st₁).2 (.named n (allocTypeList ids' st₁).1)
  have hcopies := hcopies.imp fun _ _ _ _ _ hc =>
    hc.grow_inert (hlist.grows.trans htype.grows) (fun _ _ hn => hn) rfl
  refine ⟨_, _, _, ?_, (hadds.list hlist).cons htype, tyAt_named_iff.2 ⟨n, _, ids', f,
    types_allocType _ _, hn, htype.grows.typeList_eq (typeList_allocTypeList _ _), hcopies, rfl⟩⟩
  rw [copyTypeTo, Edit.run_bind Edit.run_get,
    Edit.run_bind (Edit.run_liftExcept (type_eq_ok_iff.2 hnode))]
  dsimp only
  rw [Edit.run_bind Edit.run_get, Edit.run_bind (Edit.run_liftExcept hids),
    Edit.run_bind hrun, Edit.run_bind (Edit.run_lift _)]
  exact Edit.run_lift _

theorem copyTypeTo_array {st st₁ : Store} {id e e' : TypeId} {t : Tree.Ty ν} {levels : Nat}
    {f : List NodeRef} (hnode : st.types[id.index]? = some (.array e))
    (hrun : (copyTypeTo levels e).run.run st = (.ok e', st₁)) (hadds : st.Adds st₁ f)
    (hcopy : TyAt st₁ sp t e' f) :
    ∃ id' st' f', (copyTypeTo (levels + 1) id).run.run st = (.ok id', st') ∧ st.Adds st' f' ∧
      TyAt st' sp (.array t) id' f' := by
  have htype := allocType_adds st₁ (.array e')
  refine ⟨_, _, _, ?_, hadds.cons htype, tyAt_array_iff.2 ⟨e', f, types_allocType _ _,
    hcopy.grow_inert htype.grows (fun _ _ hn => hn) rfl, rfl⟩⟩
  rw [copyTypeTo, Edit.run_bind Edit.run_get,
    Edit.run_bind (Edit.run_liftExcept (type_eq_ok_iff.2 hnode))]
  dsimp only
  rw [Edit.run_bind hrun]
  exact Edit.run_lift _

mutual

theorem copyTypeTo_eq : ∀ (t : Tree.Ty ν) (levels : Nat) {st : Store} {id : TypeId}
    {f : List NodeRef}, TyAt st sp t id f → sortCount .type f ≤ levels →
    ∃ id' st' f', (copyTypeTo levels id).run.run st = (.ok id', st') ∧ st.Adds st' f' ∧
      TyAt st' sp t id' f'
  | .primitive p, levels, st, id, f, h, hlevels => by
    obtain ⟨hnode, rfl⟩ := tyAt_primitive_iff.1 h
    obtain ⟨levels, rfl, -⟩ := exists_level rfl hlevels
    exact copyTypeTo_primitive levels hnode
  | .named s args, levels, st, id, f, h, hlevels => by
    obtain ⟨n, slice, ids, f, hnode, hn, hids, hargs, rfl⟩ := tyAt_named_iff.1 h
    obtain ⟨levels, rfl, hle⟩ := exists_level rfl hlevels
    obtain ⟨ids', st₁, f', hrun, hadds, hcopies⟩ :=
      copyTypesTo_eq args levels hargs hle
    exact copyTypeTo_named hnode hn hids hrun hadds hcopies
  | .array t, levels, st, id, f, h, hlevels => by
    obtain ⟨e, f, hnode, he, rfl⟩ := tyAt_array_iff.1 h
    obtain ⟨levels, rfl, hle⟩ := exists_level rfl hlevels
    obtain ⟨e', st₁, f', hrun, hadds, hcopy⟩ := copyTypeTo_eq t levels he hle
    exact copyTypeTo_array hnode hrun hadds hcopy

theorem copyTypesTo_eq : ∀ (ts : List (Tree.Ty ν)) (levels : Nat) {st : Store} {ids : List TypeId}
    {f : List NodeRef}, Along (TyAt st sp) ts ids f → sortCount .type f ≤ levels →
    ∃ ids' st' f', (ids.mapM (copyTypeTo levels)).run.run st = (.ok ids', st') ∧ st.Adds st' f' ∧
      Along (TyAt st' sp) ts ids' f'
  | [], levels, st, ids, f, h, _ => by
    cases h
    exact ⟨[], st, [], rfl, .refl st, .nil⟩
  | t :: ts, levels, st, ids, f, h, hlevels => by
    obtain ⟨id, ids, f₁, f₂, rfl, rfl, head, tail⟩ := Along.cons_iff.1 h
    simp only [sortCount_append] at hlevels
    obtain ⟨id', st₁, f₁', hrun₁, hadds₁, hcopy⟩ := copyTypeTo_eq t levels head (by omega)
    have htail : Along (TyAt st₁ sp) ts ids f₂ := tail.imp fun _ _ _ _ _ ht =>
      ht.grow_inert hadds₁.grows (fun _ _ hn => hn) rfl
    obtain ⟨ids', st₂, f₂', hrun₂, hadds₂, hcopies⟩ := copyTypesTo_eq ts levels htail (by omega)
    refine ⟨id' :: ids', st₂, f₁' ++ f₂', ?_, hadds₁.trans hadds₂, .cons ?_ hcopies⟩
    · rw [List.mapM_cons, Edit.run_bind hrun₁, Edit.run_bind hrun₂]
      rfl
    · exact hcopy.grow_inert hadds₂.grows (fun _ _ hn => hn) rfl

end

/-- A copy of a stored type is stored in new nodes. -/
theorem copyType_eq {st : Store} {t : Tree.Ty ν} {id : TypeId} {f : List NodeRef}
    (h : TyAt st sp t id f) (hnodup : f.Nodup) :
    ∃ id' st' f', (copyType id).run.run st = (.ok id', st') ∧ st.Adds st' f' ∧
      TyAt st' sp t id' f' := by
  obtain ⟨id', st', f', hrun, hadds, hcopy⟩ := copyTypeTo_eq t _ h
    (Nat.le_succ_of_le (sortCount_le_count hnodup h.old))
  refine ⟨id', st', f', ?_, hadds, hcopy⟩
  rw [copyType, Edit.run_bind Edit.run_get]
  exact hrun

end Copy

/-! ## Plans -/

section Plans

variable {ν : Type} (st : Store) (sp : Spelling ν)

/-- A step of a plan stands for a step with trees; the nodes are those of the value. -/
inductive StepAt : Rewrite.Step ν → Step → List NodeRef → Prop
  | direct {t : ν} {t' : Name} {v : Tree.Expr ν} {v' : ExprId} {f : List NodeRef}
      (target : sp t' t) (value : ExprAt st sp v v' f) : StepAt ⟨t, v, none⟩ ⟨t', v', none⟩ f
  | early {t n : ν} {t' : Name} {v : Tree.Expr ν} {v' : ExprId} {ty : Tree.Ty ν} {temp : Temporary}
      {f ft : List NodeRef} (target : sp t' t) (name : sp temp.name n)
      (type : TyAt st sp ty temp.type ft) (nodup : ft.Nodup) (value : ExprAt st sp v v' f) :
    StepAt ⟨t, v, some (n, ty)⟩ ⟨t', v', some temp⟩ f

/-- What the declarations need of a step: the value of one that has a temporary. -/
inductive EarlyAt : Rewrite.Step ν → Step → List NodeRef → Prop
  | direct {t : ν} {t' : Name} {v : Tree.Expr ν} {v' : ExprId} :
    EarlyAt ⟨t, v, none⟩ ⟨t', v', none⟩ []
  | early {t n : ν} {t' : Name} {v : Tree.Expr ν} {v' : ExprId} {ty : Tree.Ty ν} {temp : Temporary}
      {f ft : List NodeRef} (name : sp temp.name n) (type : TyAt st sp ty temp.type ft)
      (nodup : ft.Nodup) (value : ExprAt st sp v v' f) :
    EarlyAt ⟨t, v, some (n, ty)⟩ ⟨t', v', some temp⟩ f

/-- What the assignments need of a step: the value of one that has no temporary. -/
inductive LateAt : Rewrite.Step ν → Step → List NodeRef → Prop
  | direct {t : ν} {t' : Name} {v : Tree.Expr ν} {v' : ExprId} {f : List NodeRef}
      (target : sp t' t) (value : ExprAt st sp v v' f) : LateAt ⟨t, v, none⟩ ⟨t', v', none⟩ f
  | early {t n : ν} {t' : Name} {v : Tree.Expr ν} {v' : ExprId} {ty : Tree.Ty ν} {temp : Temporary}
      (target : sp t' t) (name : sp temp.name n) :
    LateAt ⟨t, v, some (n, ty)⟩ ⟨t', v', some temp⟩ []

end Plans

section Expand

variable {ν : Type} {sp : Spelling ν}

/-- Every value is needed once, by its declaration or by its assignment. -/
theorem split_steps {st : Store} {ts : List (Rewrite.Step ν)} {ss : List Step} {f : List NodeRef}
    (h : Along (StepAt st sp) ts ss f) : ∃ f₁ f₂, (f₁ ++ f₂).Perm f ∧
      Along (EarlyAt st sp) ts ss f₁ ∧ Along (LateAt st sp) ts ss f₂ := by
  induction h with
  | nil => exact ⟨[], [], .refl _, .nil, .nil⟩
  | @cons t s f ts ss fs head _ ih =>
    obtain ⟨f₁, f₂, hperm, hearly, hlate⟩ := ih
    cases head with
    | direct target value =>
      refine ⟨f₁, f ++ f₂, ?_, .cons .direct hearly, .cons (.direct target value) hlate⟩
      refine List.perm_iff_count.2 fun a => ?_
      have := hperm.count_eq a
      simp only [List.count_append] at this ⊢
      omega
    | early target name type nodup value =>
      refine ⟨f ++ f₁, f₂, ?_, .cons (.early name type nodup value) hearly,
        .cons (.early target name) hlate⟩
      rw [List.append_assoc]
      exact hperm.append_left f

theorem EarlyAt.grow {st st' : Store} {T : NodeRef → Prop} (hg : st.Grows st' T) {t : Rewrite.Step ν}
    {s : Step} {f : List NodeRef} (h : EarlyAt st sp t s f) : EarlyAt st' sp t s f := by
  cases h with
  | direct => exact .direct
  | early name type nodup value =>
    exact .early name (type.grow_inert hg (fun _ _ hn => hn) rfl) nodup
      (value.grow_inert hg (fun _ _ hn => hn) rfl)

theorem LateAt.grow {st st' : Store} {T : NodeRef → Prop} (hg : st.Grows st' T) {t : Rewrite.Step ν}
    {s : Step} {f : List NodeRef} (h : LateAt st sp t s f) : LateAt st' sp t s f := by
  cases h with
  | direct target value => exact .direct target (value.grow_inert hg (fun _ _ hn => hn) rfl)
  | early target name => exact .early target name

theorem declareTemps_eq (span : Span) {ts : List (Rewrite.Step ν)} {ss : List Step} {f : List NodeRef}
    {st : Store} (h : Along (EarlyAt st sp) ts ss f) :
    ∃ ids st' fadd fnew, (Expansion.declareTemps span ss).run.run st = (.ok ids, st') ∧
      st.Adds st' fadd ∧ fnew.Perm (f ++ fadd) ∧
      Along (StmtAt st' sp) (ts.filterMap (Rewrite.Step.declaration? span)) ids fnew := by
  induction ts generalizing ss f st with
  | nil =>
    cases h
    exact ⟨[], st, [], [], rfl, .refl st, .refl _, .nil⟩
  | cons t ts ih =>
    obtain ⟨s, ss, f₁, f₂, rfl, rfl, head, tail⟩ := Along.cons_iff.1 h
    cases head with
    | direct =>
      obtain ⟨ids, st', fadd, fnew, hrun, hrest⟩ := ih tail
      refine ⟨ids, st', fadd, fnew, ?_, hrest⟩
      rw [Expansion.declareTemps]
      exact hrun
    | @early t n t' v v' ty temp _ ft name type nodup value =>
      obtain ⟨ty', st₁, f', hcopy, hadds₁, hty⟩ := copyType_eq type nodup
      have hdecl := allocStmt_adds st₁ ⟨.localVar ty' temp.name (some v') true, span⟩
      have hg := hadds₁.grows.trans hdecl.grows
      obtain ⟨ids, st₂, fadd, fnew, hrun, hadds₂, hperm, hstmts⟩ :=
        ih (tail.imp fun _ _ _ _ _ hs => hs.grow hg)
      have hstmt : StmtAt _ sp (.localVar span ty n (some v) true) _ _ := stmtAt_localVar_iff.2
        ⟨ty', temp.name, some v', f', f₁, stmts_allocStmt st₁ _, name,
          hty.grow_inert hdecl.grows (fun _ _ hn => hn) rfl,
          .single (value.grow_inert hg (fun _ _ hn => hn) rfl), rfl⟩
      refine ⟨_, st₂, _, _, ?_, (hadds₁.cons hdecl).trans hadds₂, ?_,
        .cons (hstmt.grow hadds₂.grows (fun _ _ hn => hn) fun _ _ hn => hn.elim) hstmts⟩
      · rw [Expansion.declareTemps]
        dsimp only
        rw [Edit.run_bind hcopy, Edit.run_bind (Edit.run_lift _)]
        exact Edit.run_bind hrun
      · refine List.perm_iff_count.2 fun a => ?_
        have := hperm.count_eq a
        simp only [List.count_append, List.count_cons] at this ⊢
        omega

/-- The statement `target = value;` entered over a stored value. -/
theorem assignStmt_eq (span : Span) {st : Store} {n : Name} {t : ν} {v : Tree.Expr ν} {v' : ExprId}
    {f : List NodeRef} (target : sp n t) (value : ExprAt st sp v v' f) :
    ∃ fadd fnew, st.Adds (Build.assignStmt span n v' st).2 fadd ∧ fnew.Perm (f ++ fadd) ∧
      StmtAt (Build.assignStmt span n v' st).2 sp (.expr span (.assign span (.ident span t) v))
        (Build.assignStmt span n v' st).1 fnew := by
  have hident := allocExpr_adds st ⟨.ident n, span⟩
  generalize hst₁ : allocExpr ⟨.ident n, span⟩ st = r₁ at hident
  obtain ⟨i, st₁⟩ := r₁
  have hassign := allocExpr_adds st₁ ⟨.assign i v', span⟩
  generalize hst₂ : allocExpr ⟨.assign i v', span⟩ st₁ = r₂ at hassign
  obtain ⟨a, st₂⟩ := r₂
  have hstmt := allocStmt_adds st₂ ⟨.expr a, span⟩
  have hresult : Build.assignStmt span n v' st = allocStmt ⟨.expr a, span⟩ st₂ := by
    simp [Build.assignStmt, Build.expr, Build.stmt, bind, StateT.bind, hst₁, hst₂]
  have hnode₁ : st₁.exprs[i.index]? = some ⟨.ident n, span⟩ := by
    simpa [hst₁] using exprs_allocExpr st ⟨.ident n, span⟩
  have hnode₂ : st₂.exprs[a.index]? = some ⟨.assign i v', span⟩ := by
    simpa [hst₂] using exprs_allocExpr st₁ ⟨.assign i v', span⟩
  have hleft : ExprAt st₂ sp (.ident span t) i [i.ref] := exprAt_iff.2
    ⟨_, [], [], [], hassign.grows.expr_eq hnode₁, .ident span target, rfl, .nil, .nil, rfl⟩
  have hright : ExprAt st₂ sp v v' f :=
    value.grow_inert (hident.grows.trans hassign.grows) (fun _ _ hn => hn) rfl
  have hexpr : ExprAt st₂ sp (.assign span (.ident span t) v) a (a.ref :: ([i.ref] ++ f)) :=
    exprAt_iff.2 ⟨_, [i, v'], [], [i.ref] ++ f, hnode₂, .assign span i v' _ _, rfl, .nil,
      .cons hleft (.single hright), rfl⟩
  rw [hresult]
  refine ⟨_, _, (hident.trans hassign).trans hstmt, ?_, stmtAt_expr_iff.2 ⟨a, _,
    stmts_allocStmt st₂ _, hexpr.grow_inert hstmt.grows (fun _ _ hn => hn) rfl, rfl⟩⟩
  refine List.perm_iff_count.2 fun x => ?_
  simp only [List.count_append, List.count_cons, List.count_nil]
  omega

/-- Enters what a step assigns: its value as it is, or the name of its temporary. -/
def assignedValue (span : Span) (s : Step) : StateM Store ExprId :=
  match s.temp with
  | none => pure s.value
  | some t => Build.expr span (.ident t.name)

theorem assignTargets_cons (span : Span) (s : Step) (ss : List Step) (st : Store) :
    Expansion.assignTargets span (s :: ss) st =
      let value := assignedValue span s st
      let assign := Build.assignStmt span s.target value.1 value.2
      let rest := Expansion.assignTargets span ss assign.2
      (assign.1 :: rest.1, rest.2) := by
  obtain ⟨target, value, temp⟩ := s
  cases temp <;> rfl

theorem assignedValue_eq (span : Span) {st : Store} {t : Rewrite.Step ν} {s : Step} {f : List NodeRef}
    (h : LateAt st sp t s f) :
    ∃ v v' st' fadd fv, assignedValue span s st = (v', st') ∧ st.Adds st' fadd ∧
      fv.Perm (f ++ fadd) ∧ ExprAt st' sp v v' fv ∧ sp s.target t.target ∧
      Rewrite.Step.assignment span t = .expr span (.assign span (.ident span t.target) v) := by
  cases h with
  | @direct t t' v v' f target value =>
    exact ⟨v, v', st, [], f, rfl, .refl st, by simp, value, target, rfl⟩
  | @early t n t' v v' ty temp target name =>
    exact ⟨.ident span n, _, _, _, _, rfl, allocExpr_adds st ⟨.ident temp.name, span⟩, .refl _,
      exprAt_iff.2 ⟨_, [], [], [], exprs_allocExpr st _, .ident span name, rfl, .nil, .nil, rfl⟩,
      target, rfl⟩

theorem assignTargets_eq (span : Span) {ts : List (Rewrite.Step ν)} {ss : List Step}
    {f : List NodeRef} {st : Store} (h : Along (LateAt st sp) ts ss f) :
    ∃ ids st' fadd fnew, Expansion.assignTargets span ss st = (ids, st') ∧ st.Adds st' fadd ∧
      fnew.Perm (f ++ fadd) ∧
      Along (StmtAt st' sp) (ts.map (Rewrite.Step.assignment span)) ids fnew := by
  induction ts generalizing ss f st with
  | nil =>
    cases h
    exact ⟨[], st, [], [], rfl, .refl st, .refl _, .nil⟩
  | cons t ts ih =>
    obtain ⟨s, ss, f₁, f₂, rfl, rfl, head, tail⟩ := Along.cons_iff.1 h
    obtain ⟨v, v', st₁, fadd₁, fv, hvalue, hadds₁, hperm₁, hv, htarget, hassignment⟩ :=
      assignedValue_eq span head
    obtain ⟨fadd₂, fnew₂, hadds₂, hperm₂, hstmt⟩ := assignStmt_eq span htarget hv
    have hg := hadds₁.grows.trans hadds₂.grows
    obtain ⟨ids, st₃, fadd₃, fnew₃, hrun, hadds₃, hperm₃, hstmts⟩ :=
      ih (tail.imp fun _ _ _ _ _ hs => hs.grow hg)
    refine ⟨(Build.assignStmt span s.target v' st₁).1 :: ids, st₃, _, _, ?_,
      (hadds₁.trans hadds₂).trans hadds₃, ?_, .cons (f := fnew₂) ?_ hstmts⟩
    · simp only [assignTargets_cons, hvalue, hrun]
    · refine List.perm_iff_count.2 fun a => ?_
      have h₁ := hperm₁.count_eq a
      have h₂ := hperm₂.count_eq a
      have h₃ := hperm₃.count_eq a
      simp only [List.count_append] at h₁ h₂ h₃ ⊢
      omega
    · rw [hassignment]
      exact hstmt.grow hadds₃.grows (fun _ _ hn => hn) fun _ _ hn => hn.elim

/-- The statements entered for a plan are its expansion, in the nodes of the values and new ones. -/
theorem expand_eq (span : Span) {ts : List (Rewrite.Step ν)} {ss : List Step} {f : List NodeRef}
    {st : Store} (h : Along (StepAt st sp) ts ss f) :
    ∃ ids st' fadd fnew, (expand span ss).run.run st = (.ok ids, st') ∧ st.Adds st' fadd ∧
      fnew.Perm (f ++ fadd) ∧ Along (StmtAt st' sp) (Rewrite.expansion span ts) ids fnew := by
  obtain ⟨f₁, f₂, hperm, hearly, hlate⟩ := split_steps h
  obtain ⟨ids₁, st₁, fadd₁, fnew₁, hrun₁, hadds₁, hperm₁, hdecls⟩ := declareTemps_eq span hearly
  obtain ⟨ids₂, st₂, fadd₂, fnew₂, hrun₂, hadds₂, hperm₂, hassigns⟩ :=
    assignTargets_eq span (hlate.imp fun _ _ _ _ _ hs => hs.grow hadds₁.grows)
  refine ⟨ids₁ ++ ids₂, st₂, fadd₁ ++ fadd₂, fnew₁ ++ fnew₂, ?_, hadds₁.trans hadds₂, ?_, ?_⟩
  · have hlift : (liftM (Expansion.assignTargets span ss) : Edit _).run.run st₁ =
        (.ok ids₂, st₂) := by
      rw [Edit.run_lift, hrun₂]
    rw [expand, Edit.run_bind hrun₁, Edit.run_bind hlift]
    rfl
  · refine List.perm_iff_count.2 fun a => ?_
    have h₀ := hperm.count_eq a
    have h₁ := hperm₁.count_eq a
    have h₂ := hperm₂.count_eq a
    simp only [List.count_append] at h₀ h₁ h₂ ⊢
    omega
  · refine Along.append (hdecls.imp ?_) hassigns
    exact fun _ _ _ _ _ hs => hs.grow hadds₂.grows (fun _ _ hn => hn) fun _ _ hn => hn.elim

end Expand

/-! ## Naming the temporaries -/

/-- A type id in the store that stands for a type. -/
def DeclaredAt {ν : Type} (st : Store) (sp : Spelling ν) (t : Tree.Ty ν) (id : TypeId) : Prop :=
  ∃ f, TyAt st sp t id f ∧ f.Nodup

theorem DeclaredAt.grow {ν : Type} {st st' : Store} {sp sp' : Spelling ν} {T : NodeRef → Prop}
    (hg : st.Grows st' T) (hsp : ∀ n s, sp n s → sp' n s) {t : Tree.Ty ν} {id : TypeId}
    (h : DeclaredAt st sp t id) : DeclaredAt st' sp' t id := by
  obtain ⟨f, ht, hf⟩ := h
  exact ⟨f, ht.grow_inert hg hsp rfl, hf⟩

open Desugar in
/-- A plan is named as its trees are, and from the same table. -/
theorem nameSteps_eq {st : Store} (targets : List Name) {values : List (Tree.Expr Name)}
    {ids : List ExprId} {f : List NodeRef} {types : List (Option (Tree.Ty Name))}
    {types' : List (Option TypeId)} (hvalues : Along (ExprAt st Verbatim) values ids f)
    (htypes : List.Forall₂ (Option.Rel (DeclaredAt st Verbatim)) types types')
    (temps : TempNames Name) (names : Interner) :
    let named := State.nameSteps temps names (planSteps targets ids types')
    let trees := Rewrite.nameSteps (⟨temps, names⟩ : NameSupply) targets values types
    trees.2 = ⟨named.2.1, named.2.2⟩ ∧ names.Keeps named.2.2 ∧
      (temps.Tried names → named.2.1.Tried named.2.2) ∧
      ∃ f', f'.Sublist f ∧ Along (StepAt st Verbatim) trees.1 named.1 f' := by
  induction targets generalizing values ids f types types' temps names with
  | nil => exact ⟨rfl, fun _ _ hn => hn, id, [], List.nil_sublist _, .nil⟩
  | cons t targets ih =>
    cases hvalues with
    | nil => exact ⟨rfl, fun _ _ hn => hn, id, [], .refl _, .nil⟩
    | @cons v v' f values ids fs hv hvs =>
      cases htypes with
      | nil => exact ⟨rfl, fun _ _ hn => hn, id, [], List.nil_sublist _, .nil⟩
      | @cons o o' types types' ho hos =>
        cases ho with
        | none =>
          obtain ⟨htemps, hkeeps, htried, f', hf', hrest⟩ := ih hvs hos temps names
          exact ⟨htemps, hkeeps, htried, f ++ f', hf'.append_left f, .cons (.direct rfl hv) hrest⟩
        | @some ty id hty =>
          -- A value taken early: the name of the temporary is entered first.
          obtain ⟨ft, hty, hft⟩ := hty
          obtain ⟨htemps, hkeeps, htried, f', hf', hrest⟩ :=
            ih hvs hos (temps.allocate names).2.1 (temps.allocate names).2.2
          exact ⟨htemps, (temps.keeps_allocate names).trans hkeeps, fun h => htried h.allocate,
            f ++ f', hf'.append_left f, .cons (.early rfl rfl hty hft hv) hrest⟩

end TupleAssign
