import TupleAssign.Proofs.Growth
/-!
# The forms of stored trees

One lemma for each form of type and statement, and one for all expressions: which node a stored
tree of this form has at its root, and where its parts are. Later proofs take stored trees apart and
put them together with these.
-/

namespace TupleAssign

open Store

variable {ν : Type} {st : Store} {sp : Spelling ν}

theorem ok_pure_iff {α : Type} {a b : α} : (pure a : Except Fault α) = .ok b ↔ a = b := by
  simp [pure, Except.pure]

theorem along_tys_iff {ts : List (Tree.Ty ν)} {ids : List TypeId} {fp : List NodeRef} :
    Along (Stored st sp) (ts.map .ty) (ids.map NodeId.ref) fp ↔ Along (TyAt st sp) ts ids fp :=
  Along.map_iff

theorem along_exprs_iff {es : List (Tree.Expr ν)} {ids : List ExprId} {fp : List NodeRef} :
    Along (Stored st sp) (es.map .expr) (ids.map NodeId.ref) fp ↔ Along (ExprAt st sp) es ids fp :=
  Along.map_iff

theorem along_stmts_iff {ss : List (Tree.Stmt ν)} {ids : List StmtId} {fp : List NodeRef} :
    Along (Stored st sp) (ss.map .stmt) (ids.map NodeId.ref) fp ↔ Along (StmtAt st sp) ss ids fp :=
  Along.map_iff

theorem along_arms_iff {as : List (Tree.Arm ν)} {ids : List ArmId} {fp : List NodeRef} :
    Along (Stored st sp) (as.map .arm) (ids.map NodeId.ref) fp ↔ Along (ArmAt st sp) as ids fp :=
  Along.map_iff

/-! ## Types -/

theorem tyAt_iff {t : Tree.Ty ν} {id : TypeId} {fp : List NodeRef} :
    TyAt st sp t id fp ↔ ∃ node ns f, st.types[id.index]? = some node ∧ TyHead sp node t ∧
      st.typeSlots node = .ok ns ∧ Along (Stored st sp) (Tree.Any.ty t).parts ns f ∧
      fp = id.ref :: f := by
  constructor
  · intro h
    cases h with
    | mk head slots parts =>
      obtain ⟨-, node, hnode, head⟩ := head
      obtain ⟨node', hnode', hns⟩ := slots_type_iff.1 slots
      obtain rfl := Option.some.inj (hnode.symm.trans hnode')
      exact ⟨node, _, _, hnode, head, hns, parts, rfl⟩
  · rintro ⟨node, ns, f, hnode, head, hns, parts, rfl⟩
    exact .mk ⟨rfl, node, hnode, head⟩ (slots_type_iff.2 ⟨node, hnode, hns⟩) parts

theorem tyAt_primitive_iff {p : Primitive} {id : TypeId} {fp : List NodeRef} :
    TyAt st sp (.primitive p) id fp ↔
      st.types[id.index]? = some (.primitive p) ∧ fp = [id.ref] := by
  rw [tyAt_iff]
  constructor
  · rintro ⟨node, ns, f, hnode, head, hns, parts, rfl⟩
    cases head
    simp only [typeSlots, ok_pure_iff] at hns
    subst hns
    obtain ⟨-, rfl⟩ := Along.nil_iff.1 parts
    exact ⟨hnode, rfl⟩
  · rintro ⟨hnode, rfl⟩
    exact ⟨_, [], [], hnode, .primitive p, rfl, .nil, rfl⟩

theorem tyAt_named_iff {s : ν} {args : List (Tree.Ty ν)} {id : TypeId} {fp : List NodeRef} :
    TyAt st sp (.named s args) id fp ↔ ∃ n slice ids f,
      st.types[id.index]? = some (.named n slice) ∧ sp n s ∧ st.typeList slice = .ok ids ∧
      Along (TyAt st sp) args ids f ∧ fp = id.ref :: f := by
  rw [tyAt_iff]
  constructor
  · rintro ⟨node, ns, f, hnode, head, hns, parts, rfl⟩
    cases head with
    | named slice _ hsp =>
      simp only [typeSlots, bind_eq_ok_iff, ok_pure_iff] at hns
      obtain ⟨ids, hids, rfl⟩ := hns
      exact ⟨_, slice, ids, f, hnode, hsp, hids, along_tys_iff.1 parts, rfl⟩
  · rintro ⟨n, slice, ids, f, hnode, hsp, hids, parts, rfl⟩
    refine ⟨_, _, f, hnode, .named slice args hsp, ?_, along_tys_iff.2 parts, rfl⟩
    simp only [typeSlots, bind_eq_ok_iff, ok_pure_iff]
    exact ⟨ids, hids, rfl⟩

theorem tyAt_array_iff {t : Tree.Ty ν} {id : TypeId} {fp : List NodeRef} :
    TyAt st sp (.array t) id fp ↔
      ∃ e f, st.types[id.index]? = some (.array e) ∧ TyAt st sp t e f ∧ fp = id.ref :: f := by
  rw [tyAt_iff]
  constructor
  · rintro ⟨node, ns, f, hnode, head, hns, parts, rfl⟩
    cases head with
    | array e =>
      simp only [typeSlots, ok_pure_iff] at hns
      subst hns
      exact ⟨e, f, hnode, (Along.single_iff (R := Stored st sp)).1 parts, rfl⟩
  · rintro ⟨e, f, hnode, part, rfl⟩
    exact ⟨_, [e.ref], f, hnode, .array e t, rfl, .single part, rfl⟩

/-! ## Expressions -/

theorem ExprHead.typeParts_length {node : Node.Expr} {e : Tree.Expr ν} (h : ExprHead sp node e) :
    e.typeParts.length = node.kind.typeSlots.length := by
  cases h <;> rfl

theorem exprAt_iff {e : Tree.Expr ν} {id : ExprId} {fp : List NodeRef} :
    ExprAt st sp e id fp ↔ ∃ node ids ft fo, st.exprs[id.index]? = some node ∧
      ExprHead sp node e ∧ st.operands node.kind = .ok ids ∧
      Along (TyAt st sp) e.typeParts node.kind.typeSlots ft ∧
      Along (ExprAt st sp) e.operands ids fo ∧ fp = id.ref :: (ft ++ fo) := by
  constructor
  · intro h
    cases h with
    | mk head slots parts =>
      obtain ⟨-, node, hnode, head⟩ := head
      obtain ⟨node', ids, hnode', hids, rfl⟩ := slots_expr_iff.1 slots
      obtain rfl := Option.some.inj (hnode.symm.trans hnode')
      obtain ⟨ft, fo, rfl, ht, ho⟩ :=
        (Along.append_iff (by simpa using head.typeParts_length)).1 parts
      exact ⟨node, ids, ft, fo, hnode, head, hids, along_tys_iff.1 ht, along_exprs_iff.1 ho, rfl⟩
  · rintro ⟨node, ids, ft, fo, hnode, head, hids, ht, ho, rfl⟩
    exact .mk ⟨rfl, node, hnode, head⟩ (slots_expr_iff.2 ⟨node, ids, hnode, hids, rfl⟩)
      ((along_tys_iff.2 ht).append (along_exprs_iff.2 ho))

/-! ## Statements -/

theorem stmtAt_iff {s : Tree.Stmt ν} {id : StmtId} {fp : List NodeRef} :
    StmtAt st sp s id fp ↔ ∃ node ns f, st.stmts[id.index]? = some node ∧ StmtHead sp node s ∧
      st.stmtSlots node.kind = .ok ns ∧ Along (Stored st sp) (Tree.Any.stmt s).parts ns f ∧
      fp = id.ref :: f := by
  constructor
  · intro h
    cases h with
    | mk head slots parts =>
      obtain ⟨-, node, hnode, head⟩ := head
      obtain ⟨node', hnode', hns⟩ := slots_stmt_iff.1 slots
      obtain rfl := Option.some.inj (hnode.symm.trans hnode')
      exact ⟨node, _, _, hnode, head, hns, parts, rfl⟩
  · rintro ⟨node, ns, f, hnode, head, hns, parts, rfl⟩
    exact .mk ⟨rfl, node, hnode, head⟩ (slots_stmt_iff.2 ⟨node, hnode, hns⟩) parts

theorem stmtAt_expr_iff {span : Span} {e : Tree.Expr ν} {id : StmtId} {fp : List NodeRef} :
    StmtAt st sp (.expr span e) id fp ↔ ∃ e' f, st.stmts[id.index]? = some ⟨.expr e', span⟩ ∧
      ExprAt st sp e e' f ∧ fp = id.ref :: f := by
  rw [stmtAt_iff]
  constructor
  · rintro ⟨node, ns, f, hnode, head, hns, parts, rfl⟩
    cases head with
    | expr _ e' =>
      simp only [stmtSlots, ok_pure_iff] at hns
      subst hns
      exact ⟨e', f, hnode, (Along.single_iff (R := Stored st sp)).1 parts, rfl⟩
  · rintro ⟨e', f, hnode, part, rfl⟩
    exact ⟨_, [e'.ref], f, hnode, .expr span e' e, rfl, .single part, rfl⟩

theorem stmtAt_localVar_iff {span : Span} {t : Tree.Ty ν} {s : ν} {init : Option (Tree.Expr ν)}
    {isFinal : Bool} {id : StmtId} {fp : List NodeRef} :
    StmtAt st sp (.localVar span t s init isFinal) id fp ↔ ∃ t' n init' ft fi,
      st.stmts[id.index]? = some ⟨.localVar t' n init' isFinal, span⟩ ∧ sp n s ∧
      TyAt st sp t t' ft ∧ Along (ExprAt st sp) init.toList init'.toList fi ∧
      fp = id.ref :: (ft ++ fi) := by
  rw [stmtAt_iff]
  constructor
  · rintro ⟨node, ns, f, hnode, head, hns, parts, rfl⟩
    cases head with
    | localVar _ t' _ _ hi hsp =>
      simp only [stmtSlots, ok_pure_iff] at hns
      subst hns
      obtain ⟨ft, fi, rfl, ht, hinit⟩ := Along.cons_cons_iff.1 parts
      exact ⟨t', _, _, ft, fi, hnode, hsp, ht, along_exprs_iff.1 hinit, rfl⟩
  · rintro ⟨t', n, init', ft, fi, hnode, hsp, ht, hinit, rfl⟩
    exact ⟨_, _, ft ++ fi, hnode, .localVar span t' t isFinal hinit.toList_isSome.symm hsp, rfl,
      .cons ht (along_exprs_iff.2 hinit), rfl⟩

theorem stmtAt_block_iff {span : Span} {ss : List (Tree.Stmt ν)} {id : StmtId} {fp : List NodeRef} :
    StmtAt st sp (.block span ss) id fp ↔ ∃ b ids f, st.stmts[id.index]? = some ⟨.block b, span⟩ ∧
      st.stmtList b.stmts = .ok ids ∧ Along (StmtAt st sp) ss ids f ∧ fp = id.ref :: f := by
  rw [stmtAt_iff]
  constructor
  · rintro ⟨node, ns, f, hnode, head, hns, parts, rfl⟩
    cases head with
    | block _ b =>
      simp only [stmtSlots, bind_eq_ok_iff, ok_pure_iff] at hns
      obtain ⟨ids, hids, rfl⟩ := hns
      exact ⟨b, ids, f, hnode, hids, along_stmts_iff.1 parts, rfl⟩
  · rintro ⟨b, ids, f, hnode, hids, parts, rfl⟩
    refine ⟨_, _, f, hnode, .block span b ss, ?_, along_stmts_iff.2 parts, rfl⟩
    simp only [stmtSlots, bind_eq_ok_iff, ok_pure_iff]
    exact ⟨ids, hids, rfl⟩

theorem stmtAt_ifElse_iff {span : Span} {c : Tree.Expr ν} {t : Tree.Stmt ν}
    {e : Option (Tree.Stmt ν)} {id : StmtId} {fp : List NodeRef} :
    StmtAt st sp (.ifElse span c t e) id fp ↔ ∃ c' t' e' fc ft fe,
      st.stmts[id.index]? = some ⟨.ifElse c' t' e', span⟩ ∧ ExprAt st sp c c' fc ∧
      StmtAt st sp t t' ft ∧ Along (StmtAt st sp) e.toList e'.toList fe ∧
      fp = id.ref :: (fc ++ (ft ++ fe)) := by
  rw [stmtAt_iff]
  constructor
  · rintro ⟨node, ns, f, hnode, head, hns, parts, rfl⟩
    cases head with
    | ifElse _ c' _ t' _ he =>
      simp only [stmtSlots, ok_pure_iff] at hns
      subst hns
      obtain ⟨fc, f, rfl, hc, parts⟩ := Along.cons_cons_iff.1 parts
      obtain ⟨ft, fe, rfl, ht, he⟩ := Along.cons_cons_iff.1 parts
      exact ⟨c', t', _, fc, ft, fe, hnode, hc, ht, along_stmts_iff.1 he, rfl⟩
  · rintro ⟨c', t', e', fc, ft, fe, hnode, hc, ht, he, rfl⟩
    exact ⟨_, _, _, hnode, .ifElse span c' c t' t he.toList_isSome.symm, rfl,
      .cons hc (.cons ht (along_stmts_iff.2 he)), rfl⟩

theorem stmtAt_whileLoop_iff {span : Span} {c : Tree.Expr ν} {b : Tree.Stmt ν} {id : StmtId}
    {fp : List NodeRef} :
    StmtAt st sp (.whileLoop span c b) id fp ↔ ∃ c' b' fc fb,
      st.stmts[id.index]? = some ⟨.whileLoop c' b', span⟩ ∧ ExprAt st sp c c' fc ∧
      StmtAt st sp b b' fb ∧ fp = id.ref :: (fc ++ fb) := by
  rw [stmtAt_iff]
  constructor
  · rintro ⟨node, ns, f, hnode, head, hns, parts, rfl⟩
    cases head with
    | whileLoop _ c' _ b' =>
      simp only [stmtSlots, ok_pure_iff] at hns
      subst hns
      obtain ⟨fc, fb, rfl, hc, hb⟩ := Along.cons_cons_iff.1 parts
      exact ⟨c', b', fc, fb, hnode, hc, (Along.single_iff (R := Stored st sp)).1 hb, rfl⟩
  · rintro ⟨c', b', fc, fb, hnode, hc, hb, rfl⟩
    exact ⟨_, _, _, hnode, .whileLoop span c' c b' b, rfl, .cons hc (.single hb), rfl⟩

theorem stmtAt_switch_iff {span : Span} {sel : Tree.Expr ν} {arms : List (Tree.Arm ν)} {id : StmtId}
    {fp : List NodeRef} :
    StmtAt st sp (.switch span sel arms) id fp ↔ ∃ sel' slice ids fs fa,
      st.stmts[id.index]? = some ⟨.switch sel' slice, span⟩ ∧ slice.ids slice.len = .ok ids ∧
      ExprAt st sp sel sel' fs ∧ Along (ArmAt st sp) arms ids fa ∧
      fp = id.ref :: (fs ++ fa) := by
  rw [stmtAt_iff]
  constructor
  · rintro ⟨node, ns, f, hnode, head, hns, parts, rfl⟩
    cases head with
    | switch _ sel' _ slice =>
      simp only [stmtSlots, bind_eq_ok_iff, ok_pure_iff] at hns
      obtain ⟨ids, hids, rfl⟩ := hns
      obtain ⟨fs, fa, rfl, hs, ha⟩ := Along.cons_cons_iff.1 parts
      exact ⟨sel', slice, ids, fs, fa, hnode, hids, hs, along_arms_iff.1 ha, rfl⟩
  · rintro ⟨sel', slice, ids, fs, fa, hnode, hids, hs, ha, rfl⟩
    refine ⟨_, _, _, hnode, .switch span sel' sel slice arms, ?_,
      .cons hs (along_arms_iff.2 ha), rfl⟩
    simp only [stmtSlots, bind_eq_ok_iff, ok_pure_iff]
    exact ⟨ids, hids, rfl⟩

theorem stmtAt_returnWith_iff {span : Span} {v : Option (Tree.Expr ν)} {id : StmtId}
    {fp : List NodeRef} :
    StmtAt st sp (.returnWith span v) id fp ↔ ∃ v' f,
      st.stmts[id.index]? = some ⟨.returnWith v', span⟩ ∧
      Along (ExprAt st sp) v.toList v'.toList f ∧ fp = id.ref :: f := by
  rw [stmtAt_iff]
  constructor
  · rintro ⟨node, ns, f, hnode, head, hns, parts, rfl⟩
    cases head with
    | returnWith _ hv =>
      simp only [stmtSlots, ok_pure_iff] at hns
      subst hns
      exact ⟨_, f, hnode, along_exprs_iff.1 parts, rfl⟩
  · rintro ⟨v', f, hnode, hv, rfl⟩
    exact ⟨_, _, _, hnode, .returnWith span hv.toList_isSome.symm, rfl, along_exprs_iff.2 hv, rfl⟩

/-- A statement without parts is its node alone. -/
theorem stmtAt_leaf_iff {s : Tree.Stmt ν} (kind : Node.StmtKind) {id : StmtId} {fp : List NodeRef}
    (hs : (s = .breakOut s.span ∧ kind = .breakOut) ∨ (s = .continueOn s.span ∧ kind = .continueOn) ∨
      (s = .empty s.span ∧ kind = .empty)) :
    StmtAt st sp s id fp ↔ st.stmts[id.index]? = some ⟨kind, s.span⟩ ∧ fp = [id.ref] := by
  rw [stmtAt_iff]
  constructor
  · rintro ⟨node, ns, f, hnode, head, hns, parts, rfl⟩
    rcases hs with ⟨hs, rfl⟩ | ⟨hs, rfl⟩ | ⟨hs, rfl⟩ <;>
    · rw [hs] at head parts ⊢
      cases head
      simp only [stmtSlots, ok_pure_iff] at hns
      subst hns
      obtain ⟨-, rfl⟩ := Along.nil_iff.1 parts
      exact ⟨hnode, rfl⟩
  · rintro ⟨hnode, rfl⟩
    rcases hs with ⟨hs, rfl⟩ | ⟨hs, rfl⟩ | ⟨hs, rfl⟩ <;>
    · rw [hs] at hnode ⊢
      exact ⟨_, [], [], hnode, by constructor, rfl, .nil, rfl⟩

/-! ## Arms -/

theorem armAt_iff {label : Option (Tree.Expr ν)} {ss : List (Tree.Stmt ν)} {id : ArmId}
    {fp : List NodeRef} :
    ArmAt st sp (.mk label ss) id fp ↔ ∃ a ids fl fs, st.arms[id.index]? = some a ∧
      st.stmtList a.stmts = .ok ids ∧ Along (ExprAt st sp) label.toList a.label.toList fl ∧
      Along (StmtAt st sp) ss ids fs ∧ fp = id.ref :: (fl ++ fs) := by
  constructor
  · intro h
    cases h with
    | mk head slots parts =>
      obtain ⟨-, node, hnode, head⟩ := head
      obtain ⟨a, ids, ha, hids, rfl⟩ := slots_arm_iff.1 slots
      obtain rfl := Option.some.inj (hnode.symm.trans ha)
      cases head with
      | mk slice span _ hl =>
        obtain ⟨fl, fs, rfl, h₁, h₂⟩ :=
          (Along.append_iff (by simp [Option.length_toList, hl])).1 parts
        exact ⟨_, ids, fl, fs, hnode, hids, along_exprs_iff.1 h₁, along_stmts_iff.1 h₂, rfl⟩
  · rintro ⟨a, ids, fl, fs, hnode, hids, hl, hss, rfl⟩
    obtain ⟨label', slice, span⟩ := a
    exact .mk ⟨rfl, _, hnode, .mk slice span ss hl.toList_isSome.symm⟩
      (slots_arm_iff.2 ⟨_, ids, hnode, hids, rfl⟩)
      ((along_exprs_iff.2 hl).append (along_stmts_iff.2 hss))

end TupleAssign
