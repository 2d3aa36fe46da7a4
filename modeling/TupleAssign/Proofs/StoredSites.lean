import Mathlib.Data.List.Forall2
import TupleAssign.Proofs.Containment
import TupleAssign.Proofs.StoredUnit
import TupleAssign.Store.Visit
/-!
# Sites of a stored unit

A walk over a program goes by ids, a walk over a tree by the trees themselves. Over a unit stored in
distinct nodes the first does not fail and comes, in the same order, to sites that stand for those
that the second comes to (`UnitAt.visits`). It follows the footprint of the unit, so it comes to no
node twice. The identifiers of a program are those of the tree (`UnitAt.identifiers`).
-/

namespace TupleAssign

open Store
open Node (visitEach)

variable {ν : Type}

/-- The node at a site, if there is one. -/
def Node.Site.ref? : Node.Site → Option NodeRef
  | .stmt id _ => some id.ref
  | .expr id _ => some id.ref
  | .type id _ => some id.ref
  | _ => none

section Sites

variable (st : Store) (sp : Spelling ν)

/-- A site of a program stands for a site of a tree, with its nodes. In a tree the statement list of
a block statement has the span of the statement. -/
inductive SiteAt : Tree.Site ν → Node.Site → List NodeRef → Prop
  | unit {u : Tree.CompilationUnit ν} {u' : Node.CompilationUnit} {fp : List NodeRef}
      (h : UnitAt ⟨u', st⟩ sp u fp) : SiteAt (.unit u) (.unit u') fp
  | importDecl {i : Tree.Import ν} {i' : Node.Import} {fp : List NodeRef}
      (h : ImportAt sp i i' fp) : SiteAt (.importDecl i) (.importDecl i') fp
  | classDecl {c : Tree.Class ν} {c' : Node.Class} {fp : List NodeRef} (h : ClassAt st sp c c' fp) :
    SiteAt (.classDecl c) (.classDecl c') fp
  | fieldDecl {f : Tree.Field ν} {f' : Node.Field} {fp : List NodeRef}
      (h : MemberAt st sp (.field f) (.field f') fp) : SiteAt (.fieldDecl f) (.fieldDecl f') fp
  | methodDecl {d : Tree.Method ν} {d' : Node.Method} {fp : List NodeRef}
      (h : MemberAt st sp (.method d) (.method d') fp) : SiteAt (.methodDecl d) (.methodDecl d') fp
  | initializerDecl {i : Tree.Initializer ν} {i' : Node.Initializer} {fp : List NodeRef}
      (h : MemberAt st sp (.initializer i) (.initializer i') fp) :
    SiteAt (.initializerDecl i) (.initializerDecl i') fp
  | param {p : Tree.Param ν} {p' : Node.Param} {fp : List NodeRef} (h : ParamAt st sp p p' fp) :
    SiteAt (.param p) (.param p') fp
  | block {span : Span} {ss : List (Tree.Stmt ν)} {b : Node.Block} {ids : List StmtId}
      {fp : List NodeRef} (hspan : b.span = span ∨ ∃ i : Nat, st.stmts[i]? = some ⟨.block b, span⟩)
      (hids : st.stmtList b.stmts = .ok ids) (h : Along (StmtAt st sp) ss ids fp) :
    SiteAt (.block span ss) (.block b) fp
  | stmt {s : Tree.Stmt ν} {id : StmtId} {node : Node.Stmt} {fp : List NodeRef}
      (hnode : st.stmts[id.index]? = some node) (h : StmtAt st sp s id fp) :
    SiteAt (.stmt s) (.stmt id node) fp
  | expr {e : Tree.Expr ν} {id : ExprId} {node : Node.Expr} {fp : List NodeRef}
      (hnode : st.exprs[id.index]? = some node) (h : ExprAt st sp e id fp) :
    SiteAt (.expr e) (.expr id node) fp
  | type {t : Tree.Ty ν} {id : TypeId} {node : Node.Ty} {fp : List NodeRef}
      (hnode : st.types[id.index]? = some node) (h : TyAt st sp t id fp) :
    SiteAt (.type t) (.type id node) fp

/-- A site of a program stands for a site of a tree, in distinct nodes. -/
def SiteApart (s : Tree.Site ν) (n : Node.Site) : Prop := ∃ fp, fp.Nodup ∧ SiteAt st sp s n fp

/-- A walk does not fail, and comes to sites that stand for these, along the given nodes. -/
def Comes (ss : List (Tree.Site ν)) (walk : Except Fault (List Node.Site)) (fp : List NodeRef) :
    Prop :=
  ∃ ns, walk = .ok ns ∧ List.Forall₂ (SiteApart st sp) ss ns ∧
    (ns.filterMap Node.Site.ref?).Sublist fp

/-- Sites are entered in a program where they are entered in a tree. -/
def EnteredAlike (enter : Tree.Site ν → Bool) (enter' : Node.Site → Bool) : Prop :=
  ∀ s n f, SiteAt st sp s n f → f.Nodup → enter' n = enter s

end Sites

variable {st : Store} {sp : Spelling ν} {enter : Tree.Site ν → Bool} {enter' : Node.Site → Bool}

/-! ## Putting walks together -/

namespace Comes

variable {fp fp' : List NodeRef} {ss ss' : List (Tree.Site ν)}
  {walk walk' : Except Fault (List Node.Site)}

theorem nil : Comes st sp [] (return []) fp := ⟨[], rfl, .nil, List.nil_sublist fp⟩

theorem mono (hsub : fp.Sublist fp') (h : Comes st sp ss walk fp) : Comes st sp ss walk fp' := by
  obtain ⟨ns, hns, hsites, hrefs⟩ := h
  exact ⟨ns, hns, hsites, hrefs.trans hsub⟩

theorem append (h : Comes st sp ss walk fp) (h' : Comes st sp ss' walk' fp') :
    Comes st sp (ss ++ ss') (do return (← walk) ++ (← walk')) (fp ++ fp') := by
  obtain ⟨ns, rfl, hns, hrefs⟩ := h
  obtain ⟨ns', rfl, hns', hrefs'⟩ := h'
  refine ⟨ns ++ ns', rfl, List.rel_append hns hns', ?_⟩
  rw [List.filterMap_append]
  exact hrefs.append hrefs'

theorem append₃ {ss'' : List (Tree.Site ν)} {walk'' : Except Fault (List Node.Site)}
    {fp'' : List NodeRef} (h : Comes st sp ss walk fp) (h' : Comes st sp ss' walk' fp')
    (h'' : Comes st sp ss'' walk'' fp'') :
    Comes st sp (ss ++ ss' ++ ss'') (do return (← walk) ++ (← walk') ++ (← walk''))
      (fp ++ (fp' ++ fp'')) := by
  obtain ⟨ns, rfl, hns, hrefs⟩ := h
  obtain ⟨ns', rfl, hns', hrefs'⟩ := h'
  obtain ⟨ns'', rfl, hns'', hrefs''⟩ := h''
  refine ⟨ns ++ ns' ++ ns'', rfl, List.rel_append (List.rel_append hns hns') hns'', ?_⟩
  rw [List.append_assoc, List.filterMap_append, List.filterMap_append]
  exact hrefs.append (hrefs'.append hrefs'')

theorem each {α β : Type} {R : α → β → List NodeRef → Prop} {visits : α → List (Tree.Site ν)}
    {act : β → Except Fault (List Node.Site)} {as : List α} {bs : List β}
    (h : Along R as bs fp)
    (hR : ∀ a b f, f.Sublist fp → R a b f → Comes st sp (visits a) (act b) f) :
    Comes st sp (as.flatMap visits) (visitEach act bs) fp := by
  induction h with
  | nil => exact nil
  | cons head _ ih =>
    rw [List.flatMap_cons, visitEach]
    refine (hR _ _ _ (List.sublist_append_left _ _) head).append (ih ?_)
    exact fun a b f hf => hR a b f (hf.trans (List.sublist_append_right _ _))

/-- A site comes before what is below it. -/
theorem before {s : Tree.Site ν} {n : Node.Site} (hent : EnteredAlike st sp enter enter')
    (hnodup : (n.ref?.toList ++ fp).Nodup) (hs : SiteAt st sp s n (n.ref?.toList ++ fp))
    (h : Comes st sp ss walk fp) :
    Comes st sp (s.before enter ss) (n.before enter' walk) (n.ref?.toList ++ fp) := by
  have hapart : SiteApart st sp s n := ⟨_, hnodup, hs⟩
  have hcons : ∀ ns : List Node.Site, (n :: ns).filterMap Node.Site.ref? =
      n.ref?.toList ++ ns.filterMap Node.Site.ref? := by
    intro ns
    rw [List.filterMap_cons]
    cases n.ref? <;> rfl
  obtain ⟨ns, rfl, hns, hrefs⟩ := h
  rw [Tree.Site.before, Node.Site.before, hent s n _ hs hnodup]
  cases enter s with
  | false => exact ⟨[n], rfl, .cons hapart .nil, hcons [] ▸ (List.nil_sublist fp).append_left _⟩
  | true => exact ⟨n :: ns, rfl, .cons hapart hns, hcons ns ▸ hrefs.append_left _⟩

end Comes

theorem visitEach_single {α : Type} (f : α → Except Fault (List Node.Site)) (a : α) :
    visitEach f [a] = f a := by
  rw [visitEach, visitEach]
  cases f a <;> simp [bind, Except.bind, pure, Except.pure]

/-! ## Types and expressions -/

section Nodes

variable (hent : EnteredAlike st sp enter enter')

include hent

theorem typeVisitsTo_comes {levels : Nat} {t : Tree.Ty ν} {id : TypeId} {fp : List NodeRef}
    (h : TyAt st sp t id fp) (hnodup : fp.Nodup) (hlevels : sortCount .type fp ≤ levels) :
    Comes st sp (t.visits enter) (st.typeVisitsTo enter' levels id) fp := by
  induction levels generalizing t id fp with
  | zero =>
    have := sortCount_pos h.head_mem (s := .type) rfl
    omega
  | succ levels ih =>
    cases t with
    | primitive p =>
      obtain ⟨hnode, rfl⟩ := tyAt_primitive_iff.1 h
      simp only [typeVisitsTo, type_eq_ok_iff.2 hnode, bind, Except.bind, Tree.Ty.visits]
      exact .before hent hnodup (.type hnode h) .nil
    | named s args =>
      obtain ⟨n, slice, ids, f, hnode, -, hids, hargs, rfl⟩ := tyAt_named_iff.1 h
      have hf : sortCount .type f ≤ levels := by simpa using hlevels
      simp only [typeVisitsTo, type_eq_ok_iff.2 hnode, hids, bind, Except.bind, Tree.Ty.visits,
        Tree.Ty.visitsAll_eq]
      refine .before hent hnodup (.type hnode h) (.each hargs fun t id f' hf' ht => ?_)
      exact ih ht (hf'.nodup (List.nodup_cons.1 hnodup).2)
        (Nat.le_trans (sortCount_le_of_sublist hf') hf)
    | array t =>
      obtain ⟨e, f, hnode, ht, rfl⟩ := tyAt_array_iff.1 h
      have hf : sortCount .type f ≤ levels := by simpa using hlevels
      simp only [typeVisitsTo, type_eq_ok_iff.2 hnode, bind, Except.bind, Tree.Ty.visits]
      exact .before hent hnodup (.type hnode h) (ih ht (List.nodup_cons.1 hnodup).2 hf)

theorem typeVisits_comes {t : Tree.Ty ν} {id : TypeId} {fp : List NodeRef}
    (h : TyAt st sp t id fp) (hnodup : fp.Nodup) :
    Comes st sp (t.visits enter) (st.typeVisits enter' id) fp :=
  typeVisitsTo_comes hent h hnodup
    (Nat.le_trans (sortCount_le_count hnodup h.old) (Nat.le_succ _))

omit hent in
/-- Below an expression come its types and then its operands. -/
theorem exprVisitsTo_succ {levels : Nat} {id : ExprId} {node : Node.Expr} {ids : List ExprId}
    (hnode : st.exprs[id.index]? = some node) (hids : st.operands node.kind = .ok ids) :
    st.exprVisitsTo enter' (levels + 1) id = (Node.Site.expr id node).before enter' (do
      return (← visitEach (st.typeVisits enter') node.kind.typeSlots) ++
        (← visitEach (st.exprVisitsTo enter' levels) ids)) := by
  have hnone (walk : Except Fault (List Node.Site)) :
      (do return (← visitEach (st.typeVisits enter') []) ++ (← walk)) = walk := by
    rw [visitEach]
    cases walk <;> rfl
  rw [exprVisitsTo, expr_eq_ok_iff.2 hnode]
  obtain ⟨kind, span⟩ := node
  cases kind with
  | create t args =>
    simp only [operands] at hids
    simp only [bind, Except.bind, hids, Node.ExprKind.typeSlots, visitEach_single]
  | call r n args =>
    simp only [operands, bind_eq_ok_iff, ok_pure_iff] at hids
    obtain ⟨as, has, rfl⟩ := hids
    simp only [Node.ExprKind.typeSlots, hnone]
    simp only [bind, Except.bind, has]
  | field r n | unary op r =>
    simp only [operands, ok_pure_iff] at hids
    subst hids
    simp only [Node.ExprKind.typeSlots, hnone, visitEach_single]
    rfl
  | _ =>
    simp only [operands, ok_pure_iff] at hids
    subst hids
    simp only [Node.ExprKind.typeSlots, hnone]
    rfl

omit hent in
theorem exprVisits_eq (e : Tree.Expr ν) :
    e.visits enter = (Tree.Site.expr e).before enter (e.typeParts.flatMap (Tree.Ty.visits enter) ++
      e.operands.flatMap (Tree.Expr.visits enter)) := by
  cases e with
  | call s r n args =>
    cases r <;> simp [Tree.Expr.visits, Tree.Expr.typeParts, Tree.Expr.operands,
      Tree.Expr.visitsAll_eq]
  | _ => simp [Tree.Expr.visits, Tree.Expr.typeParts, Tree.Expr.operands, Tree.Expr.visitsAll_eq]

theorem exprVisitsTo_comes {levels : Nat} {e : Tree.Expr ν} {id : ExprId} {fp : List NodeRef}
    (h : ExprAt st sp e id fp) (hnodup : fp.Nodup) (hlevels : sortCount .expr fp ≤ levels) :
    Comes st sp (e.visits enter) (st.exprVisitsTo enter' levels id) fp := by
  induction levels generalizing e id fp with
  | zero =>
    have := sortCount_pos h.head_mem (s := .expr) rfl
    omega
  | succ levels ih =>
    obtain ⟨node, ids, ft, fo, hnode, head, hids, ht, ho, rfl⟩ := exprAt_iff.1 h
    obtain ⟨hft, hfo, -⟩ := List.nodup_append.1 (List.nodup_cons.1 hnodup).2
    have hle : sortCount .expr fo ≤ levels := by simp at hlevels; omega
    rw [exprVisitsTo_succ hnode hids, exprVisits_eq]
    refine .before hent hnodup (.expr hnode h) (.append (.each ht ?_) (.each ho ?_))
    · exact fun t id f hf ht => typeVisits_comes hent ht (hf.nodup hft)
    · exact fun e id f hf he =>
        ih he (hf.nodup hfo) (Nat.le_trans (sortCount_le_of_sublist hf) hle)

theorem exprVisits_comes {e : Tree.Expr ν} {id : ExprId} {fp : List NodeRef}
    (h : ExprAt st sp e id fp) (hnodup : fp.Nodup) :
    Comes st sp (e.visits enter) (st.exprVisits enter' id) fp :=
  exprVisitsTo_comes hent h hnodup
    (Nat.le_trans (sortCount_le_count hnodup h.old) (Nat.le_succ _))

/-! ## Statements -/

theorem exprs_comes {es : List (Tree.Expr ν)} {ids : List ExprId} {fp : List NodeRef}
    (h : Along (ExprAt st sp) es ids fp) (hnodup : fp.Nodup) :
    Comes st sp (es.flatMap (Tree.Expr.visits enter)) (visitEach (st.exprVisits enter') ids) fp :=
  .each h fun _ _ _ hf he => exprVisits_comes hent he (hf.nodup hnodup)

/-- What is below an arm belongs to its switch. -/
theorem arm_comes {levels : Nat} {a : Tree.Arm ν} {id : ArmId} {fp : List NodeRef}
    (h : ArmAt st sp a id fp) (hnodup : fp.Nodup)
    (hstmt : ∀ s id f, f.Sublist fp → StmtAt st sp s id f →
      Comes st sp (s.visits enter) (st.stmtVisitsTo enter' levels id) f) :
    Comes st sp (a.parts.flatMap (Tree.Site.visits enter)) (do
      let a ← st.arm id
      return (← visitEach (st.exprVisits enter') a.label.toList) ++
        (← visitEach (st.stmtVisitsTo enter' levels) (← st.stmtList a.stmts))) fp := by
  obtain ⟨label, ss⟩ := a
  obtain ⟨a, ids, fl, fs, harm, hids, hlabel, hss, rfl⟩ := armAt_iff.1 h
  have hfl : fl.Sublist (id.ref :: (fl ++ fs)) := (List.sublist_append_left fl fs).cons _
  have hfs : fs.Sublist (id.ref :: (fl ++ fs)) := (List.sublist_append_right fl fs).cons _
  rw [Tree.Arm.parts, List.flatMap_append, List.flatMap_map, List.flatMap_map,
    arm_eq_ok_iff.2 harm]
  simp only [bind, Except.bind, hids]
  refine .mono (List.sublist_cons_self _ _) ((exprs_comes hent hlabel (hfl.nodup hnodup)).append ?_)
  exact .each hss fun s id f hf hs => hstmt s id f (hf.trans hfs) hs

theorem stmtVisitsTo_comes {levels : Nat} {s : Tree.Stmt ν} {id : StmtId} {fp : List NodeRef}
    (h : StmtAt st sp s id fp) (hnodup : fp.Nodup) (hlevels : sortCount .stmt fp ≤ levels) :
    Comes st sp (s.visits enter) (st.stmtVisitsTo enter' levels id) fp := by
  -- A level is used up for each statement node on the way down, and all of these are distinct.
  induction levels generalizing s id fp with
  | zero =>
    have := sortCount_pos h.head_mem (s := .stmt) rfl
    omega
  | succ levels ih =>
    have hexpr : ∀ (e : Tree.Expr ν) (id : ExprId) (f : List NodeRef), f.Sublist fp →
        ExprAt st sp e id f → Comes st sp (e.visits enter) (st.exprVisits enter' id) f :=
      fun e id f hf he => exprVisits_comes hent he (hf.nodup hnodup)
    have hstmt : ∀ (s : Tree.Stmt ν) (id' : StmtId) (f : List NodeRef), (id.ref :: f).Sublist fp →
        StmtAt st sp s id' f →
        Comes st sp (s.visits enter) (st.stmtVisitsTo enter' levels id') f := by
      intro s id' f hf hs
      have hlt := sortCount_le_of_sublist (s := .stmt) hf
      rw [sortCount_cons, if_pos (NodeId.sort_ref id)] at hlt
      exact ih hs (((List.sublist_cons_self _ _).trans hf).nodup hnodup) (by omega)
    cases s with
    | expr span e =>
      obtain ⟨e', f, hnode, he, rfl⟩ := stmtAt_expr_iff.1 h
      simp only [stmtVisitsTo, stmt_eq_ok_iff.2 hnode, bind, Except.bind, Tree.Stmt.visits]
      exact .before hent hnodup (.stmt hnode h) (hexpr e e' f (by simp) he)
    | localVar span t s init isFinal =>
      obtain ⟨t', n, init', ft, fi, hnode, -, ht, hi, rfl⟩ := stmtAt_localVar_iff.1 h
      have hft : ft.Sublist (id.ref :: (ft ++ fi)) := (List.sublist_append_left ft fi).cons _
      have hfi : fi.Sublist (id.ref :: (ft ++ fi)) := (List.sublist_append_right ft fi).cons _
      rw [stmtVisitsTo, stmt_eq_ok_iff.2 hnode, Tree.Stmt.visits, Tree.optionVisits_eq]
      exact .before hent hnodup (.stmt hnode h)
        ((typeVisits_comes hent ht (hft.nodup hnodup)).append
          (exprs_comes hent hi (hfi.nodup hnodup)))
    | block span ss =>
      obtain ⟨b, ids, f, hnode, hids, hss, rfl⟩ := stmtAt_block_iff.1 h
      simp only [stmtVisitsTo, stmt_eq_ok_iff.2 hnode, hids, bind, Except.bind, Tree.Stmt.visits,
        Tree.Stmt.visitsAll_eq]
      exact .before hent hnodup (.stmt hnode h) (.before hent (List.nodup_cons.1 hnodup).2
        (.block (.inr ⟨id.index, hnode⟩) hids hss)
        (.each hss fun s id' f' hf' hs => hstmt s id' f' (.cons_cons _ hf') hs))
    | ifElse span c t e =>
      obtain ⟨c', t', e', fc, ft, fe, hnode, hc, ht, he, rfl⟩ := stmtAt_ifElse_iff.1 h
      have hbranches : Along (StmtAt st sp) (t :: e.toList) (t' :: e'.toList) (ft ++ fe) :=
        .cons ht he
      have hvisits : (Tree.Stmt.ifElse span c t e).visits enter =
          (Tree.Site.stmt (.ifElse span c t e)).before enter
            (c.visits enter ++ (t :: e.toList).flatMap (Tree.Stmt.visits enter)) := by
        cases e <;> simp [Tree.Stmt.visits]
      rw [stmtVisitsTo, stmt_eq_ok_iff.2 hnode, hvisits]
      refine .before hent hnodup (.stmt hnode h) ((hexpr c c' fc (by simp) hc).append
        (.each hbranches fun s id' f hf hs => hstmt s id' f (.cons_cons _ ?_) hs))
      exact hf.trans (List.sublist_append_right _ _)
    | whileLoop span c b =>
      obtain ⟨c', b', fc, fb, hnode, hc, hb, rfl⟩ := stmtAt_whileLoop_iff.1 h
      rw [stmtVisitsTo, stmt_eq_ok_iff.2 hnode, Tree.Stmt.visits]
      exact .before hent hnodup (.stmt hnode h) ((hexpr c c' fc (by simp) hc).append
        (hstmt b b' fb (.cons_cons _ (List.sublist_append_right _ _)) hb))
    | switch span sel arms =>
      obtain ⟨sel', slice, ids, fs, fa, hnode, hids, hs, ha, rfl⟩ := stmtAt_switch_iff.1 h
      have hfa : (id.ref :: fa).Sublist (id.ref :: (fs ++ fa)) :=
        .cons_cons _ (List.sublist_append_right fs fa)
      simp only [stmtVisitsTo, stmt_eq_ok_iff.2 hnode, hids, bind, Except.bind, Tree.Stmt.visits,
        Tree.Arm.visitsAll_eq, List.flatMap_assoc]
      refine .before hent hnodup (.stmt hnode h) ((hexpr sel sel' fs (by simp) hs).append
        (.each ha fun a id' f hf harm => arm_comes hent harm ?_ fun s id' f' hf' hs => ?_))
      · exact (hf.trans ((List.sublist_cons_self _ _).trans hfa)).nodup hnodup
      · exact hstmt s id' f' ((List.Sublist.cons_cons _ (hf'.trans hf)).trans hfa) hs
    | returnWith span v =>
      obtain ⟨v', f, hnode, hv, rfl⟩ := stmtAt_returnWith_iff.1 h
      rw [stmtVisitsTo, stmt_eq_ok_iff.2 hnode, Tree.Stmt.visits, Tree.optionVisits_eq]
      exact .before hent hnodup (.stmt hnode h)
        (exprs_comes hent hv (List.nodup_cons.1 hnodup).2)
    | breakOut span =>
      obtain ⟨hnode, rfl⟩ := (stmtAt_leaf_iff .breakOut (by simp [Tree.Stmt.span])).1 h
      rw [stmtVisitsTo, stmt_eq_ok_iff.2 hnode, Tree.Stmt.visits]
      exact .before hent hnodup (.stmt hnode h) .nil
    | continueOn span =>
      obtain ⟨hnode, rfl⟩ := (stmtAt_leaf_iff .continueOn (by simp [Tree.Stmt.span])).1 h
      rw [stmtVisitsTo, stmt_eq_ok_iff.2 hnode, Tree.Stmt.visits]
      exact .before hent hnodup (.stmt hnode h) .nil
    | empty span =>
      obtain ⟨hnode, rfl⟩ := (stmtAt_leaf_iff .empty (by simp [Tree.Stmt.span])).1 h
      rw [stmtVisitsTo, stmt_eq_ok_iff.2 hnode, Tree.Stmt.visits]
      exact .before hent hnodup (.stmt hnode h) .nil

theorem stmtVisits_comes {s : Tree.Stmt ν} {id : StmtId} {fp : List NodeRef}
    (h : StmtAt st sp s id fp) (hnodup : fp.Nodup) :
    Comes st sp (s.visits enter) (st.stmtVisits enter' id) fp :=
  stmtVisitsTo_comes hent h hnodup
    (Nat.le_trans (sortCount_le_count hnodup h.old) (Nat.le_succ _))

/-! ## Items -/

theorem BodyAt.visits {b : Tree.Body ν} {b' : Node.Block} {fp : List NodeRef}
    (h : BodyAt st sp b b' fp) (hnodup : fp.Nodup) :
    Comes st sp (b.visits enter) (st.bodyVisits enter' b') fp := by
  obtain ⟨hspan, ids, hids, hss⟩ := h
  rw [bodyVisits, hids, Tree.Body.visits, Tree.Stmt.visitsAll_eq]
  exact .before hent hnodup (.block (.inl hspan) hids hss) (.each hss fun _ _ _ hf hs =>
    stmtVisits_comes hent hs (hf.nodup hnodup))

theorem ParamAt.visits {p : Tree.Param ν} {p' : Node.Param} {fp : List NodeRef}
    (h : ParamAt st sp p p' fp) (hnodup : fp.Nodup) :
    Comes st sp (Tree.paramVisits enter p) (st.paramVisits enter' p') fp :=
  .before hent hnodup (.param h) (typeVisits_comes hent h.2.2 hnodup)

theorem MemberAt.visits {m : Tree.Member ν} {m' : Node.Member} {fp : List NodeRef}
    (h : MemberAt st sp m m' fp) (hnodup : fp.Nodup) :
    Comes st sp (Tree.memberVisits enter m) (st.memberVisits enter' m') fp := by
  cases h with
  | @field f f' ft fi name isStatic span type init =>
    obtain ⟨hft, hfi, -⟩ := List.nodup_append.1 hnodup
    have hfield : MemberAt st sp (.field f) (.field f') (ft ++ fi) :=
      .field name isStatic span type init
    rw [Tree.memberVisits, Tree.optionVisits_eq]
    exact .before hent hnodup (.fieldDecl hfield)
      ((typeVisits_comes hent type hft).append (exprs_comes hent init hfi))
  | @method d d' fr fps fb name isStatic span result params body =>
    obtain ⟨hfr, hrest, -⟩ := List.nodup_append.1 hnodup
    obtain ⟨hfps, hfb, -⟩ := List.nodup_append.1 hrest
    have hmethod : MemberAt st sp (.method d) (.method d') (fr ++ (fps ++ fb)) :=
      .method name isStatic span result params body
    rw [Tree.memberVisits, Tree.optionVisits_eq, Tree.optionVisits_eq]
    refine .before hent hnodup (.methodDecl hmethod)
      (.append₃ (.each result ?_) (.each params ?_) (.each body ?_))
    · exact fun _ _ _ hf ht => typeVisits_comes hent ht (hf.nodup hfr)
    · exact fun _ _ _ hf hp => hp.visits hent (hf.nodup hfps)
    · exact fun _ _ _ hf hb => hb.visits hent (hf.nodup hfb)
  | initializer isStatic span body =>
    exact .before hent hnodup (.initializerDecl (.initializer isStatic span body))
      (body.visits hent hnodup)

theorem ClassAt.visits {c : Tree.Class ν} {c' : Node.Class} {fp : List NodeRef}
    (h : ClassAt st sp c c' fp) (hnodup : fp.Nodup) :
    Comes st sp (Tree.classVisits enter c) (st.classVisits enter' c') fp :=
  .before hent hnodup (.classDecl h) (.each h.2.2 fun _ _ _ hf hm =>
    hm.visits hent (hf.nodup hnodup))

end Nodes

/-- A walk over a stored unit comes to sites that stand for those of the tree. -/
theorem UnitAt.visits {p : Program} {u : Tree.CompilationUnit ν} {fp : List NodeRef}
    (h : UnitAt p sp u fp) (hnodup : fp.Nodup) (hent : EnteredAlike p.store sp enter enter') :
    Comes p.store sp (Tree.unitVisits enter u) (p.visits enter') fp := by
  have himports : Comes p.store sp
      (u.imports.flatMap fun i => (Tree.Site.importDecl i).before enter [])
      (visitEach (fun i => (Node.Site.importDecl i).before enter' (return [])) p.unit.imports) [] :=
    .each h.2.2.1 fun i i' f hf hi => by
      have hnil : f.Nodup := hf.nodup .nil
      exact .before hent hnil (.importDecl hi) .nil
  exact .before hent hnodup (.unit h) (himports.append (.each h.2.2.2 fun _ _ _ hf hc =>
    hc.visits hent (hf.nodup hnodup)))

/-! ## Identifiers -/

theorem SiteAt.identifier? {s : Tree.Site ν} {n : Node.Site} {fp : List NodeRef}
    (h : SiteAt st sp s n fp) : Option.Rel sp n.identifier? s.identifier? := by
  cases h with
  | classDecl h => exact .some h.1
  | fieldDecl h =>
    cases h with
    | field name => exact .some name
  | methodDecl h =>
    cases h with
    | method name => exact .some name
  | param h => exact .some h.1
  | stmt hnode h =>
    obtain ⟨node, _, _, hnode', head, -⟩ := stmtAt_iff.1 h
    obtain rfl := Option.some.inj (hnode.symm.trans hnode')
    cases head with
    | localVar _ _ _ _ _ hn => exact .some hn
    | _ => exact .none
  | expr hnode h =>
    obtain ⟨node, _, _, _, hnode', head, -⟩ := exprAt_iff.1 h
    obtain rfl := Option.some.inj (hnode.symm.trans hnode')
    cases head with
    | ident _ hn | field _ _ _ hn | call _ _ _ _ hn => exact .some hn
    | _ => exact .none
  | type hnode h =>
    obtain ⟨node, _, _, hnode', head, -⟩ := tyAt_iff.1 h
    obtain rfl := Option.some.inj (hnode.symm.trans hnode')
    cases head with
    | named _ _ hn => exact .some hn
    | _ => exact .none
  | _ => exact .none

/-- The identifiers of a program stand for those of the tree, one by one. -/
theorem UnitAt.identifiers {p : Program} {u : Tree.CompilationUnit ν} {fp : List NodeRef}
    (h : UnitAt p sp u fp) (hnodup : fp.Nodup) :
    ∃ ns, p.identifiers = .ok ns ∧ List.Forall₂ sp ns (Tree.identifiers u) := by
  have hcomes : Comes p.store sp (Tree.unitVisits (fun _ => true) u) (p.visits fun _ => true) fp :=
    h.visits hnodup fun _ _ _ _ _ => rfl
  obtain ⟨sites, hsites, hall, -⟩ := hcomes
  refine ⟨sites.filterMap Node.Site.identifier?, ?_, ?_⟩
  · simp only [Program.identifiers, Program.sites, hsites]
    rfl
  · refine List.rel_filterMap (R := fun n s => SiteApart p.store sp s n) ?_ hall.flip
    rintro n s ⟨f, -, hs⟩
    exact hs.identifier?

end TupleAssign
