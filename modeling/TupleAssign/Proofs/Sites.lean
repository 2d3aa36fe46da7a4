import TupleAssign.Proofs.Accounting
/-!
# Unpackings as sites

The unpackings of a unit that are not inside another one are the sites at which a walk over the unit
finds one, if it enters everything but unpackings (`unitUnpackings_eq`).
-/

namespace TupleAssign

open TupleAssign.Tree (Ty Expr Stmt Arm Site)

/-- The unpacking that stands at a site, if there is one. -/
def Tree.Site.unpacking? (r : Resolver) : Site → Option Unpacking
  | .expr e => r.unpacking? e
  | _ => none

namespace Rewrite

section Visits

variable (r : Resolver)

/-- A walk enters everything but unpackings. -/
def entered (s : Site) : Bool := (s.unpacking? r).isNone

/-- The unpackings that are come to at some sites. -/
def found (ss : List Site) : List Unpacking := ss.filterMap (Site.unpacking? r)

theorem found_append (ss ss' : List Site) : found r (ss ++ ss') = found r ss ++ found r ss' :=
  List.filterMap_append

theorem found_flatMap {α : Type} (f : α → List Site) (as : List α) :
    found r (as.flatMap f) = as.flatMap fun a => found r (f a) :=
  List.filterMap_flatMap

theorem found_before_of_some {s : Site} {a : Unpacking} (h : s.unpacking? r = some a)
    (ss : List Site) : found r (s.before (entered r) ss) = [a] := by
  simp [found, Site.before, entered, h]

theorem found_before_of_none {s : Site} (h : s.unpacking? r = none) (ss : List Site) :
    found r (s.before (entered r) ss) = found r ss := by
  simp [found, Site.before, entered, h]

mutual

/-- There is nothing to unpack in a type. -/
theorem found_ty : ∀ t : Ty, found r (t.visits (entered r)) = []
  | .primitive p => by
    rw [Ty.visits, found_before_of_none r rfl]
    rfl
  | .named n args => by
    rw [Ty.visits, found_before_of_none r rfl, found_tys args]
  | .array t => by
    rw [Ty.visits, found_before_of_none r rfl, found_ty t]

theorem found_tys : ∀ ts : List Ty, found r (Ty.visitsAll (entered r) ts) = []
  | [] => by
    rw [Ty.visitsAll]
    rfl
  | t :: ts => by
    rw [Ty.visitsAll, found_append, found_ty t, found_tys ts]
    rfl

end

mutual

theorem found_expr : ∀ e : Expr, found r (e.visits (entered r)) = unpackings r e
  | .int _ _ | .bool _ _ | .str _ _ | .null _ | .self _ | .ident _ _ => by
    rw [Expr.visits, found_before_of_none r rfl, unpackings]
    rfl
  | .field _ e _ => by
    rw [Expr.visits, found_before_of_none r rfl, unpackings, found_expr e]
  | .index _ e i => by
    rw [Expr.visits, found_before_of_none r rfl, unpackings, found_append, found_expr e,
      found_expr i]
  | .call _ none _ args => by
    rw [Expr.visits, found_before_of_none r rfl, unpackings, found_exprs args]
  | .call _ (some e) _ args => by
    rw [Expr.visits, found_before_of_none r rfl, unpackings, found_append, found_expr e,
      found_exprs args]
  | .create _ t args => by
    rw [Expr.visits, found_before_of_none r rfl, unpackings, found_append, found_ty r t,
      found_exprs args]
    rfl
  | .unary _ _ e => by
    rw [Expr.visits, found_before_of_none r rfl, unpackings, found_expr e]
  | .binary _ _ a b => by
    rw [Expr.visits, found_before_of_none r rfl, unpackings, found_append, found_expr a,
      found_expr b]
  | .conditional _ c t e => by
    rw [Expr.visits, found_before_of_none r rfl, unpackings, found_append, found_append,
      found_expr c, found_expr t, found_expr e, List.append_assoc]
  | .assign s t v => by
    rw [Expr.visits, unpackings]
    cases hu : r.unpacking? (.assign s t v) with
    | some a => rw [found_before_of_some r (s := .expr (.assign s t v)) hu]
    | none =>
      rw [found_before_of_none r (s := .expr (.assign s t v)) hu, found_append, found_expr t,
        found_expr v]

theorem found_exprs : ∀ es : List Expr,
    found r (Expr.visitsAll (entered r) es) = unpackingsAll r es
  | [] => by
    rw [Expr.visitsAll, unpackingsAll]
    rfl
  | e :: es => by
    rw [Expr.visitsAll, unpackingsAll, found_append, found_expr e, found_exprs es]

end

theorem found_expr? (o : Option Expr) :
    found r (Tree.optionVisits (Expr.visits (entered r)) o) = unpackings? r o := by
  cases o with
  | none => rfl
  | some e => rw [Tree.optionVisits, found_expr, unpackings?_some]

mutual

theorem found_stmt : ∀ t : Stmt, found r (t.visits (entered r)) = stmtUnpackings r t
  | .expr _ e => by
    rw [Stmt.visits, found_before_of_none r rfl, stmtUnpackings, found_expr]
  | .localVar _ t _ init _ => by
    rw [Stmt.visits, found_before_of_none r rfl, stmtUnpackings, found_append, found_ty,
      found_expr?]
    rfl
  | .block _ ss => by
    rw [Stmt.visits, found_before_of_none r rfl, found_before_of_none r rfl, stmtUnpackings,
      found_stmts ss]
  | .ifElse _ c t none => by
    rw [Stmt.visits, found_before_of_none r rfl, stmtUnpackings, found_append, found_expr,
      found_stmt t]
  | .ifElse _ c t (some e) => by
    rw [Stmt.visits, found_before_of_none r rfl, stmtUnpackings, found_append, found_append,
      found_expr, found_stmt t, found_stmt e, List.append_assoc]
  | .whileLoop _ c b => by
    rw [Stmt.visits, found_before_of_none r rfl, stmtUnpackings, found_append, found_expr,
      found_stmt b]
  | .switch _ sel as => by
    rw [Stmt.visits, found_before_of_none r rfl, stmtUnpackings, found_append, found_expr,
      found_arms as]
  | .returnWith _ v => by
    rw [Stmt.visits, found_before_of_none r rfl, stmtUnpackings, found_expr?]
  | .breakOut _ | .continueOn _ | .empty _ => by
    rw [Stmt.visits, found_before_of_none r rfl, stmtUnpackings]
    rfl

theorem found_stmts : ∀ ss : List Stmt,
    found r (Stmt.visitsAll (entered r) ss) = stmtsUnpackings r ss
  | [] => by
    rw [Stmt.visitsAll, stmtsUnpackings]
    rfl
  | s :: ss => by
    rw [Stmt.visitsAll, stmtsUnpackings, found_append, found_stmt s, found_stmts ss]

theorem found_arms : ∀ as : List Arm,
    found r (Arm.visitsAll (entered r) as) = armsUnpackings r as
  | [] => by
    rw [Arm.visitsAll, armsUnpackings]
    rfl
  | .mk label ss :: as => by
    rw [Arm.visitsAll, armsUnpackings, found_append, found_append, found_expr?, found_stmts ss,
      found_arms as, List.append_assoc]

end

theorem found_body (b : Tree.Body) :
    found r (b.visits (entered r)) = stmtsUnpackings r b.stmts := by
  rw [Tree.Body.visits, found_before_of_none r rfl, found_stmts]

theorem found_params (ps : List Tree.Param) :
    found r (ps.flatMap (Tree.paramVisits (entered r))) = [] := by
  rw [found_flatMap]
  refine List.flatMap_eq_nil_iff.2 fun p _ => ?_
  rw [Tree.paramVisits, found_before_of_none r rfl, found_ty]

theorem found_member (m : Tree.Member) :
    found r (Tree.memberVisits (entered r) m) = memberUnpackings r m := by
  cases m with
  | field f =>
    rw [Tree.memberVisits, found_before_of_none r rfl, found_append, found_ty, found_expr?]
    rfl
  | method d =>
    have hresult : found r (Tree.optionVisits (Ty.visits (entered r)) d.result) = [] := by
      cases d.result with
      | none => rfl
      | some t => exact found_ty r t
    have hbody : found r (Tree.optionVisits (Tree.Body.visits (entered r)) d.body) =
        d.body.toList.flatMap fun b => stmtsUnpackings r b.stmts := by
      cases d.body with
      | none => rfl
      | some b => rw [Tree.optionVisits, found_body, Option.toList_some, List.flatMap_singleton]
    rw [Tree.memberVisits, found_before_of_none r rfl, found_append, found_append, hresult,
      found_params, hbody]
    rfl
  | initializer i =>
    rw [Tree.memberVisits, found_before_of_none r rfl, found_body]
    rfl

theorem found_class (c : Tree.Class) :
    found r (Tree.classVisits (entered r) c) = classUnpackings r c := by
  rw [Tree.classVisits, found_before_of_none r rfl, found_flatMap, classUnpackings]
  simp only [found_member]

/-- The unpackings of a unit are those that a walk comes to which does not look into unpackings. -/
theorem unitUnpackings_eq (u : Tree.CompilationUnit) :
    unitUnpackings r u = found r (Tree.unitVisits (entered r) u) := by
  have himports : found r (u.imports.flatMap fun i =>
      (Site.importDecl i).before (entered r) []) = [] := by
    rw [found_flatMap]
    exact List.flatMap_eq_nil_iff.2 fun i _ => found_before_of_none r rfl []
  rw [Tree.unitVisits, found_before_of_none r rfl, found_append, himports, found_flatMap,
    unitUnpackings, List.nil_append]
  simp only [found_class]

end Visits

end Rewrite

end TupleAssign
