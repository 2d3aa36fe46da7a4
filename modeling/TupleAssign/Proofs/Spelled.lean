import TupleAssign.Tree.Visit
/-!
# The names spelled in a tree

`unitNames` lists the names of a unit by recursion on its trees: of classes, fields, methods,
parameters and locals, of types, and of variables, members and calls. The identifiers that are
reserved before a run are this list (`identifiers_eq`), so no position of a name is missed.
-/

namespace TupleAssign

namespace Tree

/-! ## Names of a tree -/

mutual

def Ty.names : Ty → List String
  | .primitive _ => []
  | .named n args => n :: Ty.namesAll args
  | .array t => Ty.names t

def Ty.namesAll : List Ty → List String
  | [] => []
  | t :: ts => Ty.names t ++ Ty.namesAll ts

end

mutual

def Expr.names : Expr → List String
  | .int _ _ | .bool _ _ | .str _ _ | .null _ | .self _ => []
  | .ident _ n => [n]
  | .field _ e n => n :: Expr.names e
  | .index _ e i => Expr.names e ++ Expr.names i
  | .call _ none n args => n :: Expr.namesAll args
  | .call _ (some e) n args => n :: (Expr.names e ++ Expr.namesAll args)
  | .create _ t args => t.names ++ Expr.namesAll args
  | .unary _ _ e => Expr.names e
  | .binary _ _ a b => Expr.names a ++ Expr.names b
  | .conditional _ c t e => Expr.names c ++ (Expr.names t ++ Expr.names e)
  | .assign _ t v => Expr.names t ++ Expr.names v

def Expr.namesAll : List Expr → List String
  | [] => []
  | e :: es => Expr.names e ++ Expr.namesAll es

end

/-- The names of a part that may be absent. -/
def optionNames {α : Type} (f : α → List String) (o : Option α) : List String := o.toList.flatMap f

@[simp]
theorem optionNames_some {α : Type} (f : α → List String) (a : α) :
    optionNames f (some a) = f a := by
  rw [optionNames, Option.toList_some, List.flatMap_singleton]

mutual

def Stmt.names : Stmt → List String
  | .expr _ e => e.names
  | .localVar _ t n init _ => n :: (t.names ++ optionNames Expr.names init)
  | .block _ ss => Stmt.namesAll ss
  | .ifElse _ c t none => c.names ++ Stmt.names t
  | .ifElse _ c t (some e) => c.names ++ (Stmt.names t ++ Stmt.names e)
  | .whileLoop _ c b => c.names ++ Stmt.names b
  | .switch _ sel as => sel.names ++ Arm.namesAll as
  | .returnWith _ v => optionNames Expr.names v
  | .breakOut _ | .continueOn _ | .empty _ => []

def Stmt.namesAll : List Stmt → List String
  | [] => []
  | s :: ss => Stmt.names s ++ Stmt.namesAll ss

def Arm.namesAll : List Arm → List String
  | [] => []
  | .mk label ss :: as =>
    optionNames Expr.names label ++ (Stmt.namesAll ss ++ Arm.namesAll as)

end

def Body.names (b : Body) : List String := Stmt.namesAll b.stmts

def paramNames (p : Param) : List String := p.name :: p.type.names

def memberNames : Member → List String
  | .field f => f.name :: (f.type.names ++ optionNames Expr.names f.init)
  | .method d => d.name ::
      (optionNames Ty.names d.result ++ (d.params.flatMap paramNames ++
        optionNames Body.names d.body))
  | .initializer i => i.body.names

def classNames (c : Class) : List String := c.name :: c.members.flatMap memberNames

def unitNames (u : CompilationUnit) : List String := u.classes.flatMap classNames

theorem Ty.names_subset {ts : List Ty} {t : Ty} (h : t ∈ ts) : t.names ⊆ Ty.namesAll ts := by
  induction ts with
  | nil => cases h
  | cons t' ts ih =>
    rw [Ty.namesAll]
    rcases List.mem_cons.1 h with rfl | h
    · exact List.subset_append_left _ _
    · exact List.subset_append_of_subset_right _ (ih h)

theorem Expr.names_subset {es : List Expr} {e : Expr} (h : e ∈ es) : e.names ⊆ Expr.namesAll es := by
  induction es with
  | nil => cases h
  | cons e' es ih =>
    rw [Expr.namesAll]
    rcases List.mem_cons.1 h with rfl | h
    · exact List.subset_append_left _ _
    · exact List.subset_append_of_subset_right _ (ih h)

theorem Stmt.namesAll_append (ss ss' : List Stmt) :
    Stmt.namesAll (ss ++ ss') = Stmt.namesAll ss ++ Stmt.namesAll ss' := by
  induction ss with
  | nil => rfl
  | cons s ss ih => rw [List.cons_append, Stmt.namesAll, Stmt.namesAll, ih, List.append_assoc]

/-! ## They are the identifiers of the sites -/

section Spelled

/-- The names that are spelled at some sites. -/
def spelled (ss : List Site) : List String := ss.filterMap Site.identifier?

theorem spelled_append (ss ss' : List Site) : spelled (ss ++ ss') = spelled ss ++ spelled ss' :=
  List.filterMap_append

theorem spelled_flatMap {α : Type} (f : α → List Site) (as : List α) :
    spelled (as.flatMap f) = as.flatMap fun a => spelled (f a) :=
  List.filterMap_flatMap

/-- All children of a site are come to. -/
theorem spelled_before (s : Site) (ss : List Site) :
    spelled (s.before (fun _ => true) ss) = s.identifier?.toList ++ spelled ss := by
  cases h : s.identifier? <;> simp [spelled, Site.before, h]

theorem spelled_option {α : Type} {visits : α → List Site} {names : α → List String}
    (h : ∀ a, spelled (visits a) = names a) (o : Option α) :
    spelled (optionVisits visits o) = optionNames names o := by
  cases o with
  | none => rfl
  | some a => rw [optionVisits, h, optionNames_some]

mutual

theorem spelled_ty : ∀ t : Ty, spelled (t.visits fun _ => true) = t.names
  | .primitive p => by
    rw [Ty.visits, spelled_before, Ty.names]
    rfl
  | .named n args => by
    rw [Ty.visits, spelled_before, spelled_tys args, Ty.names]
    rfl
  | .array t => by
    rw [Ty.visits, spelled_before, spelled_ty t, Ty.names]
    rfl

theorem spelled_tys : ∀ ts : List Ty, spelled (Ty.visitsAll (fun _ => true) ts) = Ty.namesAll ts
  | [] => by
    rw [Ty.visitsAll, Ty.namesAll]
    rfl
  | t :: ts => by rw [Ty.visitsAll, spelled_append, spelled_ty t, spelled_tys ts, Ty.namesAll]

end

mutual

theorem spelled_expr : ∀ e : Expr, spelled (e.visits fun _ => true) = e.names
  | .int _ _ | .bool _ _ | .str _ _ | .null _ | .self _ | .ident _ _ => by
    rw [Expr.visits, spelled_before, Expr.names]
    rfl
  | .field _ e _ => by
    rw [Expr.visits, spelled_before, spelled_expr e, Expr.names]
    rfl
  | .index _ e i => by
    rw [Expr.visits, spelled_before, spelled_append, spelled_expr e, spelled_expr i, Expr.names]
    rfl
  | .call _ none _ args => by
    rw [Expr.visits, spelled_before, spelled_exprs args, Expr.names]
    rfl
  | .call _ (some e) _ args => by
    rw [Expr.visits, spelled_before, spelled_append, spelled_expr e, spelled_exprs args,
      Expr.names]
    rfl
  | .create _ t args => by
    rw [Expr.visits, spelled_before, spelled_append, spelled_ty t, spelled_exprs args, Expr.names]
    rfl
  | .unary _ _ e => by
    rw [Expr.visits, spelled_before, spelled_expr e, Expr.names]
    rfl
  | .binary _ _ a b => by
    rw [Expr.visits, spelled_before, spelled_append, spelled_expr a, spelled_expr b, Expr.names]
    rfl
  | .conditional _ c t e => by
    rw [Expr.visits, spelled_before, spelled_append, spelled_append, spelled_expr c,
      spelled_expr t, spelled_expr e, Expr.names, List.append_assoc]
    rfl
  | .assign _ t v => by
    rw [Expr.visits, spelled_before, spelled_append, spelled_expr t, spelled_expr v, Expr.names]
    rfl

theorem spelled_exprs : ∀ es : List Expr,
    spelled (Expr.visitsAll (fun _ => true) es) = Expr.namesAll es
  | [] => by
    rw [Expr.visitsAll, Expr.namesAll]
    rfl
  | e :: es => by
    rw [Expr.visitsAll, spelled_append, spelled_expr e, spelled_exprs es, Expr.namesAll]

end

mutual

theorem spelled_stmt : ∀ t : Stmt, spelled (t.visits fun _ => true) = t.names
  | .expr _ e => by
    rw [Stmt.visits, spelled_before, spelled_expr, Stmt.names]
    rfl
  | .localVar _ t _ init _ => by
    rw [Stmt.visits, spelled_before, spelled_append, spelled_ty, spelled_option spelled_expr,
      Stmt.names]
    rfl
  | .block _ ss => by
    rw [Stmt.visits, spelled_before, spelled_before, spelled_stmts ss, Stmt.names]
    rfl
  | .ifElse _ c t none => by
    rw [Stmt.visits, spelled_before, spelled_append, spelled_expr, spelled_stmt t, Stmt.names]
    rfl
  | .ifElse _ c t (some e) => by
    rw [Stmt.visits, spelled_before, spelled_append, spelled_append, spelled_expr, spelled_stmt t,
      spelled_stmt e, Stmt.names, List.append_assoc]
    rfl
  | .whileLoop _ c b => by
    rw [Stmt.visits, spelled_before, spelled_append, spelled_expr, spelled_stmt b, Stmt.names]
    rfl
  | .switch _ sel as => by
    rw [Stmt.visits, spelled_before, spelled_append, spelled_expr, spelled_arms as, Stmt.names]
    rfl
  | .returnWith _ v => by
    rw [Stmt.visits, spelled_before, spelled_option spelled_expr, Stmt.names]
    rfl
  | .breakOut _ | .continueOn _ | .empty _ => by
    rw [Stmt.visits, spelled_before, Stmt.names]
    rfl

theorem spelled_stmts : ∀ ss : List Stmt,
    spelled (Stmt.visitsAll (fun _ => true) ss) = Stmt.namesAll ss
  | [] => by
    rw [Stmt.visitsAll, Stmt.namesAll]
    rfl
  | s :: ss => by
    rw [Stmt.visitsAll, spelled_append, spelled_stmt s, spelled_stmts ss, Stmt.namesAll]

theorem spelled_arms : ∀ as : List Arm,
    spelled (Arm.visitsAll (fun _ => true) as) = Arm.namesAll as
  | [] => by
    rw [Arm.visitsAll, Arm.namesAll]
    rfl
  | .mk label ss :: as => by
    rw [Arm.visitsAll, spelled_append, spelled_append, spelled_option spelled_expr,
      spelled_stmts ss, spelled_arms as, Arm.namesAll, List.append_assoc]

end

theorem spelled_body (b : Body) : spelled (b.visits fun _ => true) = b.names := by
  rw [Body.visits, spelled_before, spelled_stmts, Body.names]
  rfl

theorem spelled_param (p : Param) : spelled (paramVisits (fun _ => true) p) = paramNames p := by
  rw [paramVisits, spelled_before, spelled_ty, paramNames]
  rfl

theorem spelled_member (m : Member) : spelled (memberVisits (fun _ => true) m) = memberNames m := by
  cases m with
  | field f =>
    rw [memberVisits, spelled_before, spelled_append, spelled_ty, spelled_option spelled_expr]
    rfl
  | method d =>
    have hparams : spelled (d.params.flatMap (paramVisits fun _ => true)) =
        d.params.flatMap paramNames := by
      simp only [spelled_flatMap, spelled_param]
    rw [memberVisits, spelled_before, spelled_append, spelled_append, spelled_option spelled_ty,
      hparams, spelled_option spelled_body, List.append_assoc]
    rfl
  | initializer i =>
    rw [memberVisits, spelled_before, spelled_body]
    rfl

theorem spelled_class (c : Class) : spelled (classVisits (fun _ => true) c) = classNames c := by
  rw [classVisits, spelled_before, spelled_flatMap, classNames]
  simp only [spelled_member]
  rfl

/-- Every name of a unit is an identifier of the unit, as often as it is spelled. -/
theorem identifiers_eq (u : CompilationUnit) : identifiers u = unitNames u := by
  have himports : spelled (u.imports.flatMap fun i =>
      (Site.importDecl i).before (fun _ => true) []) = [] := by
    rw [spelled_flatMap]
    exact List.flatMap_eq_nil_iff.2 fun i _ => spelled_before _ []
  calc identifiers u = spelled (unitVisits (fun _ => true) u) := rfl
    _ = unitNames u := by
      rw [unitVisits, spelled_before, spelled_append, himports, spelled_flatMap, unitNames]
      simp only [spelled_class]
      rfl

end Spelled

end Tree

end TupleAssign
