import Mathlib.Data.List.Basic
import Mathlib.Logic.Relation
import TupleAssign.Tree.Visit
/-!
# What a tree contains

A site has parts, and a tree contains the site at its root, the parts of that site, their parts and
so on. A walk that enters every site comes to exactly the sites that the tree contains
(`Site.mem_visits_iff`, `mem_sites_iff`).
-/

namespace TupleAssign.Tree

variable {ν : Type}

/-! ## Parts -/

def Ty.parts : Ty ν → List (Site ν)
  | .primitive _ => []
  | .named _ args => args.map .type
  | .array elem => [.type elem]

def Expr.parts : Expr ν → List (Site ν)
  | .int _ _ | .bool _ _ | .str _ _ | .null _ | .self _ | .ident _ _ => []
  | .field _ r _ => [.expr r]
  | .index _ r i => [.expr r, .expr i]
  | .call _ r _ args => r.toList.map .expr ++ args.map .expr
  | .create _ t args => .type t :: args.map .expr
  | .unary _ _ e => [.expr e]
  | .binary _ _ l r => [.expr l, .expr r]
  | .conditional _ c t e => [.expr c, .expr t, .expr e]
  | .assign _ t v => [.expr t, .expr v]

def Arm.parts (a : Arm ν) : List (Site ν) := a.label.toList.map .expr ++ a.stmts.map .stmt

def Stmt.parts : Stmt ν → List (Site ν)
  | .expr _ e => [.expr e]
  | .localVar _ t _ init _ => .type t :: init.toList.map .expr
  | .block s stmts => [.block s stmts]
  | .ifElse _ c t e => .expr c :: .stmt t :: e.toList.map .stmt
  | .whileLoop _ c b => [.expr c, .stmt b]
  | .switch _ sel arms => .expr sel :: arms.flatMap Arm.parts
  | .returnWith _ v => v.toList.map .expr
  | .breakOut _ | .continueOn _ | .empty _ => []

def Body.site (b : Body ν) : Site ν := .block b.span b.stmts

def memberSite : Member ν → Site ν
  | .field f => .fieldDecl f
  | .method m => .methodDecl m
  | .initializer i => .initializerDecl i

namespace Site

/-- The sites right below a site, in source order. -/
def parts : Site ν → List (Site ν)
  | .unit u => u.imports.map .importDecl ++ u.classes.map .classDecl
  | .importDecl _ => []
  | .classDecl c => c.members.map memberSite
  | .fieldDecl f => .type f.type :: f.init.toList.map .expr
  | .methodDecl m =>
    m.result.toList.map .type ++ m.params.map .param ++ m.body.toList.map Body.site
  | .initializerDecl i => [i.body.site]
  | .param p => [.type p.type]
  | .block _ stmts => stmts.map .stmt
  | .stmt s => s.parts
  | .expr e => e.parts
  | .type t => t.parts

/-- The walk from a site. -/
def visits (enter : Site ν → Bool) : Site ν → List (Site ν)
  | .unit u => unitVisits enter u
  | .importDecl i => (Site.importDecl i).before enter []
  | .classDecl c => classVisits enter c
  | .fieldDecl f => memberVisits enter (.field f)
  | .methodDecl m => memberVisits enter (.method m)
  | .initializerDecl i => memberVisits enter (.initializer i)
  | .param p => paramVisits enter p
  | .block span stmts => (Site.block span stmts).before enter (Stmt.visitsAll enter stmts)
  | .stmt s => s.visits enter
  | .expr e => e.visits enter
  | .type t => t.visits enter

end Site

/-! ## A walk goes through the parts in order -/

section Parts

variable (enter : Site ν → Bool)

theorem Ty.visitsAll_eq (ts : List (Ty ν)) :
    Ty.visitsAll enter ts = ts.flatMap (Ty.visits enter) := by
  induction ts with
  | nil => rw [Ty.visitsAll, List.flatMap_nil]
  | cons t ts ih => rw [Ty.visitsAll, List.flatMap_cons, ih]

theorem Expr.visitsAll_eq (es : List (Expr ν)) :
    Expr.visitsAll enter es = es.flatMap (Expr.visits enter) := by
  induction es with
  | nil => rw [Expr.visitsAll, List.flatMap_nil]
  | cons e es ih => rw [Expr.visitsAll, List.flatMap_cons, ih]

theorem Stmt.visitsAll_eq (ss : List (Stmt ν)) :
    Stmt.visitsAll enter ss = ss.flatMap (Stmt.visits enter) := by
  induction ss with
  | nil => rw [Stmt.visitsAll, List.flatMap_nil]
  | cons s ss ih => rw [Stmt.visitsAll, List.flatMap_cons, ih]

theorem optionVisits_eq {α : Type} (f : α → List (Site ν)) (o : Option α) :
    optionVisits f o = o.toList.flatMap f := by
  cases o with
  | none => rfl
  | some a => rw [optionVisits, Option.toList_some, List.flatMap_singleton]

theorem Arm.visitsAll_eq (as : List (Arm ν)) :
    Arm.visitsAll enter as = (as.flatMap Arm.parts).flatMap (Site.visits enter) := by
  induction as with
  | nil => rw [Arm.visitsAll, List.flatMap_nil, List.flatMap_nil]
  | cons a as ih =>
    obtain ⟨label, stmts⟩ := a
    rw [Arm.visitsAll, ih, optionVisits_eq, Stmt.visitsAll_eq, List.flatMap_cons,
      List.flatMap_append, Arm.parts, List.flatMap_append, List.flatMap_map, List.flatMap_map]
    rfl

theorem visits_memberSite (m : Member ν) : (memberSite m).visits enter = memberVisits enter m := by
  cases m <;> rfl

theorem Ty.visits_eq (t : Ty ν) :
    t.visits enter = (Site.type t).before enter (t.parts.flatMap (Site.visits enter)) := by
  cases t with
  | primitive p => rw [Ty.visits, Ty.parts, List.flatMap_nil]
  | named n args => rw [Ty.visits, Ty.parts, Ty.visitsAll_eq, List.flatMap_map]; rfl
  | array e => rw [Ty.visits, Ty.parts, List.flatMap_singleton]; rfl

theorem Expr.visits_eq (e : Expr ν) :
    e.visits enter = (Site.expr e).before enter (e.parts.flatMap (Site.visits enter)) := by
  cases e with
  | call s r n args =>
    cases r <;>
      simp [Expr.visits, Expr.parts, Expr.visitsAll_eq, Site.visits, List.flatMap_map]
  | create s t args =>
    simp [Expr.visits, Expr.parts, Expr.visitsAll_eq, Site.visits, List.flatMap_map]
  | _ => simp [Expr.visits, Expr.parts, Site.visits]

theorem Stmt.visits_eq (s : Stmt ν) :
    s.visits enter = (Site.stmt s).before enter (s.parts.flatMap (Site.visits enter)) := by
  cases s with
  | ifElse s c t e => cases e <;> simp [Stmt.visits, Stmt.parts, Site.visits]
  | localVar s t n init f =>
    simp [Stmt.visits, Stmt.parts, Site.visits, optionVisits_eq, List.flatMap_map]
  | returnWith s v => simp [Stmt.visits, Stmt.parts, Site.visits, optionVisits_eq, List.flatMap_map]
  | switch s sel as => simp [Stmt.visits, Stmt.parts, Site.visits, Arm.visitsAll_eq]
  | _ => simp [Stmt.visits, Stmt.parts, Site.visits]

/-- A walk comes to a site and then, if it enters it, walks from each of its parts. -/
theorem Site.visits_eq (s : Site ν) :
    s.visits enter = s.before enter (s.parts.flatMap (Site.visits enter)) := by
  cases s with
  | type t => exact t.visits_eq enter
  | expr e => exact e.visits_eq enter
  | stmt s => exact s.visits_eq enter
  | block span stmts =>
    simp [Site.visits, Site.parts, Stmt.visitsAll_eq, List.flatMap_map]
  | param p => simp [Site.visits, Site.parts, paramVisits]
  | initializerDecl i =>
    simp [Site.visits, Site.parts, memberVisits, Body.visits, Body.site]
  | methodDecl m =>
    rw [Site.visits, memberVisits, Site.parts, List.flatMap_append, List.flatMap_append,
      List.flatMap_map, List.flatMap_map, List.flatMap_map, optionVisits_eq, optionVisits_eq]
    rfl
  | fieldDecl f =>
    simp [Site.visits, Site.parts, memberVisits, optionVisits_eq, List.flatMap_map]
  | classDecl c =>
    rw [Site.visits, classVisits, Site.parts, List.flatMap_map]
    simp only [visits_memberSite]
  | importDecl i => simp [Site.visits, Site.parts]
  | unit u => simp [Site.visits, Site.parts, unitVisits, List.flatMap_map]

end Parts

namespace Site

/-- What passes from the parts of a site to the site holds of every site. -/
theorem parts_induct {P : Site ν → Prop} (step : ∀ s, (∀ t ∈ s.parts, P t) → P s) (s : Site ν) :
    P s := by
  -- The walk from a part is shorter than the walk from the whole.
  induction hlen : (s.visits fun _ => true).length using Nat.strongRecOn generalizing s with
  | ind n ih =>
    subst hlen
    refine step s fun t ht => ih _ ?_ t rfl
    rw [s.visits_eq, before, if_pos rfl, List.length_cons, Nat.lt_succ_iff]
    exact (List.infix_flatMap_of_mem ht _).length_le

/-! ## Containment -/

/-- The second site is the first one, one of its parts, a part of one of these, and so on. -/
def Contains : Site ν → Site ν → Prop := Relation.ReflTransGen fun s t => t ∈ s.parts

theorem contains_of_mem_visits {enter : Site ν → Bool} {s t : Site ν} (h : t ∈ s.visits enter) :
    s.Contains t := by
  induction s using parts_induct with
  | step s ih =>
    rw [visits_eq, before] at h
    rcases List.mem_cons.1 h with rfl | h
    · exact .refl
    · split at h
      · obtain ⟨c, hc, hmem⟩ := List.mem_flatMap.1 h
        exact .head hc (ih c hc hmem)
      · cases h

theorem mem_visits_of_contains {s t : Site ν} (h : s.Contains t) : t ∈ s.visits fun _ => true := by
  induction h using Relation.ReflTransGen.head_induction_on with
  | refl =>
    rw [visits_eq]
    exact List.mem_cons_self
  | head hc _ ih =>
    rw [visits_eq, before, if_pos rfl]
    exact List.mem_cons_of_mem _ (List.mem_flatMap.2 ⟨_, hc, ih⟩)

/-- A walk that enters every site comes to all that a site contains, and to nothing else. -/
theorem mem_visits_iff {s t : Site ν} : (t ∈ s.visits fun _ => true) ↔ s.Contains t :=
  ⟨contains_of_mem_visits, mem_visits_of_contains⟩

theorem Contains.visits_subset {s t : Site ν} (h : s.Contains t) :
    (t.visits fun _ => true) ⊆ s.visits fun _ => true :=
  fun _ ht => mem_visits_iff.2 (h.trans (mem_visits_iff.1 ht))

end Site

theorem mem_sites_iff {u : CompilationUnit ν} {s : Site ν} :
    s ∈ sites u ↔ (Site.unit u).Contains s :=
  Site.mem_visits_iff (s := .unit u)

end TupleAssign.Tree
