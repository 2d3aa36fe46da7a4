import TupleAssign.Proofs.Rewrite
import TupleAssign.Proofs.StoredUnit
/-!
# Accounting for unpackings

Every unpacking of a unit that is not inside another one is dealt with once: it is carried out,
passed over or reported (`handled_classes`). Each is an assignment, so there are no more of them than
the store of the unit has expressions (`length_unitUnpackings_le`).
-/

namespace TupleAssign.Rewrite

open TupleAssign.Tree (Expr Stmt Arm Any)

/-! ## The unpackings of a unit -/

section Listing

variable (r : Resolver)

mutual

/-- The unpackings of a statement, in the order in which they are met. -/
def stmtUnpackings : Stmt → List Unpacking
  | .expr _ e => unpackings r e
  | .localVar _ _ _ init _ => unpackings? r init
  | .block _ ss => stmtsUnpackings ss
  | .ifElse _ c t none => unpackings r c ++ stmtUnpackings t
  | .ifElse _ c t (some e) => unpackings r c ++ (stmtUnpackings t ++ stmtUnpackings e)
  | .whileLoop _ c b => unpackings r c ++ stmtUnpackings b
  | .switch _ sel as => unpackings r sel ++ armsUnpackings as
  | .returnWith _ v => unpackings? r v
  | .breakOut _ | .continueOn _ | .empty _ => []

def stmtsUnpackings : List Stmt → List Unpacking
  | [] => []
  | s :: ss => stmtUnpackings s ++ stmtsUnpackings ss

def armsUnpackings : List Arm → List Unpacking
  | [] => []
  | .mk label ss :: as => unpackings? r label ++ (stmtsUnpackings ss ++ armsUnpackings as)

end

def memberUnpackings : Tree.Member → List Unpacking
  | .field f => unpackings? r f.init
  | .method d => d.body.toList.flatMap fun b => stmtsUnpackings r b.stmts
  | .initializer i => stmtsUnpackings r i.body.stmts

def classUnpackings (c : Tree.Class) : List Unpacking := c.members.flatMap (memberUnpackings r)

/-- The unpackings of a unit, in source order; those inside another one are left out. -/
def unitUnpackings (u : Tree.CompilationUnit) : List Unpacking :=
  u.classes.flatMap (classUnpackings r)

end Listing

/-! ## Each is dealt with once

What the handling of an unpacking does to the progress, the pass as a whole does as many times as
there are unpackings. This is shown once, for any relation that adds up. -/

/-- A relation between the progress before and after some unpackings have been dealt with, given
their number. -/
structure Additive (R : Nat → Progress → Progress → Prop) : Prop where
  none : ∀ g, R 0 g g
  add : ∀ {m n g g₁ g₂}, R m g g₁ → R n g₁ g₂ → R (m + n) g g₂
  scopes : ∀ g scopes, R 0 g { g with scopes }
  handle : ∀ inMethod place u g, R 1 g (handle inMethod place u g).2

/-- The action does what `R` says of this many unpackings. -/
def Does {α : Type} (R : Nat → Progress → Progress → Prop) (m : Pass α) (n : Nat) : Prop :=
  ∀ g, R n g (m g).2

variable {R : Nat → Progress → Progress → Prop}

namespace Additive

variable {α β : Type} (hR : Additive R)

include hR

theorem pure (a : α) : Does R (Pure.pure a) 0 := hR.none

theorem bind {m : Pass α} {k : α → Pass β} {n n' : Nat} (h : Does R m n)
    (h' : ∀ a, Does R (k a) n') : Does R (m >>= k) (n + n') :=
  fun g => hR.add (h g) (h' (m g).1 (m g).2)

/-- An action that ends with a result deals with nothing more. -/
theorem map {m : Pass α} {n : Nat} (h : Does R m n) (f : α → β) :
    Does R (m >>= fun a => Pure.pure (f a)) n :=
  hR.bind h fun a => hR.pure (f a)

theorem declare (name : String) (type : Tree.Ty) (offset : Nat) :
    Does R (declare name type offset) 0 :=
  fun g => hR.scopes g _

theorem inScope {m : Pass α} {n : Nat} (h : Does R m n) : Does R (inScope m) n := by
  intro g
  have hopen := hR.add (hR.scopes g g.scopes.push) (h _)
  rw [Nat.zero_add] at hopen
  exact hR.add hopen (hR.scopes _ _)

theorem handleAll (inMethod : Bool) (place : Place) (us : List Unpacking) :
    Does R (us.foldlM (Rewrite.handle inMethod) place) us.length := by
  induction us generalizing place with
  | nil => exact hR.pure place
  | cons u us ih =>
    rw [List.foldlM_cons, List.length_cons, Nat.add_comm]
    exact hR.bind (hR.handle inMethod place u) ih

theorem forM {f : α → Pass Unit} (h : ∀ a, Does R (f a) 0) (as : List α) :
    Does R (as.forM f) 0 := by
  induction as with
  | nil => exact hR.pure ()
  | cons a as ih => exact hR.bind (h a) fun _ => ih

theorem mapM {f : α → Pass α} {us : α → List β} (h : ∀ a, Does R (f a) (us a).length)
    (as : List α) : Does R (as.mapM f) (as.flatMap us).length := by
  induction as with
  | nil => exact hR.pure []
  | cons a as ih =>
    rw [List.mapM_cons, List.flatMap_cons, List.length_append]
    exact hR.bind (h a) fun _ => hR.map ih _

end Additive

section Statements

variable (hR : Additive R) (r : Resolver) (inMethod : Bool)

include hR

theorem expr_does (place : Place) (e : Expr) :
    Does R (expr r inMethod place e) (unpackings r e).length :=
  hR.handleAll inMethod place _

theorem expr?_does (place : Place) (o : Option Expr) :
    Does R (expr? r inMethod place o) (unpackings? r o).length :=
  hR.handleAll inMethod place _

mutual

theorem stmt_does : ∀ (place : Place) (t : Stmt),
    Does R (stmt r inMethod place t) (stmtUnpackings r t).length
  | place, .expr s e => by
    rw [stmt, stmtUnpackings]
    exact hR.map (expr_does hR r inMethod place e) _
  | place, .localVar s t n init isFinal => by
    rw [stmt, stmtUnpackings, ← Nat.zero_add (List.length _)]
    exact hR.bind (hR.declare n t s.start) fun _ => hR.map (expr?_does hR r inMethod place init) _
  | place, .block s ss => by
    rw [stmt, stmtUnpackings]
    exact hR.map (hR.inScope (stmts_does ss)) _
  | place, .ifElse s c t none => by
    rw [stmt, stmtUnpackings, List.length_append]
    exact hR.bind (expr_does hR r inMethod place c) fun _ =>
      hR.map (hR.inScope (stmt_does .fixed t)) _
  | place, .ifElse s c t (some e) => by
    rw [stmt, stmtUnpackings, List.length_append, List.length_append]
    exact hR.bind (expr_does hR r inMethod place c) fun _ =>
      hR.bind (hR.inScope (stmt_does .fixed t)) fun _ => hR.map (hR.inScope (stmt_does .fixed e)) _
  | place, .whileLoop s c b => by
    rw [stmt, stmtUnpackings, List.length_append]
    exact hR.bind (expr_does hR r inMethod place c) fun _ =>
      hR.map (hR.inScope (stmt_does .fixed b)) _
  | place, .switch s sel as => by
    rw [stmt, stmtUnpackings, List.length_append]
    exact hR.bind (expr_does hR r inMethod place sel) fun place =>
      hR.map (hR.inScope (arms_does place as)) _
  | place, .returnWith s v => by
    rw [stmt, stmtUnpackings]
    exact hR.map (expr?_does hR r inMethod place v) _
  | place, .breakOut s | place, .continueOn s | place, .empty s => by
    rw [stmt, stmtUnpackings]
    exact hR.pure _

theorem stmts_does : ∀ ss : List Stmt, Does R (stmts r inMethod ss) (stmtsUnpackings r ss).length
  | [] => by
    rw [stmts, stmtsUnpackings]
    exact hR.pure _
  | s :: ss => by
    rw [stmts, stmtsUnpackings, List.length_append]
    exact hR.bind (stmt_does .listed s) fun _ => hR.map (stmts_does ss) _

theorem arms_does : ∀ (place : Place) (as : List Arm),
    Does R (arms r inMethod place as) (armsUnpackings r as).length
  | place, [] => by
    rw [arms, armsUnpackings]
    exact hR.pure _
  | place, .mk label ss :: as => by
    rw [arms, armsUnpackings, List.length_append, List.length_append]
    exact hR.bind (expr?_does hR r inMethod place label) fun place =>
      hR.bind (stmts_does ss) fun _ => hR.map (arms_does place as) _

end

end Statements

section Items

variable (hR : Additive R) (r : Resolver)

include hR

theorem body_does (inMethod : Bool) (b : Tree.Body) :
    Does R (body r inMethod b) (stmtsUnpackings r b.stmts).length :=
  hR.map (hR.inScope (stmts_does hR r inMethod b.stmts)) _

theorem body?_does (b : Option Tree.Body) :
    Does R (body? r b) (b.toList.flatMap fun b => stmtsUnpackings r b.stmts).length := by
  cases b with
  | none => exact hR.pure _
  | some b =>
    rw [Option.toList_some, List.flatMap_singleton]
    exact hR.map (body_does hR r true b) _

theorem params_do (ps : List Tree.Param) :
    Does R (ps.forM fun p => declare p.name p.type p.span.start) 0 :=
  hR.forM (fun p => hR.declare p.name p.type p.span.start) ps

theorem member_does (m : Tree.Member) : Does R (member r m) (memberUnpackings r m).length := by
  cases m with
  | field f => exact hR.map (expr?_does hR r false .fixed f.init) _
  | method d =>
    have hbody := hR.bind (params_do hR d.params) fun _ => body?_does hR r d.body
    rw [Nat.zero_add] at hbody
    exact hR.map (hR.inScope hbody) _
  | initializer i => exact hR.map (body_does hR r false i.body) _

theorem fields_do (ms : List Tree.Member) : Does R (ms.forM declareField) 0 := by
  refine hR.forM (fun m => ?_) ms
  cases m with
  | field f => exact hR.declare f.name f.type f.span.start
  | method d => exact hR.pure ()
  | initializer i => exact hR.pure ()

theorem cls_does (c : Tree.Class) : Does R (cls r c) (classUnpackings r c).length := by
  have hmembers := hR.map (hR.mapM (member_does hR r) c.members) fun members => { c with members }
  have h := hR.bind (fields_do hR c.members) fun _ => hmembers
  rw [Nat.zero_add] at h
  exact hR.inScope h

theorem classes_do (config : DesugarConfig) (u : Tree.CompilationUnit) :
    R (unitUnpackings (Resolver.ofImports config.marker u.imports) u).length (start config u)
      (classes config u).2 :=
  hR.mapM (cls_does hR (Resolver.ofImports config.marker u.imports)) u.classes (start config u)

end Items

/-- How many unpackings have been dealt with. -/
def Progress.handled (g : Progress) : Nat := g.transformed + g.skipped + g.problems.length

/-- An unpacking is carried out, passed over or reported. -/
theorem handled_handle (inMethod : Bool) (place : Place) (u : Unpacking) (g : Progress) :
    (handle inMethod place u g).2.handled = g.handled + 1 := by
  unfold handle Progress.handled
  split
  · simp only [List.length_append, List.length_singleton]
    omega
  · split
    · split
      · simp only [List.length_append, List.length_singleton]
        omega
      · simp only []
        omega
    · simp only []
      omega

theorem additive_handled : Additive fun n g g' => g'.handled = g.handled + n where
  none _ := rfl
  add h h' := by rw [h', h, Nat.add_assoc]
  scopes _ _ := rfl
  handle := handled_handle

/-- All unpackings of a unit are dealt with, each once. -/
theorem handled_classes (config : DesugarConfig) (u : Tree.CompilationUnit) :
    (classes config u).2.handled =
      (unitUnpackings (Resolver.ofImports config.marker u.imports) u).length :=
  (classes_do additive_handled config u).trans (Nat.zero_add _)

/-! ## No more than there are expressions -/

section Bound

variable (r : Resolver)

/-- The unpackings of a tree of any kind. -/
def anyUnpackings : Any → List Unpacking
  | .ty _ => []
  | .expr e => unpackings r e
  | .stmt s => stmtUnpackings r s
  | .arm a => armsUnpackings r [a]

theorem unpackingsAll_eq (es : List Expr) : unpackingsAll r es = es.flatMap (unpackings r) := by
  induction es with
  | nil => rfl
  | cons e es ih => rw [unpackingsAll, List.flatMap_cons, ih]

theorem stmtsUnpackings_eq (ss : List Stmt) :
    stmtsUnpackings r ss = ss.flatMap (stmtUnpackings r) := by
  induction ss with
  | nil => rw [stmtsUnpackings, List.flatMap_nil]
  | cons s ss ih => rw [stmtsUnpackings, List.flatMap_cons, ih]

theorem armsUnpackings_eq (as : List Arm) :
    armsUnpackings r as = as.flatMap fun a => armsUnpackings r [a] := by
  induction as with
  | nil => rw [armsUnpackings, List.flatMap_nil]
  | cons a as ih =>
    obtain ⟨label, ss⟩ := a
    rw [armsUnpackings, List.flatMap_cons, ← ih, armsUnpackings, armsUnpackings]
    simp only [List.append_nil, List.append_assoc]

/-- An unpacking is an assignment of its own or belongs to a part. -/
theorem length_anyUnpackings_le (t : Any) :
    (anyUnpackings r t).length ≤
      (if t.sort = .expr then 1 else 0) + (t.parts.flatMap (anyUnpackings r)).length := by
  have hexprs : ∀ es : List Expr, (es.map Any.expr).flatMap (anyUnpackings r) =
      es.flatMap (unpackings r) := fun es => by rw [List.flatMap_map]; rfl
  have hstmts : ∀ ss : List Stmt, (ss.map Any.stmt).flatMap (anyUnpackings r) =
      stmtsUnpackings r ss := fun ss => by rw [List.flatMap_map, stmtsUnpackings_eq]; rfl
  have harms : ∀ as : List Arm, (as.map Any.arm).flatMap (anyUnpackings r) =
      armsUnpackings r as := fun as => by rw [List.flatMap_map, armsUnpackings_eq]; rfl
  cases t with
  | ty t => simp [anyUnpackings]
  | expr e =>
    have hparts : ((Any.expr e).parts.flatMap (anyUnpackings r)) =
        e.operands.flatMap (unpackings r) := by
      rw [Any.parts, List.flatMap_append, hexprs, List.flatMap_map]
      simp [anyUnpackings]
    rw [hparts]
    cases e with
    | call s recv n args =>
      cases recv <;> simp [anyUnpackings, unpackings, Expr.operands, unpackingsAll_eq]
    | assign s a b =>
      simp only [anyUnpackings, unpackings]
      split <;> simp [Expr.operands, Any.sort]
    | _ => simp [anyUnpackings, unpackings, Expr.operands, unpackingsAll_eq]
  | stmt s =>
    cases s with
    | ifElse s c t e =>
      cases e <;> simp [anyUnpackings, stmtUnpackings, Any.parts]
    | localVar s t n init isFinal =>
      simp [anyUnpackings, stmtUnpackings, Any.parts, unpackings?, hexprs]
    | block s ss => simp [anyUnpackings, stmtUnpackings, Any.parts, hstmts]
    | switch s sel as => simp [anyUnpackings, stmtUnpackings, Any.parts, harms]
    | returnWith s v => simp [anyUnpackings, stmtUnpackings, Any.parts, unpackings?, hexprs]
    | _ => simp [anyUnpackings, stmtUnpackings, Any.parts]
  | arm a =>
    obtain ⟨label, ss⟩ := a
    simp [anyUnpackings, armsUnpackings, Any.parts, hexprs, hstmts, unpackings?]

variable {r} {st : Store} {sp : Spelling}

theorem length_flatMap_le {α β : Type} {R : α → β → List NodeRef → Prop} {us : α → List Unpacking}
    (hR : ∀ a b f, R a b f → (us a).length ≤ sortCount .expr f) {as : List α} {bs : List β}
    {fp : List NodeRef} (h : Along R as bs fp) : (as.flatMap us).length ≤ sortCount .expr fp := by
  induction h with
  | nil => exact Nat.le_refl 0
  | cons head _ ih =>
    rw [List.flatMap_cons, List.length_append, sortCount_append]
    exact Nat.add_le_add (hR _ _ _ head) ih

theorem length_le_of_stored {t : Any} {n : NodeRef} {fp : List NodeRef} (h : Stored st sp t n fp) :
    (anyUnpackings r t).length ≤ sortCount .expr fp := by
  refine Stored.induct (P := fun t _ fp => (anyUnpackings r t).length ≤ sortCount .expr fp) ?_ h
  intro t n ns fp head _ ih
  have hparts := length_flatMap_le (fun _ _ _ hR => hR.2) ih
  have hself := length_anyUnpackings_le r t
  rw [sortCount_cons, head.sort_eq]
  omega

theorem length_stmts_le {ss : List Stmt} {ids : List StmtId} {fp : List NodeRef}
    (h : Along (StmtAt st sp) ss ids fp) : (stmtsUnpackings r ss).length ≤ sortCount .expr fp := by
  rw [stmtsUnpackings_eq]
  exact length_flatMap_le (fun _ _ _ hs => length_le_of_stored hs) h

theorem length_member_le {m : Tree.Member} {m' : Node.Member} {fp : List NodeRef}
    (h : MemberAt st sp m m' fp) : (memberUnpackings r m).length ≤ sortCount .expr fp := by
  cases h with
  | field _ _ _ _ init =>
    have hexpr : ∀ e e' f, ExprAt st sp e e' f → (unpackings r e).length ≤ sortCount .expr f :=
      fun e e' f he => length_le_of_stored (r := r) he
    have hinit := length_flatMap_le hexpr init
    exact Nat.le_trans hinit (sortCount_le_of_sublist (List.sublist_append_right _ _))
  | method _ _ _ _ _ body =>
    have hblock : ∀ b b' f, BodyAt st sp b b' f →
        (stmtsUnpackings r b.stmts).length ≤ sortCount .expr f := by
      rintro b b' f ⟨-, ids, -, hss⟩
      exact length_stmts_le hss
    have hbody := length_flatMap_le hblock body
    refine Nat.le_trans hbody (sortCount_le_of_sublist ?_)
    exact (List.sublist_append_right _ _).trans (List.sublist_append_right _ _)
  | initializer _ _ body =>
    obtain ⟨-, ids, -, hss⟩ := body
    exact length_stmts_le hss

/-- A stored unit has no more unpackings than there are expressions in its store. -/
theorem length_unitUnpackings_le {p : Program} {u : Tree.CompilationUnit} {fp : List NodeRef}
    (h : UnitAt p sp u fp) (hnodup : fp.Nodup) :
    (unitUnpackings r u).length ≤ p.store.exprs.size := by
  have hclass : ∀ c c' f, ClassAt p.store sp c c' f →
      (classUnpackings r c).length ≤ sortCount .expr f := fun c c' f hc =>
    length_flatMap_le (fun _ _ _ hm => length_member_le hm) hc.2.2
  exact Nat.le_trans (length_flatMap_le hclass h.2.2.2) (sortCount_le_count hnodup h.old)

end Bound

end TupleAssign.Rewrite
