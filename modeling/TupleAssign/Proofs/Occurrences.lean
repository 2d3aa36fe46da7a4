import TupleAssign.Proofs.Refinement
import TupleAssign.Proofs.Sites
/-!
# What becomes of each unpacking

An unpacking is judged by its surroundings in the tree as it was before the run: whether it is in a
method, whether its statement stands in a list, which declarations are in sight, and which other
unpackings come before it in the same statement. `occurrences` lists the unpackings of a unit with
this information, and `Occurrence.verdict` is the first check that an unpacking fails. Neither
mentions a run. `classes_meet` says that a run comes to exactly these verdicts, in this order.
-/

namespace TupleAssign

namespace Rewrite

open TupleAssign.Tree (Ty Expr Stmt Arm Site)
open Desugar (checkTargets tempTypes)

/-! ## Verdicts -/

/-- The name of a plain variable. -/
def plainName? : Expr → Option String
  | .ident _ name => some name
  | _ => none

/-- The first argument on the left that is no plain variable. -/
def misfit? (a : Unpacking) : Option Expr := a.left.args.find? fun e => (plainName? e).isNone

def targetNames (a : Unpacking) : List String := a.left.args.filterMap plainName?

/-- Some scope has a declaration of the name that starts before the offset. -/
def isDeclared (scopes : Scopes Ty) (name : String) (offset : Nat) : Bool :=
  scopes.frames.any fun f => f.any fun d => d.name == name && decide (d.offset < offset)

/-- The first of some targets that needs a temporary and is not declared. -/
def firstUnresolved (scopes : Scopes Ty) (offset : Nat) (targets : List String)
    (hazards : List Hazard) : Option String :=
  ((targets.zip hazards).find? fun (t, h) =>
    h.needsTemporary && !isDeclared scopes t offset).map (·.1)

/-- The first target from the left whose value is hazardous and which has no visible declaration. -/
def unresolved? (scopes : Scopes Ty) (a : Unpacking) : Option String :=
  firstUnresolved scopes a.span.start (targetNames a) (Hazard.analyze (targetNames a) a.values)

/-- Inside a method, nothing but its place can stand against the unpacking. -/
def isSound (scopes : Scopes Ty) (a : Unpacking) : Bool :=
  a.left.args.length == a.right.args.length && (misfit? a).isNone && (unresolved? scopes a).isNone

def hasSound (us : List (Unpacking × Scopes Ty)) : Bool := us.any fun a => isSound a.2 a.1

/-- An unpacking in its surroundings. -/
structure Occurrence where
  unpacking : Unpacking
  inMethod : Bool
  /-- The statement around it stands directly in a statement list. -/
  listed : Bool
  /-- The scopes around it, with what has been declared up to this point. -/
  scopes : Scopes Ty
  /-- The unpackings that come before it in the same statement, each with the scopes around it. -/
  earlier : List (Unpacking × Scopes Ty)

inductive Verdict where
  | replaced
  | passedOver
  | reported (p : Problem)
deriving DecidableEq

namespace Occurrence

/-- The statement around it has given way to an earlier unpacking. -/
def isLate (o : Occurrence) : Bool := hasSound o.earlier

/-- What is said by the first check that fails: on the place in the class, on the number of
arguments, on their shape, on the place of the statement, on the declarations. -/
def verdict (o : Occurrence) : Verdict :=
  let a := o.unpacking
  if !o.inMethod then .reported ⟨.noEnclosingMethod, a.span⟩
  else if a.left.args.length ≠ a.right.args.length then
    .reported ⟨.arityMismatch a.left.args.length a.right.args.length, a.span⟩
  else match misfit? a with
    | some e => .reported ⟨.invalidLeftShape, e.span⟩
    | none =>
      if !o.listed || o.isLate then .passedOver
      else match unresolved? o.scopes a with
        | some t => .reported ⟨.unresolvedTarget t, a.span⟩
        | none => .replaced

def problem? (o : Occurrence) : Option Problem :=
  match o.verdict with
  | .reported p => some p
  | _ => none

end Occurrence

/-! ## Listing the occurrences -/

section Listing

variable (r : Resolver) (inMethod : Bool)

/-- Unpackings of one statement, in the same scopes, behind earlier ones. -/
def occurrencesAt (listed : Bool) (scopes : Scopes Ty) (earlier : List (Unpacking × Scopes Ty)) :
    List Unpacking → List Occurrence
  | [] => []
  | a :: us => ⟨a, inMethod, listed, scopes, earlier⟩ ::
      occurrencesAt listed scopes (earlier ++ [(a, scopes)]) us

/-- The scopes behind a statement. Whatever is declared inside of it is out of sight there. -/
def declaring (scopes : Scopes Ty) : Stmt → Scopes Ty
  | .localVar s t n _ _ => scopes.declare n t s.start
  | _ => scopes

mutual

def stmtOccurrences (listed : Bool) (scopes : Scopes Ty) : Stmt → List Occurrence
  | .expr _ e => occurrencesAt inMethod listed scopes [] (unpackings r e)
  | .localVar s t n init _ =>
    occurrencesAt inMethod listed (scopes.declare n t s.start) [] (unpackings? r init)
  | .block _ ss => stmtsOccurrences scopes.push ss
  | .ifElse _ c t none =>
    occurrencesAt inMethod listed scopes [] (unpackings r c) ++ stmtOccurrences false scopes.push t
  | .ifElse _ c t (some e) =>
    occurrencesAt inMethod listed scopes [] (unpackings r c) ++
      (stmtOccurrences false scopes.push t ++ stmtOccurrences false scopes.push e)
  | .whileLoop _ c b =>
    occurrencesAt inMethod listed scopes [] (unpackings r c) ++ stmtOccurrences false scopes.push b
  | .switch _ sel as =>
    occurrencesAt inMethod listed scopes [] (unpackings r sel) ++
      armsOccurrences listed scopes.push ((unpackings r sel).map (·, scopes)) as
  | .returnWith _ v => occurrencesAt inMethod listed scopes [] (unpackings? r v)
  | .breakOut _ | .continueOn _ | .empty _ => []

def stmtsOccurrences (scopes : Scopes Ty) : List Stmt → List Occurrence
  | [] => []
  | s :: ss => stmtOccurrences true scopes s ++ stmtsOccurrences (declaring scopes s) ss

/-- The labels belong to the statement of the switch; all arms share one scope. -/
def armsOccurrences (listed : Bool) (scopes : Scopes Ty) (earlier : List (Unpacking × Scopes Ty)) :
    List Arm → List Occurrence
  | [] => []
  | .mk label ss :: as =>
    occurrencesAt inMethod listed scopes earlier (unpackings? r label) ++
      (stmtsOccurrences scopes ss ++
        armsOccurrences listed (ss.foldl declaring scopes)
          (earlier ++ (unpackings? r label).map (·, scopes)) as)

end

end Listing

section Items

variable (r : Resolver)

def declaringParams (scopes : Scopes Ty) (ps : List Tree.Param) : Scopes Ty :=
  ps.foldl (fun scopes p => scopes.declare p.name p.type p.span.start) scopes

def declaringField (scopes : Scopes Ty) : Tree.Member → Scopes Ty
  | .field f => scopes.declare f.name f.type f.span.start
  | _ => scopes

def memberOccurrences (scopes : Scopes Ty) : Tree.Member → List Occurrence
  | .field f => occurrencesAt false false scopes [] (unpackings? r f.init)
  | .method d => d.body.toList.flatMap fun b =>
      stmtsOccurrences r true (declaringParams scopes.push d.params).push b.stmts
  | .initializer i => stmtsOccurrences r false scopes.push i.body.stmts

/-- All fields of a class are in sight of each of its members. -/
def classOccurrences (c : Tree.Class) : List Occurrence :=
  let fields := c.members.foldl declaringField ({} : Scopes Ty).push
  c.members.flatMap (memberOccurrences r fields)

/-- The unpackings of a unit that are not inside another one, in source order. -/
def occurrences (u : Tree.CompilationUnit) : List Occurrence := u.classes.flatMap (classOccurrences r)

end Items

/-! ## They are the unpackings of the unit -/

section Unpackings

variable (r : Resolver) (inMethod : Bool)

theorem map_occurrencesAt (listed : Bool) (scopes : Scopes Ty)
    (earlier : List (Unpacking × Scopes Ty)) (us : List Unpacking) :
    (occurrencesAt inMethod listed scopes earlier us).map (·.unpacking) = us := by
  induction us generalizing earlier with
  | nil => rfl
  | cons a us ih => exact congrArg (a :: ·) (ih _)

mutual

theorem map_stmtOccurrences (listed : Bool) (scopes : Scopes Ty) : ∀ t : Stmt,
    (stmtOccurrences r inMethod listed scopes t).map (·.unpacking) = stmtUnpackings r t
  | .expr _ e => by rw [stmtOccurrences, stmtUnpackings, map_occurrencesAt]
  | .localVar s t n init _ => by rw [stmtOccurrences, stmtUnpackings, map_occurrencesAt]
  | .block _ ss => by rw [stmtOccurrences, stmtUnpackings, map_stmtsOccurrences _ ss]
  | .ifElse _ c t none => by
    rw [stmtOccurrences, stmtUnpackings, List.map_append, map_occurrencesAt,
      map_stmtOccurrences _ _ t]
  | .ifElse _ c t (some e) => by
    rw [stmtOccurrences, stmtUnpackings, List.map_append, List.map_append, map_occurrencesAt,
      map_stmtOccurrences _ _ t, map_stmtOccurrences _ _ e]
  | .whileLoop _ c b => by
    rw [stmtOccurrences, stmtUnpackings, List.map_append, map_occurrencesAt,
      map_stmtOccurrences _ _ b]
  | .switch _ sel as => by
    rw [stmtOccurrences, stmtUnpackings, List.map_append, map_occurrencesAt,
      map_armsOccurrences _ _ _ as]
  | .returnWith _ v => by rw [stmtOccurrences, stmtUnpackings, map_occurrencesAt]
  | .breakOut _ | .continueOn _ | .empty _ => by
    rw [stmtOccurrences, stmtUnpackings, List.map_nil]

theorem map_stmtsOccurrences (scopes : Scopes Ty) : ∀ ss : List Stmt,
    (stmtsOccurrences r inMethod scopes ss).map (·.unpacking) = stmtsUnpackings r ss
  | [] => by rw [stmtsOccurrences, stmtsUnpackings, List.map_nil]
  | s :: ss => by
    rw [stmtsOccurrences, stmtsUnpackings, List.map_append, map_stmtOccurrences _ _ s,
      map_stmtsOccurrences _ ss]

theorem map_armsOccurrences (listed : Bool) (scopes : Scopes Ty)
    (earlier : List (Unpacking × Scopes Ty)) : ∀ as : List Arm,
    (armsOccurrences r inMethod listed scopes earlier as).map (·.unpacking) = armsUnpackings r as
  | [] => by rw [armsOccurrences, armsUnpackings, List.map_nil]
  | .mk label ss :: as => by
    rw [armsOccurrences, armsUnpackings, List.map_append, List.map_append, map_occurrencesAt,
      map_stmtsOccurrences _ ss, map_armsOccurrences _ _ _ as]

end

theorem map_memberOccurrences (scopes : Scopes Ty) (m : Tree.Member) :
    (memberOccurrences r scopes m).map (·.unpacking) = memberUnpackings r m := by
  cases m with
  | field f => exact map_occurrencesAt false false scopes [] _
  | method d =>
    simp only [memberOccurrences, memberUnpackings, List.map_flatMap, map_stmtsOccurrences]
  | initializer i => exact map_stmtsOccurrences r false scopes.push i.body.stmts

/-- The occurrences are those of the unpackings of the unit. -/
theorem map_occurrences (u : Tree.CompilationUnit) :
    (occurrences r u).map (·.unpacking) = unitUnpackings r u := by
  simp only [occurrences, classOccurrences, unitUnpackings, List.map_flatMap,
    map_memberOccurrences]
  rfl

end Unpackings

/-! ## The checks of a run -/

section Checks

/-- An argument that is no variable is reported if all before it are variables. -/
theorem mapM_target?_of_misfit {args : List Expr} {e : Expr}
    (h : args.find? (fun e => (plainName? e).isNone) = some e) :
    args.mapM Unpacking.target? = .error ⟨.invalidLeftShape, e.span⟩ := by
  induction args with
  | nil => cases h
  | cons e' args ih =>
    cases e' with
    | ident s x =>
      rw [List.mapM_cons, ih h]
      rfl
    | _ =>
      cases h
      rfl

theorem mapM_target?_of_fit {args : List Expr}
    (h : args.find? (fun e => (plainName? e).isNone) = none) :
    ∃ ts, args.mapM Unpacking.target? = .ok ts ∧ ts.map (·.name) = args.filterMap plainName? := by
  induction args with
  | nil => exact ⟨[], rfl, rfl⟩
  | cons e args ih =>
    cases e with
    | ident s x =>
      obtain ⟨ts, hts, hnames⟩ := ih h
      refine ⟨⟨x, s⟩ :: ts, ?_, congrArg (x :: ·) hnames⟩
      rw [List.mapM_cons, hts]
      rfl
    | _ => cases h

/-- The targets of an unpacking in a method, or the first thing that is wrong with its arguments. -/
theorem checkTargets_eq (a : Unpacking) :
    checkTargets true a =
      if a.left.args.length ≠ a.right.args.length then
        .error ⟨.arityMismatch a.left.args.length a.right.args.length, a.span⟩
      else match misfit? a with
        | some e => .error ⟨.invalidLeftShape, e.span⟩
        | none => .ok (targetNames a) := by
  by_cases hlen : a.left.args.length = a.right.args.length
  · have harity : a.checkArity = .ok () := if_pos hlen
    rw [if_neg (not_not_intro hlen)]
    cases hmisfit : misfit? a with
    | some e =>
      simp only [checkTargets, harity, Unpacking.targets, mapM_target?_of_misfit hmisfit]
      rfl
    | none =>
      obtain ⟨ts, hts, hnames⟩ := mapM_target?_of_fit hmisfit
      simp only [checkTargets, harity, Unpacking.targets, hts, targetNames, ← hnames]
      rfl
  · have harity : a.checkArity =
        .error (.arityMismatch a.left.args.length a.right.args.length) := if_neg hlen
    rw [if_pos hlen]
    simp only [checkTargets, harity]
    rfl

/-- A name can be resolved if it is declared. -/
theorem isSome_resolve (scopes : Scopes Ty) (name : String) (offset : Nat) :
    (scopes.resolve name offset).isSome = isDeclared scopes name offset := by
  simp only [Scopes.resolve, isDeclared, List.isSome_findSome?, Option.isSome_map, List.isSome_find?]

variable {scopes : Scopes Ty} {span : Span} {targets : List String} {hazards : List Hazard}

theorem firstUnresolved_cons (t : String) (h : Hazard) :
    firstUnresolved scopes span.start (t :: targets) (h :: hazards) =
      if h.needsTemporary && !isDeclared scopes t span.start then some t
      else firstUnresolved scopes span.start targets hazards := by
  rw [firstUnresolved, List.zip_cons_cons, List.find?_cons]
  dsimp only
  cases h.needsTemporary && !isDeclared scopes t span.start <;> rfl

/-- The first target that is unresolved is named. -/
theorem tempTypes_of_unresolved {x : String}
    (hx : firstUnresolved scopes span.start targets hazards = some x) :
    tempTypes scopes span targets hazards = .error ⟨.unresolvedTarget x, span⟩ := by
  induction targets generalizing hazards with
  | nil => cases hx
  | cons t targets ih =>
    cases hazards with
    | nil => cases hx
    | cons h hazards =>
      rw [firstUnresolved_cons] at hx
      rw [tempTypes]
      have hsome := isSome_resolve scopes t span.start
      split
      · next hneeds =>
        rw [hneeds, Bool.true_and, ← hsome] at hx
        cases hr : scopes.resolve t span.start with
        | none =>
          rw [hr] at hx
          cases hx
          rfl
        | some type =>
          rw [hr] at hx
          simp only [ih hx]
          rfl
      · next hneeds =>
        rw [Bool.eq_false_iff.2 hneeds] at hx
        simp only [ih hx]
        rfl

theorem tempTypes_of_resolved (hx : firstUnresolved scopes span.start targets hazards = none) :
    ∃ types, tempTypes scopes span targets hazards = .ok types := by
  induction targets generalizing hazards with
  | nil => exact ⟨[], rfl⟩
  | cons t targets ih =>
    cases hazards with
    | nil => exact ⟨[], rfl⟩
    | cons h hazards =>
      rw [firstUnresolved_cons] at hx
      rw [tempTypes]
      have hsome := isSome_resolve scopes t span.start
      split
      · next hneeds =>
        rw [hneeds, Bool.true_and, ← hsome] at hx
        cases hr : scopes.resolve t span.start with
        | none =>
          rw [hr] at hx
          cases hx
        | some type =>
          rw [hr] at hx
          obtain ⟨types, htypes⟩ := ih hx
          exact ⟨some type :: types, by simp only [htypes]; rfl⟩
      · next hneeds =>
        rw [Bool.eq_false_iff.2 hneeds] at hx
        obtain ⟨types, htypes⟩ := ih hx
        exact ⟨none :: types, by simp only [htypes]; rfl⟩

end Checks

/-! ## The run comes to these verdicts -/

/-- From the first progress to the second, these occurrences have been dealt with as their verdicts
say, and nothing else has been counted or reported. -/
structure Meets (os : List Occurrence) (g g' : Progress) : Prop where
  problems : g'.problems = g.problems ++ os.filterMap Occurrence.problem?
  transformed : g'.transformed = g.transformed + os.countP (·.verdict = .replaced)
  skipped : g'.skipped = g.skipped + os.countP (·.verdict = .passedOver)

theorem Meets.nil {g g' : Progress} (hp : g'.problems = g.problems)
    (ht : g'.transformed = g.transformed) (hs : g'.skipped = g.skipped) : Meets [] g g' :=
  ⟨by simp [hp], by simp [ht], by simp [hs]⟩

theorem Meets.append {os os' : List Occurrence} {g g' g'' : Progress} (h : Meets os g g')
    (h' : Meets os' g' g'') : Meets (os ++ os') g g'' where
  problems := by rw [h'.problems, h.problems, List.filterMap_append, List.append_assoc]
  transformed := by rw [h'.transformed, h.transformed, List.countP_append, Nat.add_assoc]
  skipped := by rw [h'.skipped, h.skipped, List.countP_append, Nat.add_assoc]

/-- Starting in the scopes `before`, the action deals with the occurrences and ends in the scopes
`after`, with a result of which `Q` holds. -/
def Deals {α : Type} (m : Pass α) (before : Scopes Ty) (os : List Occurrence) (after : Scopes Ty)
    (Q : α → Prop) : Prop :=
  ∀ g, g.scopes = before → Meets os g (m g).2 ∧ (m g).2.scopes = after ∧ Q (m g).1

namespace Deals

variable {α β : Type} {m : Pass α} {before between after : Scopes Ty} {os os' : List Occurrence}
  {P : α → Prop} {Q : β → Prop}

theorem pure {a : α} (h : P a) : Deals (Pure.pure a) before [] before P :=
  fun _ hg => ⟨.nil rfl rfl rfl, hg, h⟩

theorem bind {k : α → Pass β} (h : Deals m before os between P)
    (hk : ∀ a, P a → Deals (k a) between os' after Q) :
    Deals (m >>= k) before (os ++ os') after Q := by
  intro g hg
  obtain ⟨hmeets, hscopes, hP⟩ := h g hg
  obtain ⟨hmeets', hscopes', hQ⟩ := hk (m g).1 hP (m g).2 hscopes
  exact ⟨hmeets.append hmeets', hscopes', hQ⟩

/-- An action that ends with a result deals with nothing more. -/
theorem map (h : Deals m before os after P) {f : α → β} (hQ : ∀ a, P a → Q (f a)) :
    Deals (m >>= fun a => Pure.pure (f a)) before os after Q := by
  have hpure : ∀ a, P a → Deals (Pure.pure (f a)) after [] after Q := fun a ha => .pure (hQ a ha)
  have hmap := h.bind hpure
  rwa [List.append_nil] at hmap

theorem done (h : Deals m before os after P) {f : α → β} :
    Deals (m >>= fun a => Pure.pure (f a)) before os after fun _ => True :=
  h.map fun _ _ => trivial

theorem declare (name : String) (type : Ty) (offset : Nat) :
    Deals (Rewrite.declare name type offset) before [] (before.declare name type offset)
      fun _ => True := by
  rintro g rfl
  exact ⟨.nil rfl rfl rfl, rfl, trivial⟩

theorem inScope (h : Deals m before.push os after P) (hpop : after.pop = before) :
    Deals (Rewrite.inScope m) before os before P := by
  intro g hg
  obtain ⟨hmeets, hscopes, hP⟩ := h { g with scopes := g.scopes.push } (congrArg Scopes.push hg)
  refine ⟨⟨hmeets.problems, hmeets.transformed, hmeets.skipped⟩, ?_, hP⟩
  exact (congrArg Scopes.pop hscopes).trans hpop

end Deals

/-- How a statement stands after some of its unpackings have been met. Outside of methods nothing
is replaced, so there the place of a statement does not matter. -/
def Stands (inMethod listed : Bool) (met : List (Unpacking × Scopes Ty)) (place : Place) : Prop :=
  inMethod = true → match place with
    | .fixed => listed = false
    | .listed => listed = true ∧ hasSound met = false
    | .replaced _ => listed = true ∧ hasSound met = true

theorem Meets.reported {o : Occurrence} {p : Problem} (h : o.verdict = .reported p) (g : Progress) :
    Meets [o] g { g with problems := g.problems ++ [p] } := by
  constructor <;> simp [Occurrence.problem?, h]

theorem Meets.passedOver {o : Occurrence} (h : o.verdict = .passedOver) (g : Progress) :
    Meets [o] g { g with skipped := g.skipped + 1 } := by
  constructor <;> simp [Occurrence.problem?, h]

theorem Meets.replaced {o : Occurrence} (h : o.verdict = .replaced) (g : Progress)
    (temps : TempNames) (used : List Form) :
    Meets [o] g { g with temps, used, transformed := g.transformed + 1 } := by
  constructor <;> simp [Occurrence.problem?, h]

/-- An unpacking that is not sound does not replace its statement. -/
theorem Stands.unsound {inMethod listed : Bool} {met : List (Unpacking × Scopes Ty)} {place : Place}
    {scopes : Scopes Ty} {a : Unpacking} (h : Stands inMethod listed met place)
    (ha : isSound scopes a = false) : Stands inMethod listed (met ++ [(a, scopes)]) place := by
  have hsame : hasSound (met ++ [(a, scopes)]) = hasSound met := by simp [hasSound, ha]
  unfold Stands at h ⊢
  rwa [hsame]

/-- A statement that does not stand in its list cannot be replaced, or not again. -/
theorem Stands.unlisted {listed : Bool} {met : List (Unpacking × Scopes Ty)} {place : Place}
    (h : Stands true listed met place) (hplace : place ≠ .listed) (a : Unpacking)
    (scopes : Scopes Ty) :
    (listed = false ∨ hasSound met = true) ∧ Stands true listed (met ++ [(a, scopes)]) place := by
  cases place with
  | fixed => exact ⟨.inl (h rfl), h⟩
  | listed => exact absurd rfl hplace
  | replaced ss =>
    obtain ⟨hlisted, hmet⟩ := h rfl
    exact ⟨.inr hmet, fun _ => ⟨hlisted, by simp [hasSound] at hmet ⊢; exact .inl hmet⟩⟩

/-- An unpacking is handled as its verdict says. -/
theorem handle_deals (o : Occurrence) {place : Place}
    (h : Stands o.inMethod o.listed o.earlier place) :
    Deals (handle o.inMethod place o.unpacking) o.scopes [o] o.scopes
      (Stands o.inMethod o.listed (o.earlier ++ [(o.unpacking, o.scopes)])) := by
  obtain ⟨a, inMethod, listed, scopes, earlier⟩ := o
  dsimp only at h ⊢
  rintro g rfl
  cases inMethod with
  | false =>
    exact ⟨.reported rfl g, rfl, fun hfalse => nomatch hfalse⟩
  | true =>
    have hcheck := checkTargets_eq a
    by_cases hlen : a.left.args.length = a.right.args.length
    · rw [if_neg (not_not_intro hlen)] at hcheck
      cases hmisfit : misfit? a with
      | some e =>
        simp only [hmisfit] at hcheck
        simp only [handle, hcheck]
        refine ⟨.reported ?_ g, trivial, h.unsound (by simp [isSound, hmisfit])⟩
        simp [Occurrence.verdict, hlen, hmisfit]
      | none =>
        simp only [hmisfit] at hcheck
        by_cases hplace : place = .listed
        · subst hplace
          obtain ⟨hlisted, hmet⟩ := h rfl
          cases hunresolved : unresolved? g.scopes a with
          | some t =>
            have htypes := tempTypes_of_unresolved hunresolved
            simp only [handle, hcheck, htypes]
            refine ⟨.reported ?_ g, trivial, h.unsound (by simp [isSound, hunresolved])⟩
            simp [Occurrence.verdict, Occurrence.isLate, hlen, hmisfit, hlisted, hmet, hunresolved]
          | none =>
            obtain ⟨types, htypes⟩ := tempTypes_of_resolved hunresolved
            simp only [handle, hcheck, htypes]
            refine ⟨.replaced ?_ g _ _, trivial, fun _ => ⟨hlisted, ?_⟩⟩
            · simp [Occurrence.verdict, Occurrence.isLate, hlen, hmisfit, hlisted, hmet, hunresolved]
            · simp [hasSound, isSound, hlen, hmisfit, hunresolved]
        · obtain ⟨hlate, hstands⟩ := h.unlisted hplace a g.scopes
          simp only [handle, hcheck]
          refine ⟨.passedOver ?_ g, trivial, hstands⟩
          rcases hlate with hlate | hlate <;>
            simp [Occurrence.verdict, Occurrence.isLate, hlen, hmisfit, hlate]
    · rw [if_pos hlen] at hcheck
      simp only [handle, hcheck]
      refine ⟨.reported ?_ g, trivial, h.unsound (by simp [isSound, hlen])⟩
      simp [Occurrence.verdict, hlen]

theorem handleAll_deal {inMethod listed : Bool} {earlier : List (Unpacking × Scopes Ty)}
    {place : Place} (h : Stands inMethod listed earlier place) (scopes : Scopes Ty)
    (us : List Unpacking) :
    Deals (us.foldlM (handle inMethod) place) scopes
      (occurrencesAt inMethod listed scopes earlier us) scopes
      (Stands inMethod listed (earlier ++ us.map (·, scopes))) := by
  induction us generalizing earlier place with
  | nil =>
    rw [List.map_nil, List.append_nil]
    exact .pure h
  | cons a us ih =>
    rw [List.foldlM_cons, List.map_cons, List.append_cons]
    exact (handle_deals ⟨a, inMethod, listed, scopes, earlier⟩ h).bind fun _ hplace => ih hplace

section Scoping

theorem pop_declaring (scopes : Scopes Ty) (t : Stmt) : (declaring scopes t).pop = scopes.pop := by
  cases t <;> simp [declaring]

/-- The declarations of a list of statements go with its scope. -/
theorem pop_foldl_declaring (scopes : Scopes Ty) (ss : List Stmt) :
    (ss.foldl declaring scopes).pop = scopes.pop := by
  induction ss generalizing scopes with
  | nil => rfl
  | cons s ss ih => rw [List.foldl_cons, ih, pop_declaring]

/-- The scopes behind the arms of a switch, inside of it. -/
def declaringArms (scopes : Scopes Ty) (as : List Arm) : Scopes Ty :=
  as.foldl (fun scopes a => a.stmts.foldl declaring scopes) scopes

theorem pop_declaringArms (scopes : Scopes Ty) (as : List Arm) :
    (declaringArms scopes as).pop = scopes.pop := by
  induction as generalizing scopes with
  | nil => rfl
  | cons a as ih => exact (ih _).trans (pop_foldl_declaring scopes a.stmts)

end Scoping

section Statements

variable (r : Resolver) (inMethod : Bool)

/-- The unpackings in the labels of a switch, with the scopes around them. -/
def labelUnpackings (scopes : Scopes Ty) : List Arm → List (Unpacking × Scopes Ty)
  | [] => []
  | a :: as => (unpackings? r a.label).map (·, scopes) ++
      labelUnpackings (a.stmts.foldl declaring scopes) as

/-- The unpackings of a statement that are not in a statement inside of it, with the scopes around
them. These can replace the statement. -/
def ownUnpackings (scopes : Scopes Ty) : Stmt → List (Unpacking × Scopes Ty)
  | .expr _ e | .ifElse _ e _ _ | .whileLoop _ e _ => (unpackings r e).map (·, scopes)
  | .localVar s t n init _ => (unpackings? r init).map (·, scopes.declare n t s.start)
  | .switch _ sel as => (unpackings r sel).map (·, scopes) ++ labelUnpackings r scopes.push as
  | .returnWith _ v => (unpackings? r v).map (·, scopes)
  | .block _ _ | .breakOut _ | .continueOn _ | .empty _ => []

theorem stands_fixed : Stands inMethod false [] .fixed := fun _ => rfl

theorem stands_listed : Stands inMethod true [] .listed := fun _ => ⟨rfl, rfl⟩

mutual

theorem stmt_deals (place : Place) (listed : Bool) (scopes : Scopes Ty)
    (h : Stands inMethod listed [] place) : ∀ t : Stmt,
    Deals (stmt r inMethod place t) scopes (stmtOccurrences r inMethod listed scopes t)
      (declaring scopes t) fun out => Stands inMethod listed (ownUnpackings r scopes t) out.1
  | .expr s e => by
    rw [stmt, stmtOccurrences]
    exact (handleAll_deal h scopes (unpackings r e)).map fun _ hplace => hplace
  | .localVar s t n init isFinal => by
    rw [stmt, stmtOccurrences]
    exact (Deals.declare n t s.start).bind fun _ _ =>
      (handleAll_deal h _ (unpackings? r init)).map fun _ hplace => hplace
  | .block s ss => by
    rw [stmt, stmtOccurrences]
    exact ((stmts_deal scopes.push ss).inScope (pop_foldl_declaring _ ss)).map fun _ _ => h
  | .ifElse s c t none => by
    rw [stmt, stmtOccurrences]
    refine (handleAll_deal h scopes (unpackings r c)).bind fun _ hplace => ?_
    have ht := stmt_deals .fixed false scopes.push (stands_fixed inMethod) t
    exact (ht.inScope (pop_declaring _ t)).map fun _ _ => hplace
  | .ifElse s c t (some e) => by
    rw [stmt, stmtOccurrences]
    refine (handleAll_deal h scopes (unpackings r c)).bind fun _ hplace => ?_
    have ht := stmt_deals .fixed false scopes.push (stands_fixed inMethod) t
    have he := stmt_deals .fixed false scopes.push (stands_fixed inMethod) e
    exact (ht.inScope (pop_declaring _ t)).bind fun _ _ =>
      (he.inScope (pop_declaring _ e)).map fun _ _ => hplace
  | .whileLoop s c b => by
    rw [stmt, stmtOccurrences]
    refine (handleAll_deal h scopes (unpackings r c)).bind fun _ hplace => ?_
    have hb := stmt_deals .fixed false scopes.push (stands_fixed inMethod) b
    exact (hb.inScope (pop_declaring _ b)).map fun _ _ => hplace
  | .switch s sel as => by
    rw [stmt, stmtOccurrences]
    refine (handleAll_deal h scopes (unpackings r sel)).bind fun place hplace => ?_
    exact ((arms_deal place listed scopes.push _ hplace as).inScope (pop_declaringArms _ as)).map
      fun _ hout => hout
  | .returnWith s v => by
    rw [stmt, stmtOccurrences]
    exact (handleAll_deal h scopes (unpackings? r v)).map fun _ hplace => hplace
  | .breakOut s | .continueOn s | .empty s => by
    rw [stmt, stmtOccurrences]
    exact .pure h

theorem stmts_deal (scopes : Scopes Ty) : ∀ ss : List Stmt,
    Deals (stmts r inMethod ss) scopes (stmtsOccurrences r inMethod scopes ss)
      (ss.foldl declaring scopes) fun _ => True
  | [] => by
    rw [stmts, stmtsOccurrences]
    exact .pure trivial
  | s :: ss => by
    rw [stmts, stmtsOccurrences]
    exact (stmt_deals .listed true scopes (stands_listed inMethod) s).bind fun _ _ =>
      (stmts_deal _ ss).done

theorem arms_deal (place : Place) (listed : Bool) (scopes : Scopes Ty)
    (earlier : List (Unpacking × Scopes Ty)) (h : Stands inMethod listed earlier place) :
    ∀ as : List Arm,
    Deals (arms r inMethod place as) scopes (armsOccurrences r inMethod listed scopes earlier as)
      (declaringArms scopes as)
      fun out => Stands inMethod listed (earlier ++ labelUnpackings r scopes as) out.1
  | [] => by
    rw [arms, armsOccurrences, labelUnpackings, List.append_nil]
    exact .pure h
  | .mk label ss :: as => by
    rw [arms, armsOccurrences]
    refine (handleAll_deal h scopes (unpackings? r label)).bind fun place hplace => ?_
    refine (stmts_deal scopes ss).bind fun _ _ => ?_
    refine (arms_deal place listed _ _ hplace as).map fun _ hout => ?_
    rw [labelUnpackings, ← List.append_assoc]
    exact hout

end

end Statements

section Classes

variable (r : Resolver) {scopes : Scopes Ty}

theorem body_deals (inMethod : Bool) (b : Tree.Body) :
    Deals (body r inMethod b) scopes (stmtsOccurrences r inMethod scopes.push b.stmts) scopes
      fun _ => True :=
  ((stmts_deal r inMethod scopes.push b.stmts).inScope (pop_foldl_declaring _ b.stmts)).done

theorem params_deal (scopes : Scopes Ty) (ps : List Tree.Param) :
    Deals (ps.forM fun p => declare p.name p.type p.span.start) scopes []
      (declaringParams scopes ps) fun _ => True := by
  induction ps generalizing scopes with
  | nil => exact .pure trivial
  | cons p ps ih => exact (Deals.declare p.name p.type p.span.start).bind fun _ _ => ih _

theorem pop_declaringParams (scopes : Scopes Ty) (ps : List Tree.Param) :
    (declaringParams scopes ps).pop = scopes.pop := by
  induction ps generalizing scopes with
  | nil => rfl
  | cons p ps ih => exact (ih _).trans (Scopes.pop_declare scopes p.name p.type p.span.start)

theorem member_deals (m : Tree.Member) :
    Deals (member r m) scopes (memberOccurrences r scopes m) scopes fun _ => True := by
  cases m with
  | field f => exact (handleAll_deal (stands_fixed false) scopes (unpackings? r f.init)).done
  | initializer i => exact (body_deals r false i.body).done
  | method d =>
    have hbody : Deals (body? r d.body) (declaringParams scopes.push d.params)
        (memberOccurrences r scopes (.method d)) (declaringParams scopes.push d.params)
        fun _ => True := by
      rw [memberOccurrences]
      cases d.body with
      | none => exact .pure trivial
      | some b =>
        rw [Option.toList_some, List.flatMap_singleton]
        exact (body_deals r true b).done
    have hmethod := (params_deal scopes.push d.params).bind fun _ _ => hbody
    exact (hmethod.inScope (pop_declaringParams _ d.params)).done

theorem fields_deal (scopes : Scopes Ty) (ms : List Tree.Member) :
    Deals (ms.forM declareField) scopes [] (ms.foldl declaringField scopes) fun _ => True := by
  induction ms generalizing scopes with
  | nil => exact .pure trivial
  | cons m ms ih =>
    have hfield : Deals (declareField m) scopes [] (declaringField scopes m) fun _ => True := by
      cases m with
      | field f => exact .declare f.name f.type f.span.start
      | method d => exact .pure trivial
      | initializer i => exact .pure trivial
    exact hfield.bind fun _ _ => ih _

theorem pop_foldl_declaringField (scopes : Scopes Ty) (ms : List Tree.Member) :
    (ms.foldl declaringField scopes).pop = scopes.pop := by
  induction ms generalizing scopes with
  | nil => rfl
  | cons m ms ih =>
    rw [List.foldl_cons, ih]
    cases m <;> simp [declaringField]

theorem Deals.mapM {α : Type} {f : α → Pass α} {os : α → List Occurrence}
    (h : ∀ a, Deals (f a) scopes (os a) scopes fun _ => True) (as : List α) :
    Deals (as.mapM f) scopes (as.flatMap os) scopes fun _ => True := by
  induction as with
  | nil => exact .pure trivial
  | cons a as ih =>
    rw [List.mapM_cons, List.flatMap_cons]
    exact (h a).bind fun _ _ => ih.done

theorem cls_deals (c : Tree.Class) :
    Deals (cls r c) {} (classOccurrences r c) {} fun _ => True := by
  have hmembers := (fields_deal ({} : Scopes Ty).push c.members).bind fun _ _ =>
    (Deals.mapM (member_deals r) c.members).done (f := fun members => { c with members })
  exact hmembers.inScope (pop_foldl_declaringField _ c.members)

/-- A run deals with all unpackings of a unit as their verdicts say. -/
theorem classes_meet (config : DesugarConfig) (u : Tree.CompilationUnit) :
    Meets (occurrences (Resolver.ofImports config.marker u.imports) u) (start config u)
      (classes config u).2 :=
  (Deals.mapM (cls_deals (Resolver.ofImports config.marker u.imports)) u.classes (start config u)
    rfl).1

end Classes

/-- Each verdict counts once. -/
theorem length_eq_counts (os : List Occurrence) :
    os.countP (·.verdict = .replaced) + os.countP (·.verdict = .passedOver) +
      (os.filterMap Occurrence.problem?).length = os.length := by
  induction os with
  | nil => rfl
  | cons o os ih =>
    rw [List.countP_cons, List.countP_cons, List.filterMap_cons, List.length_cons, ← ih]
    simp only [Occurrence.problem?]
    cases o.verdict with
    | replaced => simp; omega
    | passedOver => simp; omega
    | reported p => simp; omega

end Rewrite

open Rewrite

/-- A run over a loaded unit accounts for every unpacking that a walk comes to which does not look
into unpackings: it is replaced, passed over or reported, as the first failing check says, and the
problems come in the order of the walk. Their names are spelled by the table that the run leaves. -/
theorem desugar_load_accounts (config : DesugarConfig) (u : Tree.CompilationUnit)
    (names : Interner) (hfits : (Program.load u names).1.store.arms.size ≤ absentRaw) :
    let r := Resolver.ofImports config.marker u.imports
    ∃ o p' names',
      desugar config (Program.load u names).1 (Program.load u names).2 = .ok (o, p', names') ∧
      (occurrences r u).map (·.unpacking) = found r (Tree.unitVisits (entered r) u) ∧
      o.transformed + o.skipped + o.problems.length =
        (found r (Tree.unitVisits (entered r) u)).length ∧
      o.problems.map (Problem.map names'.lookup) =
        (occurrences r u).filterMap Occurrence.problem? ∧
      o.skipped = (occurrences r u).countP (·.verdict = .passedOver) ∧
      o.transformed = (occurrences r u).countP (·.verdict = .replaced) := by
  intro r
  obtain ⟨fp, hunit, hnodup⟩ := Program.load_unitAt u names hfits
  obtain ⟨o, p', names', -, hrun, -, ho, -⟩ := desugar_eq config hunit hnodup
  have ho := ho _ names'.spelledAs_lookup
  have hlisted : (occurrences r u).map (·.unpacking) = found r (Tree.unitVisits (entered r) u) := by
    rw [map_occurrences, unitUnpackings_eq]
  obtain ⟨hproblems, htransformed, hskipped⟩ := classes_meet config u
  -- A run starts with nothing counted and nothing reported.
  have hproblems' : o.problems.map (Problem.map names'.lookup) =
      (occurrences r u).filterMap Occurrence.problem? :=
    (congrArg Outcome.problems ho).trans hproblems
  have htransformed' : o.transformed = (occurrences r u).countP (·.verdict = .replaced) :=
    (congrArg Outcome.transformed ho).trans (htransformed.trans (Nat.zero_add _))
  have hskipped' : o.skipped = (occurrences r u).countP (·.verdict = .passedOver) :=
    (congrArg Outcome.skipped ho).trans (hskipped.trans (Nat.zero_add _))
  refine ⟨o, p', names', hrun, hlisted, ?_, hproblems', hskipped', htransformed'⟩
  have hlength := congrArg List.length hproblems'
  rw [List.length_map] at hlength
  rw [← hlisted, List.length_map, htransformed', hskipped', hlength]
  exact length_eq_counts _

namespace Rewrite

open TupleAssign.Tree (Expr) in
/-- The expression `tuple(targets) = tuple(values)`, at an offset. -/
def unpackExpr (offset : Nat) (targets values : List Expr) : Expr :=
  .assign ⟨offset, offset + 9⟩ (.call ⟨offset, offset + 4⟩ none "tuple" targets)
    (.call ⟨offset + 5, offset + 9⟩ none "tuple" values)

/-- A class in which unpackings meet with every verdict. -/
def mixedUnit : Tree.CompilationUnit where
  package := "p"
  imports := [{ path := "lombok.Tuple", isStatic := true, onDemand := true }]
  classes := [{
    name := "C"
    members := [
      .field { type := .primitive .int, name := "f", init := some (unpackExpr 10 [] [.null {}]) },
      .method {
        name := "m"
        params := [
          { type := .primitive .int, name := "a", span := ⟨20, 21⟩ },
          { type := .primitive .int, name := "b", span := ⟨22, 23⟩ }]
        body := some {
          stmts := [
            .expr {} (unpackExpr 30 [.ident {} "a", .ident {} "b"] [.ident {} "a"]),
            .expr {} (unpackExpr 40 [.ident {} "a", .null ⟨42, 43⟩] [.ident {} "b", .ident {} "a"]),
            .whileLoop {} (.bool {} true) (.expr {}
              (unpackExpr 50 [.ident {} "a", .ident {} "b"] [.ident {} "b", .ident {} "a"])),
            .expr {} (unpackExpr 60 [.ident {} "a", .ident {} "z"] [.ident {} "z", .ident {} "a"]),
            .expr {} (.call {} none "f" [
              unpackExpr 70 [.ident {} "a", .ident {} "b"] [.ident {} "b", .ident {} "a"],
              unpackExpr 80 [.ident {} "a", .ident {} "b"] [.ident {} "b", .ident {} "a"]])] } }] }]

end Rewrite

theorem desugar_load_accounts_mixedUnit :
    ∃ o p' names',
      desugar {} (Program.load mixedUnit {}).1 (Program.load mixedUnit {}).2 = .ok (o, p', names') ∧
      o.transformed = 1 ∧ o.skipped = 2 ∧
      o.problems.map (Problem.map names'.lookup) = [
        ⟨.noEnclosingMethod, ⟨10, 19⟩⟩, ⟨.arityMismatch 2 1, ⟨30, 39⟩⟩,
        ⟨.invalidLeftShape, ⟨42, 43⟩⟩, ⟨.unresolvedTarget "z", ⟨60, 69⟩⟩] := by
  obtain ⟨o, p', names', hrun, -, -, hproblems, hskipped, htransformed⟩ :=
    desugar_load_accounts {} mixedUnit {} (by decide +kernel)
  refine ⟨o, p', names', hrun, htransformed.trans ?_, hskipped.trans ?_, hproblems.trans ?_⟩ <;>
    decide +kernel

end TupleAssign
