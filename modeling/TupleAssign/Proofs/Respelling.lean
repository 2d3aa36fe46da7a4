import TupleAssign.Proofs.Naming
import TupleAssign.Proofs.Renaming
/-!
# The pass on names and the pass on strings

The pass goes over trees of names, and enters the names of temporaries in the table. Spelling the
result out, through a map that keeps names apart and agrees with the table in the end, gives what
the pass over the spelled out trees gives (`cls_respells`). So nothing that the pass does depends on
the numbers that strings have in the table.
-/

namespace TupleAssign

/-- The map spells the names of the table as the table does. -/
def Interner.SpelledAs (t : Interner) (f : Name → String) : Prop := ∀ n s, t.Knows n s → f n = s

theorem Interner.SpelledAs.of_keeps {t t' : Interner} {f : Name → String} (h : t'.SpelledAs f)
    (hkeeps : t.Keeps t') : t.SpelledAs f :=
  fun n s hn => h n s (hkeeps n s hn)

theorem Interner.SpelledAs.map_eq {names : Interner} {f : Name → String} (hf : names.SpelledAs f)
    {ns : List Name} {ss : List String} (h : List.Forall₂ names.Knows ns ss) : ns.map f = ss := by
  induction h with
  | nil => rfl
  | cons head _ ih => rw [List.map_cons, hf _ _ head, ih]

namespace Resolver

theorem snd_enter (r : Resolver) (names : Interner) :
    (r.enter names).2 = names.internAll (r.method :: r.ownerSimple :: r.ownerPath) :=
  Interner.snd_internEach _ r.ownerPath

/-- The resolver looks for the names of the strings that it looked for. -/
theorem map_enter (r : Resolver) {names : Interner} {f : Name → String}
    (hf : (r.enter names).2.SpelledAs f) : (r.enter names).1.map f = r := by
  rw [snd_enter] at hf
  have hmethod := ((names.intern r.method).2.keeps_internAll (r.ownerSimple :: r.ownerPath) _ _
    (names.knows_intern r.method))
  have hsimple := ((names.intern r.method).2.intern r.ownerSimple).2.keeps_internAll r.ownerPath _ _
    ((names.intern r.method).2.knows_intern r.ownerSimple)
  have hpath := ((names.intern r.method).2.intern r.ownerSimple).2.knows_internEach r.ownerPath
  simp only [map, enter, hf _ _ hmethod, hf _ _ hsimple, hf.map_eq hpath]

end Resolver

namespace Rewrite

open TupleAssign.Tree (Ty Expr Stmt Arm)

section

variable {ν μ : Type} (f : ν → μ)

def Step.map (s : Step ν) : Step μ where
  target := f s.target
  value := s.value.map f
  temp := s.temp.map fun (name, type) => (f name, type.map f)

def Place.map : Place ν → Place μ
  | .fixed => .fixed
  | .listed => .listed
  | .replaced ss => .replaced (ss.map (Stmt.map f))

theorem expansion_map (span : Span) (steps : List (Step ν)) :
    expansion span (steps.map (Step.map f)) = (expansion span steps).map (Stmt.map f) := by
  have hdeclaration (s : Step ν) :
      (s.map f).declaration? span = (s.declaration? span).map (Stmt.map f) := by
    obtain ⟨target, value, temp⟩ := s
    cases temp <;> simp [Step.map, Step.declaration?, Stmt.map]
  have hassignment (s : Step ν) : (s.map f).assignment span = (s.assignment span).map f := by
    obtain ⟨target, value, temp⟩ := s
    cases temp <;> simp [Step.map, Step.assignment, Stmt.map, Expr.map]
  simp only [expansion, List.map_append, List.map_map, List.filterMap_map, List.map_filterMap,
    Function.comp_def, hdeclaration, hassignment]

theorem Place.stmts_map (s : Stmt ν) (place : Place ν) :
    (place.map f).stmts (s.map f) = (place.stmts s).map (Stmt.map f) := by
  cases place <;> rfl

end

/-! ## Progress -/

/-- The second progress is the first one with its names spelled out. -/
structure Respelled (f : Name → String) (g : Progress Name NameSupply) (g' : Progress) : Prop where
  temps : g.temps.temps.SpelledBy g.temps.names g'.temps
  scopes : g'.scopes = g.scopes.map f
  used : g'.used = g.used
  problems : g'.problems = g.problems.map (Problem.map f)
  transformed : g'.transformed = g.transformed
  skipped : g'.skipped = g.skipped

/-- The first action only adds to the table. If `f` spells the table that it leaves, the second one
gives the same, spelled out. -/
def Respells {α β : Type} (f : Name → String) (h : α → β) (m : PassOf Name NameSupply α)
    (m' : Pass β) : Prop :=
  ∀ g, g.temps.names.Keeps (m g).2.temps.names ∧
    ∀ g', Respelled f g g' → (m g).2.temps.names.SpelledAs f →
      (m' g').1 = h (m g).1 ∧ Respelled f (m g).2 (m' g').2

namespace Respells

variable {f : Name → String} {α β γ δ : Type}

theorem pure {h : α → β} (a : α) : Respells f h (Pure.pure a) (Pure.pure (h a)) :=
  fun _ => ⟨fun _ _ hn => hn, fun _ hg _ => ⟨rfl, hg⟩⟩

theorem bind {h : α → β} {h' : γ → δ} {m : PassOf Name NameSupply α} {m' : Pass β}
    {k : α → PassOf Name NameSupply γ} {k' : β → Pass δ} (hm : Respells f h m m')
    (hk : ∀ a, Respells f h' (k a) (k' (h a))) : Respells f h' (m >>= k) (m' >>= k') := by
  intro g
  obtain ⟨hkeeps₁, hm⟩ := hm g
  obtain ⟨hkeeps₂, hk⟩ := hk (m g).1 (m g).2
  refine ⟨hkeeps₁.trans hkeeps₂, fun g' hg hf => ?_⟩
  -- What agrees with the table in the end agreed with it before.
  obtain ⟨ha, hg₁⟩ := hm g' hg (hf.of_keeps hkeeps₂)
  have h₂ := hk (m' g').2 hg₁ hf
  rw [← ha] at h₂
  exact h₂

theorem map {h : α → β} {h' : γ → δ} {m : PassOf Name NameSupply α} {m' : Pass β} {k : α → γ}
    {k' : β → δ} (hm : Respells f h m m') (hk : ∀ a, k' (h a) = h' (k a)) :
    Respells f h' (m >>= fun a => Pure.pure (k a)) (m' >>= fun b => Pure.pure (k' b)) :=
  hm.bind fun a => by
    rw [hk a]
    exact .pure (k a)

/-- An action on the scopes alone. -/
theorem modifyScopes (act : Scopes (Ty Name) Name → Scopes (Ty Name) Name)
    (act' : Scopes Ty → Scopes Ty) (hact : ∀ s, act' (s.map f) = (act s).map f) :
    Respells f (fun u : Unit => u) (modify fun g => { g with scopes := act g.scopes })
      (modify fun g => { g with scopes := act' g.scopes }) := by
  refine fun g => ⟨fun _ _ hn => hn, fun g' hg _ => ⟨rfl, ?_⟩⟩
  exact { hg with scopes := (congrArg act' hg.scopes).trans (hact g.scopes) }

theorem declare (name : Name) (type : Ty Name) (offset : Nat) :
    Respells f (fun u : Unit => u) (Rewrite.declare name type offset)
      (Rewrite.declare (f name) (type.map f) offset) := by
  have hdeclare (s : Scopes (Ty Name) Name) : (s.map f).declare (f name) (type.map f) offset =
      (s.declare name type offset).map f := by
    obtain ⟨frames⟩ := s
    cases frames <;> rfl
  exact modifyScopes (·.declare name type offset) (·.declare (f name) (type.map f) offset) hdeclare

theorem inScope {h : α → β} {m : PassOf Name NameSupply α} {m' : Pass β} (hm : Respells f h m m') :
    Respells f h (Rewrite.inScope m) (Rewrite.inScope m') := by
  have hpop (s : Scopes (Ty Name) Name) : (s.map f).pop = s.pop.map f := by
    simp [Scopes.pop, Scopes.map]
  exact (modifyScopes Scopes.push Scopes.push fun _ => rfl).bind fun _ => hm.bind fun a =>
    (modifyScopes Scopes.pop Scopes.pop hpop).bind fun _ => .pure a

theorem mapM {h : α → β} {h' : γ → δ} {m : α → PassOf Name NameSupply γ} {m' : β → Pass δ}
    (hm : ∀ a, Respells f h' (m a) (m' (h a))) (as : List α) :
    Respells f (List.map h') (as.mapM m) ((as.map h).mapM m') := by
  induction as with
  | nil => exact .pure []
  | cons a as ih =>
    rw [List.map_cons, List.mapM_cons, List.mapM_cons]
    exact (hm a).bind fun c => ih.map fun cs => rfl

theorem forM {h : α → β} {m : α → PassOf Name NameSupply Unit} {m' : β → Pass Unit}
    (hm : ∀ a, Respells f (fun u => u) (m a) (m' (h a))) (as : List α) :
    Respells f (fun u : Unit => u) (as.forM m) ((as.map h).forM m') := by
  induction as with
  | nil => exact .pure ()
  | cons a as ih => exact (hm a).bind fun _ => ih

end Respells

/-! ## One unpacking -/

section Handle

variable {ν σ : Type} [DecidableEq ν] [Supply σ ν] {inMethod : Bool} {place : Place ν}
  {u : Unpacking ν} {g : Progress ν σ} {targets : List ν} {p : Problem ν}

theorem handle_of_error (h : Desugar.checkTargets inMethod u = .error p) :
    handle inMethod place u g = (place, { g with problems := g.problems ++ [p] }) := by
  simp only [handle, h]

theorem handle_of_ne_listed (h : Desugar.checkTargets inMethod u = .ok targets)
    (hplace : place ≠ .listed) :
    handle inMethod place u g = (place, { g with skipped := g.skipped + 1 }) := by
  cases place with
  | listed => exact (hplace rfl).elim
  | fixed => simp only [handle, h]
  | replaced ss => simp only [handle, h]

theorem handle_of_unresolved (h : Desugar.checkTargets inMethod u = .ok targets)
    (htypes : Desugar.tempTypes g.scopes u.span targets (Hazard.analyze targets u.values) =
      .error p) :
    handle inMethod .listed u g = (.listed, { g with problems := g.problems ++ [p] }) := by
  simp only [handle, h, htypes]

theorem handle_of_resolved {types : List (Option (Ty ν))}
    (h : Desugar.checkTargets inMethod u = .ok targets)
    (htypes : Desugar.tempTypes g.scopes u.span targets (Hazard.analyze targets u.values) =
      .ok types) :
    handle inMethod .listed u g =
      (.replaced (expansion u.span (nameSteps g.temps targets u.values types).1),
        { g with
          temps := (nameSteps g.temps targets u.values types).2
          used := g.used ++ [u.left.form, u.right.form]
          transformed := g.transformed + 1 }) := by
  simp only [handle, h, htypes]

end Handle

section

variable {f : Name → String}

theorem nameSteps_respell (s : NameSupply) (targets : List Name) (values : List (Expr Name))
    (types : List (Option (Ty Name))) :
    let named := nameSteps s targets values types
    s.names.Keeps named.2.names ∧
      ∀ t : TempNames, s.temps.SpelledBy s.names t → named.2.names.SpelledAs f →
        let named' := nameSteps t (targets.map f) (values.map (Expr.map f))
          (types.map (Option.map (Ty.map f)))
        named'.1 = named.1.map (Step.map f) ∧
          named.2.temps.SpelledBy named.2.names named'.2 := by
  fun_induction nameSteps s targets values types with
  | case1 s t ts v vs types rest s' hrest ih =>
    rw [hrest] at ih
    refine ⟨ih.1, fun temps htemps hf => ?_⟩
    obtain ⟨hsteps, hleft⟩ := ih.2 temps htemps hf
    exact ⟨congrArg (_ :: ·) hsteps, hleft⟩
  | case2 s t ts v vs type types name s' htake rest s'' hrest ih =>
    rw [hrest] at ih
    have hkeeps := s.temps.keeps_allocate s.names
    have hname : (s.temps.allocate s.names).1 = name := congrArg Prod.fst htake
    have hs' : ⟨(s.temps.allocate s.names).2.1, (s.temps.allocate s.names).2.2⟩ = s' :=
      congrArg Prod.snd htake
    subst hs'
    refine ⟨hkeeps.trans ih.1, fun temps htemps hf => ?_⟩
    obtain ⟨-, hknows, hspelled⟩ := htemps.allocate
    obtain ⟨hsteps, hleft⟩ := ih.2 _ hspelled hf
    have htext : temps.take.1 = f name := (hf _ _ (ih.1 _ _ (hname ▸ hknows))).symm
    simp only [List.map_cons, Option.map_some, nameSteps, supply_take, htext]
    exact ⟨congrArg (_ :: ·) hsteps, hleft⟩
  | case3 targets s values types hnone hsome =>
    refine ⟨fun _ _ hn => hn, fun temps htemps _ => ?_⟩
    have hnil : nameSteps temps (targets.map f) (values.map (Expr.map f))
        (types.map (Option.map (Ty.map f))) = ([], temps) := by
      cases targets with
      | nil => rfl
      | cons t ts =>
        cases values with
        | nil => rfl
        | cons v vs =>
          cases types with
          | nil => rfl
          | cons type types =>
            cases type with
            | none => exact (hnone t ts v vs types rfl rfl rfl).elim
            | some type => exact (hsome t ts v vs type types rfl rfl rfl).elim
    rw [hnil]
    exact ⟨rfl, htemps⟩

/-- An unpacking is decided on in the same way, and what replaces it is the same. -/
theorem handle_respells (hf : Function.Injective f) (inMethod : Bool) (place : Place Name)
    (u : Unpacking Name) :
    Respells f (Place.map f) (handle inMethod place u)
      (handle inMethod (place.map f) (u.map f)) := by
  intro g
  have hchecked := checkTargets_map f inMethod u
  cases hcheck : Desugar.checkTargets inMethod u with
  | error p =>
    rw [hcheck] at hchecked
    rw [handle_of_error hcheck]
    refine ⟨fun _ _ hn => hn, fun g' hg _ => ?_⟩
    rw [handle_of_error hchecked]
    exact ⟨rfl, { hg with problems := by simp [hg.problems] }⟩
  | ok targets =>
    rw [hcheck] at hchecked
    by_cases hplace : place = .listed
    · subst hplace
      have hanalyze : Hazard.analyze (targets.map f) (u.map f).values =
          Hazard.analyze targets u.values := analyze_map hf targets u.values
      have htyped := tempTypes_map hf g.scopes u.span targets (Hazard.analyze targets u.values)
      cases htypes : Desugar.tempTypes g.scopes u.span targets
          (Hazard.analyze targets u.values) with
      | error p =>
        rw [htypes, ← hanalyze] at htyped
        rw [handle_of_unresolved hcheck htypes]
        refine ⟨fun _ _ hn => hn, fun g' hg _ => ?_⟩
        rw [← hg.scopes] at htyped
        rw [Place.map, handle_of_unresolved hchecked htyped]
        exact ⟨rfl, { hg with problems := by simp [hg.problems] }⟩
      | ok types =>
        rw [htypes, ← hanalyze] at htyped
        rw [handle_of_resolved hcheck htypes]
        obtain ⟨hkeeps, hnamed⟩ := nameSteps_respell g.temps targets u.values types
        refine ⟨hkeeps, fun g' hg hspelled => ?_⟩
        obtain ⟨hsteps, htemps⟩ := hnamed g'.temps hg.temps hspelled
        rw [← hg.scopes] at htyped
        rw [Place.map, handle_of_resolved hchecked htyped]
        refine ⟨?_, { hg with temps := htemps, used := ?_, transformed := ?_ }⟩
        · rw [Place.map, ← expansion_map, ← hsteps]
          rfl
        · exact congrArg (· ++ _) hg.used
        · exact congrArg (· + 1) hg.transformed
    · have hplace' : place.map f ≠ .listed := by
        cases place with
        | listed => exact (hplace rfl).elim
        | fixed => simp [Place.map]
        | replaced ss => simp [Place.map]
      rw [handle_of_ne_listed hcheck hplace]
      refine ⟨fun _ _ hn => hn, fun g' hg _ => ?_⟩
      rw [handle_of_ne_listed hchecked hplace']
      exact ⟨rfl, { hg with skipped := congrArg (· + 1) hg.skipped }⟩

theorem handleAll_respells (hf : Function.Injective f) (inMethod : Bool) (place : Place Name)
    (us : List (Unpacking Name)) :
    Respells f (Place.map f) (us.foldlM (handle inMethod) place)
      ((us.map (Unpacking.map f)).foldlM (handle inMethod) (place.map f)) := by
  induction us generalizing place with
  | nil => exact .pure place
  | cons u us ih =>
    rw [List.map_cons, List.foldlM_cons, List.foldlM_cons]
    exact (handle_respells hf inMethod place u).bind fun place => ih place

/-! ## Expressions and statements -/

variable (hf : Function.Injective f) (r : Resolver Name)

include hf

theorem expr_respells (inMethod : Bool) (place : Place Name) (e : Expr Name) :
    Respells f (Place.map f) (expr r inMethod place e)
      (expr (r.map f) inMethod (place.map f) (e.map f)) := by
  rw [expr, expr, unpackings_map hf]
  exact handleAll_respells hf inMethod place _

theorem expr?_respells (inMethod : Bool) (place : Place Name) (o : Option (Expr Name)) :
    Respells f (Place.map f) (expr? r inMethod place o)
      (expr? (r.map f) inMethod (place.map f) (o.map (Expr.map f))) := by
  rw [expr?, expr?, unpackings?_map hf]
  exact handleAll_respells hf inMethod place _

end

section

variable {f : Name → String}

mutual

theorem stmt_respells (hf : Function.Injective f) (r : Resolver Name) (inMethod : Bool) :
    ∀ (place : Place Name) (s : Stmt Name),
      Respells f (Prod.map (Place.map f) (Stmt.map f)) (stmt r inMethod place s)
        (stmt (r.map f) inMethod (place.map f) (s.map f))
  | place, .expr s e => by
    simp only [stmt, Stmt.map]
    exact (expr_respells hf r inMethod place e).map fun _ => rfl
  | place, .localVar s t n init isFinal => by
    simp only [stmt, Stmt.map]
    exact (Respells.declare n t s.start).bind fun _ =>
      (expr?_respells hf r inMethod place init).map fun _ => rfl
  | place, .block s ss => by
    simp only [stmt, Stmt.map]
    exact (stmts_respells hf r inMethod ss).inScope.map fun _ => rfl
  | place, .ifElse s c t none => by
    simp only [stmt, Stmt.map]
    exact (expr_respells hf r inMethod place c).bind fun _ =>
      (stmt_respells hf r inMethod .fixed t).inScope.map fun _ => rfl
  | place, .ifElse s c t (some e) => by
    simp only [stmt, Stmt.map]
    exact (expr_respells hf r inMethod place c).bind fun _ =>
      (stmt_respells hf r inMethod .fixed t).inScope.bind fun _ =>
        (stmt_respells hf r inMethod .fixed e).inScope.map fun _ => rfl
  | place, .whileLoop s c b => by
    simp only [stmt, Stmt.map]
    exact (expr_respells hf r inMethod place c).bind fun _ =>
      (stmt_respells hf r inMethod .fixed b).inScope.map fun _ => rfl
  | place, .switch s sel as => by
    simp only [stmt, Stmt.map]
    exact (expr_respells hf r inMethod place sel).bind fun place =>
      (arms_respells hf r inMethod place as).inScope.map fun _ => rfl
  | place, .returnWith s v => by
    simp only [stmt, Stmt.map]
    exact (expr?_respells hf r inMethod place v).map fun _ => rfl
  | place, .breakOut s | place, .continueOn s | place, .empty s => by
    simp only [stmt, Stmt.map]
    exact .pure _

theorem stmts_respells (hf : Function.Injective f) (r : Resolver Name) (inMethod : Bool) :
    ∀ ss : List (Stmt Name), Respells f (Stmt.mapAll f) (stmts r inMethod ss)
      (stmts (r.map f) inMethod (Stmt.mapAll f ss))
  | [] => by
    simp only [stmts, Stmt.mapAll]
    exact .pure []
  | s :: ss => by
    simp only [stmts, Stmt.mapAll]
    refine (stmt_respells hf r inMethod .listed s).bind fun x =>
      (stmts_respells hf r inMethod ss).map fun rest => ?_
    simp only [Prod.map_fst, Prod.map_snd, Place.stmts_map, Stmt.mapAll_eq, List.map_append]

theorem arms_respells (hf : Function.Injective f) (r : Resolver Name) (inMethod : Bool) :
    ∀ (place : Place Name) (as : List (Arm Name)),
      Respells f (Prod.map (Place.map f) (Arm.mapAll f)) (arms r inMethod place as)
        (arms (r.map f) inMethod (place.map f) (Arm.mapAll f as))
  | place, [] => by
    simp only [arms, Arm.mapAll]
    exact .pure (place, [])
  | place, .mk label ss :: as => by
    simp only [arms, Arm.mapAll]
    exact (expr?_respells hf r inMethod place label).bind fun place =>
      (stmts_respells hf r inMethod ss).bind fun _ =>
        (arms_respells hf r inMethod place as).map fun _ => rfl

end

/-! ## Items -/

variable (hf : Function.Injective f) (r : Resolver Name)

include hf

theorem body_respells (inMethod : Bool) (b : Tree.Body Name) :
    Respells f (Tree.Body.map f) (body r inMethod b) (body (r.map f) inMethod (b.map f)) := by
  have hstmts := stmts_respells hf r inMethod b.stmts
  rw [Stmt.mapAll_eq] at hstmts
  refine hstmts.inScope.map fun ss => ?_
  rw [Stmt.mapAll_eq]
  rfl

theorem body?_respells (o : Option (Tree.Body Name)) :
    Respells f (Option.map (Tree.Body.map f)) (body? r o)
      (body? (r.map f) (o.map (Tree.Body.map f))) := by
  cases o with
  | none => exact .pure none
  | some b => exact (body_respells hf r true b).map fun _ => rfl

theorem member_respells (m : Tree.Member Name) :
    Respells f (Tree.mapMember f) (member r m) (member (r.map f) (Tree.mapMember f m)) := by
  cases m with
  | field d => exact (expr?_respells hf r false .fixed d.init).map fun _ => rfl
  | method d =>
    have hparams : Respells f (fun u : Unit => u)
        (d.params.forM fun p => declare p.name p.type p.span.start)
        ((d.params.map (Tree.mapParam f)).forM fun p => declare p.name p.type p.span.start) := by
      refine .forM (fun p => ?_) d.params
      exact .declare p.name p.type p.span.start
    exact (hparams.bind fun _ => body?_respells hf r d.body).inScope.map fun _ => rfl
  | initializer d => exact (body_respells hf r false d.body).map fun _ => rfl

/-- The pass over a class of names, spelled out, is the pass over the class spelled out. -/
theorem cls_respells (c : Tree.Class Name) :
    Respells f (Tree.mapClass f) (cls r c) (cls (r.map f) (Tree.mapClass f c)) := by
  have hfield (d : Tree.Member Name) : Respells f (fun u : Unit => u) (declareField d)
      (declareField (Tree.mapMember f d)) := by
    cases d with
    | field d => exact .declare d.name d.type d.span.start
    | method d => exact .pure ()
    | initializer d => exact .pure ()
  have hfields := Respells.forM hfield c.members
  exact (hfields.bind fun _ => (Respells.mapM (member_respells hf r) c.members).map
    fun _ => rfl).inScope

end

end Rewrite

end TupleAssign
