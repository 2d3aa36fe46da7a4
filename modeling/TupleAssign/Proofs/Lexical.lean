import TupleAssign.Proofs.Replacing
import TupleAssign.Proofs.Walking
/-!
# Types of temporaries

Which declaration gives a temporary its type can be read off the source. The scopes around an
unpacking are those of the blocks, branches, loop bodies and switches it is in, of the body and the
parameters of the method, and of the class. From the inside out, the first scope that has a
declaration of the target which starts before the unpacking decides, and in it the last such
declaration (`Chosen`).

`ListFollows` says how a rewritten statement list comes from the source: a statement stays, with the
lists inside of it rewritten, or gives way to the expansion of one of its own unpackings, in which
the temporaries have the types that the source gives them. A run rewrites all classes in this way
(`run_follows`). Its walk closes every scope that it opens (`Desugar.balanced_carried`).
-/

namespace TupleAssign.Lexical

open TupleAssign.Tree (Ty Expr Stmt Arm)
open Rewrite (unpackings unpackings? targetNames expansion)

/-! ## Declarations in the source -/

/-- The scopes around a place in the source, innermost first, each with its declarations in source
order. -/
abbrev Sight := List (List (Declaration Ty))

/-- The declaration that decides on the type of a name, as seen from an offset. -/
inductive Chosen (name : String) (offset : Nat) : Sight → Declaration Ty → Prop where
  | here {before after : List (Declaration Ty)} {d : Declaration Ty} {outer : Sight}
      (hname : d.name = name) (hoffset : d.offset < offset)
      (hlast : ∀ e ∈ after, ¬ (e.name = name ∧ e.offset < offset)) :
      Chosen name offset ((before ++ d :: after) :: outer) d
  | outward {scope : List (Declaration Ty)} {outer : Sight} {d : Declaration Ty}
      (hnone : ∀ e ∈ scope, ¬ (e.name = name ∧ e.offset < offset))
      (h : Chosen name offset outer d) : Chosen name offset (scope :: outer) d

/-- More declarations in the innermost scope. -/
def extend : Sight → List (Declaration Ty) → Sight
  | [], _ => []
  | scope :: outer, ds => (scope ++ ds) :: outer

/-- What a statement declares in the scope that it stands in. -/
def locals : Stmt → List (Declaration Ty)
  | .localVar s t n _ _ => [⟨n, t, s.start⟩]
  | _ => []

def params (ps : List Tree.Param) : List (Declaration Ty) :=
  ps.map fun p => ⟨p.name, p.type, p.span.start⟩

/-- The fields of a class, in whatever order they appear. -/
def fields (ms : List Tree.Member) : List (Declaration Ty) :=
  ms.filterMap fun
    | .field f => some ⟨f.name, f.type, f.span.start⟩
    | _ => none

/-! ## Unpackings in the source -/

section Source

variable (r : Resolver)

/-- The unpackings in the labels of a switch. All arms share one scope, so a label sees the locals
of the arms before it. -/
def labelUnpackings (sight : Sight) : List Arm → List (Unpacking × Sight)
  | [] => []
  | .mk label ss :: as => (unpackings? r label).map (·, sight) ++
      labelUnpackings (extend sight (ss.flatMap locals)) as

/-- The unpackings of a statement that are in no statement inside of it, each with what is in sight
there. A local is in sight of its own initializer. -/
def ownUnpackings (sight : Sight) : Stmt → List (Unpacking × Sight)
  | .expr _ e | .ifElse _ e _ _ | .whileLoop _ e _ => (unpackings r e).map (·, sight)
  | .localVar s t n init _ => (unpackings? r init).map (·, extend sight [⟨n, t, s.start⟩])
  | .switch _ sel as => (unpackings r sel).map (·, sight) ++ labelUnpackings r ([] :: sight) as
  | .returnWith _ v => (unpackings? r v).map (·, sight)
  | .block _ _ | .breakOut _ | .continueOn _ | .empty _ => []

end Source

/-! ## How the rewritten source follows -/

/-- Steps for targets and their values, as far as there are both: a value that needs one goes
through a temporary, which has the type of the declaration of the target. -/
inductive Typed (sight : Sight) (offset : Nat) :
    List String → List Expr → List Hazard → List Rewrite.Step → Prop where
  | done {ts : List String} {vs : List Expr} {hs : List Hazard} (h : ts = [] ∨ vs = [] ∨ hs = []) :
      Typed sight offset ts vs hs []
  | direct {t : String} {v : Expr} {h : Hazard} {ts : List String} {vs : List Expr}
      {hs : List Hazard} {steps : List Rewrite.Step} (hsafe : h.needsTemporary = false)
      (rest : Typed sight offset ts vs hs steps) :
      Typed sight offset (t :: ts) (v :: vs) (h :: hs) (⟨t, v, none⟩ :: steps)
  | through {t : String} {v : Expr} {h : Hazard} {ts : List String} {vs : List Expr}
      {hs : List Hazard} {steps : List Rewrite.Step} {d : Declaration Ty} (x : String)
      (hneeds : h.needsTemporary = true) (hd : Chosen t offset sight d)
      (rest : Typed sight offset ts vs hs steps) :
      Typed sight offset (t :: ts) (v :: vs) (h :: hs) (⟨t, v, some (x, d.type)⟩ :: steps)

/-- Steps for the targets and values of an unpacking. -/
def TypedFor (sight : Sight) (a : Unpacking) (steps : List Rewrite.Step) : Prop :=
  Typed sight a.span.start (targetNames a) a.values (Hazard.analyze (targetNames a) a.values) steps

section Follows

variable (r : Resolver)

/-- The statement has no statements inside. -/
def isPlain : Stmt → Bool
  | .block _ _ | .ifElse _ _ _ _ | .whileLoop _ _ _ | .switch _ _ _ => false
  | _ => true

mutual

/-- A statement that stays, with the lists inside of it rewritten. Branches and loop bodies have
scopes of their own, the arms of a switch share one. The number is that of the unpackings which have
been replaced. -/
inductive StmtFollows : Sight → Stmt → Stmt → Nat → Prop where
  | plain (sight : Sight) {t : Stmt} (h : isPlain t = true) : StmtFollows sight t t 0
  | block {sight : Sight} {s : Span} {ss ss' : List Stmt} {n : Nat}
      (h : ListFollows ([] :: sight) ss ss' n) : StmtFollows sight (.block s ss) (.block s ss') n
  | ifThen {sight : Sight} {s : Span} {c : Expr} {t t' : Stmt} {n : Nat}
      (h : StmtFollows ([] :: sight) t t' n) :
      StmtFollows sight (.ifElse s c t none) (.ifElse s c t' none) n
  | ifElse {sight : Sight} {s : Span} {c : Expr} {t t' e e' : Stmt} {n m : Nat}
      (h : StmtFollows ([] :: sight) t t' n) (h' : StmtFollows ([] :: sight) e e' m) :
      StmtFollows sight (.ifElse s c t (some e)) (.ifElse s c t' (some e')) (n + m)
  | whileLoop {sight : Sight} {s : Span} {c : Expr} {b b' : Stmt} {n : Nat}
      (h : StmtFollows ([] :: sight) b b' n) :
      StmtFollows sight (.whileLoop s c b) (.whileLoop s c b') n
  | switch {sight : Sight} {s : Span} {sel : Expr} {as as' : List Arm} {n : Nat}
      (h : ArmsFollow ([] :: sight) as as' n) :
      StmtFollows sight (.switch s sel as) (.switch s sel as') n

/-- A statement that gives way is gone through all the same, though nothing is left of it. What it
declares stays in sight. -/
inductive ListFollows : Sight → List Stmt → List Stmt → Nat → Prop where
  | nil (sight : Sight) : ListFollows sight [] [] 0
  | keep {sight : Sight} {t t' : Stmt} {ss ss' : List Stmt} {n m : Nat}
      (h : StmtFollows sight t t' n) (rest : ListFollows (extend sight (locals t)) ss ss' m) :
      ListFollows sight (t :: ss) (t' :: ss') (n + m)
  | replace {sight sight' : Sight} {t t' : Stmt} {ss ss' : List Stmt} {n m : Nat} {a : Unpacking}
      {steps : List Rewrite.Step} (h : StmtFollows sight t t' n)
      (ha : (a, sight') ∈ ownUnpackings r sight t) (hsteps : TypedFor sight' a steps)
      (rest : ListFollows (extend sight (locals t)) ss ss' m) :
      ListFollows sight (t :: ss) (expansion a.span steps ++ ss') (n + 1 + m)

inductive ArmsFollow : Sight → List Arm → List Arm → Nat → Prop where
  | nil (sight : Sight) : ArmsFollow sight [] [] 0
  | cons {sight : Sight} {label : Option Expr} {ss ss' : List Stmt} {as as' : List Arm} {n m : Nat}
      (h : ListFollows sight ss ss' n)
      (rest : ArmsFollow (extend sight (ss.flatMap locals)) as as' m) :
      ArmsFollow sight (.mk label ss :: as) (.mk label ss' :: as') (n + m)

end

/-- The body of a method is a scope inside that of the parameters. -/
inductive MemberFollows (sight : Sight) : Tree.Member → Tree.Member → Nat → Prop where
  | field (f : Tree.Field) : MemberFollows sight (.field f) (.field f) 0
  | abstract {d : Tree.Method} (h : d.body = none) : MemberFollows sight (.method d) (.method d) 0
  | method {d : Tree.Method} {b : Tree.Body} {ss' : List Stmt} {n : Nat} (hb : d.body = some b)
      (h : ListFollows r ([] :: params d.params :: sight) b.stmts ss' n) :
      MemberFollows sight (.method d) (.method { d with body := some { b with stmts := ss' } }) n
  | initializer {i : Tree.Initializer} {ss' : List Stmt} {n : Nat}
      (h : ListFollows r ([] :: sight) i.body.stmts ss' n) :
      MemberFollows sight (.initializer i)
        (.initializer { i with body := { i.body with stmts := ss' } }) n

/-- One after the other, with the sum of the numbers. -/
inductive AllFollow {α : Type} (R : α → α → Nat → Prop) : List α → List α → Nat → Prop where
  | nil : AllFollow R [] [] 0
  | cons {a a' : α} {as as' : List α} {n m : Nat} (h : R a a' n) (rest : AllFollow R as as' m) :
      AllFollow R (a :: as) (a' :: as') (n + m)

/-- All fields of a class are in sight of each of its members. -/
inductive ClassFollows (c : Tree.Class) : Tree.Class → Nat → Prop where
  | mk {members : List Tree.Member} {n : Nat}
      (h : AllFollow (MemberFollows r [fields c.members]) c.members members n) :
      ClassFollows c { c with members } n

end Follows

/-! ## Look-up -/

/-- The scopes of a walk at a place with these declarations in sight. -/
def toScopes (sight : Sight) : Scopes Ty := ⟨sight.map List.reverse⟩

theorem toScopes_extend (sight : Sight) (d : Declaration Ty) :
    toScopes (extend sight [d]) = (toScopes sight).declare d.name d.type d.offset := by
  cases sight with
  | nil => rfl
  | cons scope outer => simp [toScopes, extend, Scopes.declare]

theorem extend_nil (sight : Sight) : extend sight [] = sight := by
  cases sight with
  | nil => rfl
  | cons scope outer => rw [extend, List.append_nil]

theorem extend_append (sight : Sight) (ds ds' : List (Declaration Ty)) :
    extend sight (ds ++ ds') = extend (extend sight ds) ds' := by
  cases sight with
  | nil => rfl
  | cons scope outer => simp only [extend, List.append_assoc]

theorem toScopes_locals (sight : Sight) (t : Stmt) :
    toScopes (extend sight (locals t)) = Rewrite.declaring (toScopes sight) t := by
  cases t with
  | localVar s t n init isFinal => exact toScopes_extend sight ⟨n, t, s.start⟩
  | _ => exact congrArg toScopes (extend_nil sight)

theorem toScopes_flatMap_locals (sight : Sight) (ss : List Stmt) :
    toScopes (extend sight (ss.flatMap locals)) =
      ss.foldl Rewrite.declaring (toScopes sight) := by
  induction ss generalizing sight with
  | nil => exact congrArg toScopes (extend_nil sight)
  | cons s ss ih => rw [List.flatMap_cons, extend_append, ih, toScopes_locals, List.foldl_cons]

theorem toScopes_params (sight : Sight) (ps : List Tree.Param) :
    toScopes (extend sight (params ps)) = Rewrite.declaringParams (toScopes sight) ps := by
  induction ps generalizing sight with
  | nil => exact congrArg toScopes (extend_nil sight)
  | cons p ps ih =>
    have hfirst : params (p :: ps) = [⟨p.name, p.type, p.span.start⟩] ++ params ps := rfl
    rw [hfirst, extend_append, ih, toScopes_extend]
    rfl

theorem toScopes_fields (sight : Sight) (ms : List Tree.Member) :
    toScopes (extend sight (fields ms)) =
      ms.foldl Rewrite.declaringField (toScopes sight) := by
  induction ms generalizing sight with
  | nil => exact congrArg toScopes (extend_nil sight)
  | cons m ms ih =>
    cases m with
    | field f =>
      have hfirst : fields (.field f :: ms) = [⟨f.name, f.type, f.span.start⟩] ++ fields ms := rfl
      rw [hfirst, extend_append, ih, toScopes_extend]
      rfl
    | method d => exact ih sight
    | initializer i => exact ih sight

/-- The search that `Chosen` describes. -/
def chosen? (name : String) (offset : Nat) (sight : Sight) : Option (Declaration Ty) :=
  sight.findSome? fun scope => scope.reverse.find? fun d => d.name == name && d.offset < offset

theorem find_eq_none_iff {name : String} {offset : Nat} {scope : List (Declaration Ty)} :
    scope.reverse.find? (fun d => d.name == name && d.offset < offset) = none ↔
      ∀ e ∈ scope, ¬ (e.name = name ∧ e.offset < offset) := by
  simp [List.find?_eq_none]

theorem find_eq_some_iff {name : String} {offset : Nat} {scope : List (Declaration Ty)}
    {d : Declaration Ty} :
    scope.reverse.find? (fun d => d.name == name && d.offset < offset) = some d ↔
      ∃ before after, scope = before ++ d :: after ∧ (d.name = name ∧ d.offset < offset) ∧
        ∀ e ∈ after, ¬ (e.name = name ∧ e.offset < offset) := by
  rw [List.find?_eq_some_iff_append]
  constructor
  · rintro ⟨hvisible, later, earlier, hscope, hlater⟩
    -- The search goes through the scope backwards, so what it meets before is later.
    refine ⟨earlier.reverse, later.reverse, ?_, by simpa using hvisible, fun e he => ?_⟩
    · rw [← List.reverse_reverse scope, hscope]
      simp
    · simpa [imp_iff_not_or] using hlater e (List.mem_reverse.1 he)
  · rintro ⟨before, after, rfl, hvisible, hlater⟩
    refine ⟨by simpa using hvisible, after.reverse, before.reverse, by simp, fun e he => ?_⟩
    simpa [imp_iff_not_or] using hlater e (List.mem_reverse.1 he)

/-- One declaration is chosen, if any, and the search finds it. -/
theorem chosen_iff {name : String} {offset : Nat} {sight : Sight} {d : Declaration Ty} :
    Chosen name offset sight d ↔ chosen? name offset sight = some d := by
  constructor
  · intro h
    induction h with
    | here hname hoffset hlast =>
      rw [chosen?, List.findSome?_cons,
        find_eq_some_iff.2 ⟨_, _, rfl, ⟨hname, hoffset⟩, hlast⟩]
    | outward hnone h ih =>
      rw [chosen?, List.findSome?_cons, find_eq_none_iff.2 hnone]
      exact ih
  · intro h
    induction sight with
    | nil => cases h
    | cons scope outer ih =>
      rw [chosen?, List.findSome?_cons] at h
      split at h
      · next hfind =>
        cases h
        obtain ⟨before, after, rfl, hvisible, hlast⟩ := find_eq_some_iff.1 hfind
        exact .here hvisible.1 hvisible.2 hlast
      · next hfind => exact .outward (find_eq_none_iff.1 hfind) (ih h)

-- A declaration that starts later is not seen, although its scope is the innermost.
example : Chosen "a" 30 [[⟨"a", .primitive .long, 40⟩], [⟨"b", .primitive .int, 5⟩,
    ⟨"a", .primitive .int, 10⟩, ⟨"a", .primitive .char, 20⟩, ⟨"a", .primitive .byte, 35⟩]]
    ⟨"a", .primitive .char, 20⟩ :=
  chosen_iff.2 rfl

/-- What a name resolves to is the type of the declaration that the source chooses. -/
theorem resolve_toScopes (name : String) (offset : Nat) (sight : Sight) :
    (toScopes sight).resolve name offset = (chosen? name offset sight).map (·.type) := by
  induction sight with
  | nil => rfl
  | cons scope outer ih =>
    simp only [Scopes.resolve, toScopes, List.map_cons, List.findSome?_cons] at ih ⊢
    rw [chosen?, List.findSome?_cons]
    cases scope.reverse.find? fun d => d.name == name && d.offset < offset with
    | none => exact ih
    | some d => rfl

/-- The steps of an expansion made in the scopes of a place are typed by what is in sight there. -/
theorem typed_of_tempTypes {sight : Sight} {span : Span} {ts : List String} {vs : List Expr}
    {hs : List Hazard} {types : List (Option Ty)}
    (h : Desugar.tempTypes (toScopes sight) span ts hs = .ok types) (temps : TempNames) :
    Typed sight span.start ts vs hs (Rewrite.nameSteps temps ts vs types).1 := by
  induction ts generalizing vs hs types temps with
  | nil => exact .done (.inl rfl)
  | cons t ts ih =>
    cases hs with
    | nil =>
      cases h
      cases vs <;> exact .done (.inr (.inr rfl))
    | cons hz hs =>
      cases vs with
      | nil => exact .done (.inr (.inl rfl))
      | cons v vs =>
        rw [Desugar.tempTypes] at h
        split at h
        · next hneeds =>
          split at h
          · cases h
          · next type htype =>
            obtain ⟨rest, hrest, h⟩ := bind_eq_ok_iff.1 h
            cases h
            rw [resolve_toScopes] at htype
            obtain ⟨d, hd, rfl⟩ := Option.map_eq_some_iff.1 htype
            exact .through _ hneeds (chosen_iff.2 hd) (ih hrest _)
        · next hsafe =>
          obtain ⟨rest, hrest, h⟩ := bind_eq_ok_iff.1 h
          cases h
          exact .direct (Bool.eq_false_iff.2 hsafe) (ih hrest _)

/-! ## The rewrite follows the source -/

section Rewriting

variable (r : Resolver)

theorem labelUnpackings_eq (sight : Sight) (as : List Arm) :
    Rewrite.labelUnpackings r (toScopes sight) as =
      (labelUnpackings r sight as).map fun m => (m.1, toScopes m.2) := by
  induction as generalizing sight with
  | nil => rfl
  | cons a as ih =>
    obtain ⟨label, ss⟩ := a
    rw [Rewrite.labelUnpackings, labelUnpackings, List.map_append, List.map_map, ← ih,
      toScopes_flatMap_locals]
    rfl

/-- The unpackings that can replace a statement, with the scopes of the walk there. -/
theorem ownUnpackings_eq (sight : Sight) (t : Stmt) :
    Rewrite.ownUnpackings r (toScopes sight) t =
      (ownUnpackings r sight t).map fun m => (m.1, toScopes m.2) := by
  cases t with
  | localVar s t n init isFinal =>
    rw [Rewrite.ownUnpackings, ownUnpackings, List.map_map, ← toScopes_extend sight ⟨n, t, s.start⟩]
    rfl
  | switch s sel as =>
    rw [Rewrite.ownUnpackings, ownUnpackings, List.map_append, List.map_map,
      ← labelUnpackings_eq]
    rfl
  | expr s e => simp [Rewrite.ownUnpackings, ownUnpackings]
  | ifElse s c t e => simp [Rewrite.ownUnpackings, ownUnpackings]
  | whileLoop s c b => simp [Rewrite.ownUnpackings, ownUnpackings]
  | returnWith s v => simp [Rewrite.ownUnpackings, ownUnpackings]
  | block s ss | breakOut s | continueOn s | empty s => rfl

/-- A place stays as it is, or the statement there is replaced; the number counts that. -/
inductive Turns : Rewrite.Place → Rewrite.Place → Nat → Prop where
  | stays (place : Rewrite.Place) : Turns place place 0
  | gives (ss : List Stmt) : Turns .listed (.replaced ss) 1

theorem Turns.trans {place place' place'' : Rewrite.Place} {k k' : Nat} (h : Turns place place' k)
    (h' : Turns place' place'' k') : Turns place place'' (k + k') := by
  cases h with
  | stays =>
    rw [Nat.zero_add]
    exact h'
  | gives ss =>
    cases h'
    exact .gives ss

theorem Turns.of_fixed {place : Rewrite.Place} {k : Nat} (h : Turns .fixed place k) : k = 0 := by
  cases h
  rfl

variable (inMethod : Bool)

theorem handle_turns (place : Rewrite.Place) (a : Unpacking) (g : Rewrite.Progress) :
    ∃ k, Turns place (Rewrite.handle inMethod place a g).1 k ∧
      (Rewrite.handle inMethod place a g).2.transformed = g.transformed + k := by
  unfold Rewrite.handle
  split
  · exact ⟨0, .stays place, rfl⟩
  · split
    · split
      · exact ⟨0, .stays .listed, rfl⟩
      · exact ⟨1, .gives _, rfl⟩
    · exact ⟨0, .stays _, rfl⟩

theorem handleAll_turn (us : List Unpacking) (place : Rewrite.Place) (g : Rewrite.Progress) :
    ∃ k, Turns place (us.foldlM (Rewrite.handle inMethod) place g).1 k ∧
      (us.foldlM (Rewrite.handle inMethod) place g).2.transformed = g.transformed + k := by
  induction us generalizing place g with
  | nil => exact ⟨0, .stays place, rfl⟩
  | cons a us ih =>
    obtain ⟨k, hturns, hcount⟩ := handle_turns inMethod place a g
    obtain ⟨k', hturns', hcount'⟩ := ih (Rewrite.handle inMethod place a g).1
      (Rewrite.handle inMethod place a g).2
    refine ⟨k + k', hturns.trans hturns', hcount'.trans ?_⟩
    rw [hcount, Nat.add_assoc]

/-- A statement that has been gone through follows the source, and all replacements are counted:
those inside of it and its own. -/
def StmtDone (place : Rewrite.Place) (sight : Sight) (t : Stmt) (g : Rewrite.Progress)
    (out : (Rewrite.Place × Stmt) × Rewrite.Progress) : Prop :=
  ∃ n k, StmtFollows r sight t out.1.2 n ∧ Turns place out.1.1 k ∧
    out.2.transformed = g.transformed + (n + k)

variable {r inMethod} in
/-- Nothing replaces a branch as a whole. -/
theorem branch_follows {sight : Sight} {t : Stmt}
    (h : ∀ g, g.scopes = toScopes ([] :: sight) →
      StmtDone r .fixed ([] :: sight) t g (Rewrite.stmt r inMethod .fixed t g))
    (g : Rewrite.Progress) (hg : g.scopes = toScopes sight) :
    ∃ n, StmtFollows r ([] :: sight) t
        (Rewrite.inScope (Rewrite.stmt r inMethod .fixed t) g).1.2 n ∧
      (Rewrite.inScope (Rewrite.stmt r inMethod .fixed t) g).2.transformed = g.transformed + n := by
  obtain ⟨n, k, hfollows, hturns, hcount⟩ :=
    h { g with scopes := g.scopes.push } (congrArg Scopes.push hg)
  cases hturns.of_fixed
  exact ⟨n, hfollows, hcount⟩

mutual

theorem stmt_follows (place : Rewrite.Place) (sight : Sight) : ∀ (t : Stmt) (g : Rewrite.Progress),
    g.scopes = toScopes sight → StmtDone r place sight t g (Rewrite.stmt r inMethod place t g)
  | .expr s e, g, hg => by
    rw [Rewrite.stmt]
    obtain ⟨k, hturns, hcount⟩ := handleAll_turn inMethod (unpackings r e) place g
    exact ⟨0, k, .plain sight rfl, hturns, by rwa [Nat.zero_add]⟩
  | .localVar s t n init isFinal, g, hg => by
    rw [Rewrite.stmt]
    obtain ⟨k, hturns, hcount⟩ := handleAll_turn inMethod (unpackings? r init) place
      { g with scopes := g.scopes.declare n t s.start }
    exact ⟨0, k, .plain sight rfl, hturns, by rwa [Nat.zero_add]⟩
  | .block s ss, g, hg => by
    rw [Rewrite.stmt]
    obtain ⟨n, hss, hcount⟩ := stmts_follow ([] :: sight) ss { g with scopes := g.scopes.push }
      (congrArg Scopes.push hg)
    exact ⟨n, 0, .block hss, .stays place, hcount⟩
  | .ifElse s c t none, g, hg => by
    rw [Rewrite.stmt]
    obtain ⟨k, hturns, hcount⟩ := handleAll_turn inMethod (unpackings r c) place g
    have hcond := (Rewrite.expr_scopes r inMethod place g c).trans hg
    obtain ⟨n, ht, hcount'⟩ :=
      branch_follows (stmt_follows .fixed ([] :: sight) t)
        (Rewrite.expr r inMethod place c g).2 hcond
    refine ⟨n, k, .ifThen ht, hturns, hcount'.trans ?_⟩
    rw [Rewrite.expr, hcount]
    omega
  | .ifElse s c t (some e), g, hg => by
    rw [Rewrite.stmt]
    obtain ⟨k, hturns, hcount⟩ := handleAll_turn inMethod (unpackings r c) place g
    have hcond := (Rewrite.expr_scopes r inMethod place g c).trans hg
    have hthen := (Rewrite.branch_scopes r inMethod _ t).trans hcond
    obtain ⟨n, ht, hcount'⟩ :=
      branch_follows (stmt_follows .fixed ([] :: sight) t)
        (Rewrite.expr r inMethod place c g).2 hcond
    obtain ⟨m, he, hcount''⟩ := branch_follows (stmt_follows .fixed ([] :: sight) e) _ hthen
    refine ⟨n + m, k, .ifElse ht he, hturns, hcount''.trans ?_⟩
    rw [hcount', Rewrite.expr, hcount]
    omega
  | .whileLoop s c b, g, hg => by
    rw [Rewrite.stmt]
    obtain ⟨k, hturns, hcount⟩ := handleAll_turn inMethod (unpackings r c) place g
    have hcond := (Rewrite.expr_scopes r inMethod place g c).trans hg
    obtain ⟨n, hb, hcount'⟩ :=
      branch_follows (stmt_follows .fixed ([] :: sight) b)
        (Rewrite.expr r inMethod place c g).2 hcond
    refine ⟨n, k, .whileLoop hb, hturns, hcount'.trans ?_⟩
    rw [Rewrite.expr, hcount]
    omega
  | .switch s sel as, g, hg => by
    rw [Rewrite.stmt]
    obtain ⟨k, hturns, hcount⟩ := handleAll_turn inMethod (unpackings r sel) place g
    have hsel := (Rewrite.expr_scopes r inMethod place g sel).trans hg
    let selected := (Rewrite.expr r inMethod place sel g).2
    obtain ⟨n, k', has, hturns', hcount'⟩ :=
      arms_follow (Rewrite.expr r inMethod place sel g).1 ([] :: sight) as
        { selected with scopes := selected.scopes.push } (congrArg Scopes.push hsel)
    have hselected : selected.transformed = g.transformed + k := hcount
    refine ⟨n, k + k', .switch has, hturns.trans hturns', hcount'.trans ?_⟩
    rw [hselected]
    omega
  | .returnWith s v, g, hg => by
    rw [Rewrite.stmt]
    obtain ⟨k, hturns, hcount⟩ := handleAll_turn inMethod (unpackings? r v) place g
    exact ⟨0, k, .plain sight rfl, hturns, by rwa [Nat.zero_add]⟩
  | .breakOut s, g, hg | .continueOn s, g, hg | .empty s, g, hg => by
    rw [Rewrite.stmt]
    exact ⟨0, 0, .plain sight rfl, .stays place, rfl⟩

/-- Whatever has been rewritten before, a list is rewritten as the source says. -/
theorem stmts_follow (sight : Sight) : ∀ (ss : List Stmt) (g : Rewrite.Progress),
    g.scopes = toScopes sight → ∃ n, ListFollows r sight ss (Rewrite.stmts r inMethod ss g).1 n ∧
      (Rewrite.stmts r inMethod ss g).2.transformed = g.transformed + n
  | [], g, hg => by
    rw [Rewrite.stmts]
    exact ⟨0, .nil sight, rfl⟩
  | t :: ss, g, hg => by
    obtain ⟨n, k, ht, hturns, hcount⟩ := stmt_follows .listed sight t g hg
    have hscopes : (Rewrite.stmt r inMethod .listed t g).2.scopes =
        toScopes (extend sight (locals t)) := by
      rw [Rewrite.stmt_scopes, hg, toScopes_locals]
    obtain ⟨m, hss, hcount'⟩ := stmts_follow (extend sight (locals t)) ss _ hscopes
    have hgives := Rewrite.stmt_gives r inMethod .listed (fun ss h => by cases h) t g
    rw [hg, ownUnpackings_eq] at hgives
    rw [Rewrite.stmts]
    suffices h : ListFollows r sight (t :: ss)
        (Rewrite.Place.stmts (Rewrite.stmt r inMethod .listed t g).1.2
            (Rewrite.stmt r inMethod .listed t g).1.1 ++
          (Rewrite.stmts r inMethod ss (Rewrite.stmt r inMethod .listed t g).2).1) (n + k + m) by
      refine ⟨n + k + m, h, hcount'.trans ?_⟩
      rw [hcount, Nat.add_assoc]
    generalize hplace : (Rewrite.stmt r inMethod .listed t g).1.1 = place at hturns
    cases hturns with
    | stays => exact .keep ht hss
    | gives new =>
      obtain ⟨a, scopes, steps, hmem, ⟨g₁, types, -, htypes, rfl, -⟩, rfl⟩ := hgives new hplace
      obtain ⟨⟨a', sight'⟩, hown, heq⟩ := List.mem_map.1 hmem
      cases heq
      exact .replace ht hown (typed_of_tempTypes htypes g₁.temps) hss

theorem arms_follow (place : Rewrite.Place) (sight : Sight) :
    ∀ (as : List Arm) (g : Rewrite.Progress), g.scopes = toScopes sight →
      ∃ n k, ArmsFollow r sight as (Rewrite.arms r inMethod place as g).1.2 n ∧
        Turns place (Rewrite.arms r inMethod place as g).1.1 k ∧
        (Rewrite.arms r inMethod place as g).2.transformed = g.transformed + (n + k)
  | [], g, hg => by
    rw [Rewrite.arms]
    exact ⟨0, 0, .nil sight, .stays place, rfl⟩
  | .mk label ss :: as, g, hg => by
    rw [Rewrite.arms]
    obtain ⟨k, hturns, hcount⟩ := handleAll_turn inMethod (unpackings? r label) place g
    have hlabel := (Rewrite.expr?_scopes r inMethod place g label).trans hg
    obtain ⟨n, hss, hcount'⟩ := stmts_follow sight ss _ hlabel
    have hscopes :
        (Rewrite.stmts r inMethod ss (Rewrite.expr? r inMethod place label g).2).2.scopes =
          toScopes (extend sight (ss.flatMap locals)) := by
      rw [Rewrite.stmts_scopes, hlabel, toScopes_flatMap_locals]
    obtain ⟨m, k', has, hturns', hcount''⟩ :=
      arms_follow (Rewrite.expr? r inMethod place label g).1 (extend sight (ss.flatMap locals)) as _
        hscopes
    refine ⟨n + m, k + k', .cons hss has, hturns.trans hturns', hcount''.trans ?_⟩
    rw [hcount', Rewrite.expr?, hcount]
    omega

end

end Rewriting

/-! ## Members and classes -/

section Members

variable (r : Resolver)

/-- The parameters are in sight of the body, in a scope of their own. -/
theorem params_follow (sight : Sight) (ps : List Tree.Param) (g : Rewrite.Progress)
    (hg : g.scopes = toScopes sight) :
    (ps.forM (fun p => Rewrite.declare p.name p.type p.span.start)
        { g with scopes := g.scopes.push }).2.scopes = toScopes (params ps :: sight) ∧
      (ps.forM (fun p => Rewrite.declare p.name p.type p.span.start)
        { g with scopes := g.scopes.push }).2.transformed = g.transformed := by
  obtain ⟨hmeets, hscopes, -⟩ :=
    Rewrite.params_deal g.scopes.push ps { g with scopes := g.scopes.push } rfl
  refine ⟨hscopes.trans ?_, hmeets.transformed⟩
  rw [hg]
  exact (toScopes_params ([] :: sight) ps).symm

theorem member_follows (sight : Sight) (m : Tree.Member) (g : Rewrite.Progress)
    (hg : g.scopes = toScopes sight) :
    ∃ n, MemberFollows r sight m (Rewrite.member r m g).1 n ∧
      (Rewrite.member r m g).2.transformed = g.transformed + n := by
  cases m with
  | field f =>
    obtain ⟨k, hturns, hcount⟩ := handleAll_turn false (unpackings? r f.init) .fixed g
    cases hturns.of_fixed
    exact ⟨0, .field f, hcount⟩
  | initializer i =>
    obtain ⟨n, hss, hcount⟩ := stmts_follow r false ([] :: sight) i.body.stmts
      { g with scopes := g.scopes.push } (congrArg Scopes.push hg)
    exact ⟨n, .initializer hss, hcount⟩
  | method d =>
    obtain ⟨hscopes, hcount⟩ := params_follow sight d.params g hg
    obtain ⟨name, result, ps, body, isStatic, span⟩ := d
    cases body with
    | none => exact ⟨0, .abstract rfl, hcount⟩
    | some b =>
      let declared := (ps.forM (fun p => Rewrite.declare p.name p.type p.span.start)
        { g with scopes := g.scopes.push }).2
      obtain ⟨n, hss, hcount'⟩ := stmts_follow r true ([] :: params ps :: sight) b.stmts
        { declared with scopes := declared.scopes.push } (congrArg Scopes.push hscopes)
      exact ⟨n, .method rfl hss, hcount'.trans (congrArg (· + n) hcount)⟩

theorem allFollow_of_mapM {α : Type} {f : α → Rewrite.Pass α} {R : α → α → Nat → Prop}
    {scopes : Scopes Ty} (hscopes : ∀ a g, g.scopes = scopes → (f a g).2.scopes = scopes)
    (h : ∀ a g, g.scopes = scopes → ∃ n, R a (f a g).1 n ∧
      (f a g).2.transformed = g.transformed + n) (as : List α) (g : Rewrite.Progress)
    (hg : g.scopes = scopes) :
    ∃ n, AllFollow R as (as.mapM f g).1 n ∧ (as.mapM f g).2.transformed = g.transformed + n := by
  induction as generalizing g with
  | nil => exact ⟨0, .nil, rfl⟩
  | cons a as ih =>
    obtain ⟨n, ha, hcount⟩ := h a g hg
    obtain ⟨m, has, hcount'⟩ := ih (f a g).2 (hscopes a g hg)
    rw [List.mapM_cons]
    refine ⟨n + m, .cons ha has, hcount'.trans ?_⟩
    rw [hcount, Nat.add_assoc]

theorem class_follows (c : Tree.Class) (g : Rewrite.Progress) (hg : g.scopes = {}) :
    ∃ n, ClassFollows r c (Rewrite.cls r c g).1 n ∧
      (Rewrite.cls r c g).2.transformed = g.transformed + n := by
  obtain ⟨hmeets, hscopes, -⟩ :=
    Rewrite.fields_deal g.scopes.push c.members { g with scopes := g.scopes.push } rfl
  have hfields : (c.members.forM Rewrite.declareField
      { g with scopes := g.scopes.push }).2.scopes = toScopes [fields c.members] := by
    rw [hscopes, hg]
    exact (toScopes_fields [[]] c.members).symm
  obtain ⟨n, hmembers, hcount⟩ := allFollow_of_mapM
    (fun m g hg => (Rewrite.member_deals r m g hg).2.1) (member_follows r [fields c.members])
    c.members _ hfields
  exact ⟨n, .mk hmembers, hcount.trans (congrArg (· + n) hmeets.transformed)⟩

/-- The rewritten classes follow those of the source. -/
theorem run_follows (config : DesugarConfig) (u : Tree.CompilationUnit) :
    AllFollow (ClassFollows (Resolver.ofImports config.marker u.imports)) u.classes
      (Rewrite.run config u).2.classes (Rewrite.run config u).1.transformed := by
  obtain ⟨n, hclasses, hcount⟩ := allFollow_of_mapM
    (fun c g hg => (Rewrite.cls_deals (Resolver.ofImports config.marker u.imports) c g hg).2.1)
    (class_follows (Resolver.ofImports config.marker u.imports)) u.classes
    (Rewrite.start config u) rfl
  have htotal : (Rewrite.run config u).1.transformed = n := hcount.trans (Nat.zero_add n)
  rw [htotal]
  exact hclasses

end Members

end TupleAssign.Lexical

/-! ## After each class -/

namespace TupleAssign.Desugar

/-- To handle an unpacking is not to move, and not to declare. -/
theorem State.handle_still {s s' : State} {u : Unpacking Name} {ids : List ExprId}
    (h : s.handle u ids = .ok s') : s'.path = s.path ∧ s'.scopes = s.scopes := by
  simp only [State.handle, bind_eq_ok_iff] at h
  obtain ⟨verdict, -, h⟩ := h
  cases verdict with
  | error r => cases r <;> cases h <;> exact ⟨rfl, rfl⟩
  | ok plan =>
    simp only [State.carryOut] at h
    split at h
    · cases h
    · obtain ⟨⟨spliced, program⟩, -, h⟩ := bind_eq_ok_iff.1 h
      cases spliced <;> cases h <;> exact ⟨rfl, rfl⟩

/-- The path is where it was, and of the scopes at most the innermost has changed. -/
structure State.Balanced (s s' : State) : Prop where
  path : s'.path = s.path
  outer : s'.scopes.pop = s.scopes.pop
  unopened : s.scopes = {} → s'.scopes = {}

theorem balanced_carried (r : Resolver Name) : Carried r State.Balanced where
  refl _ := ⟨rfl, rfl, id⟩
  trans h h' := ⟨h'.path.trans h.path, h'.outer.trans h.outer, h'.unopened ∘ h.unopened⟩
  frame _ h := ⟨congrArg List.tail h.path, h.outer, h.unopened⟩
  scope {s s'} h := by
    have hclosed : s'.scopes.pop = s.scopes := h.outer
    exact ⟨h.path, congrArg Scopes.pop hclosed, hclosed.trans⟩
  declare s name type offset := by
    refine ⟨rfl, Scopes.pop_declare _ _ _ _, fun hnone => ?_⟩
    simp only [hnone]
    rfl
  handle _ _ h := by
    obtain ⟨hpath, hscopes⟩ := State.handle_still h
    exact ⟨hpath, congrArg Scopes.pop hscopes, hscopes.trans⟩

/-- The walk over the first classes of a unit. -/
def walkFirst (config : DesugarConfig) (p : Program) (names : Interner) (k : Nat) :
    Except Fault State := do
  let reserved ← p.identifiers
  let r := (resolver config.marker p.unit names).1
  let ((), s) ← (Walk.unit r { p.unit with classes := p.unit.classes.take k }).run
    (start config p names reserved)
  return s

/-- In whatever program, if a walk ends then no scope is open and the path is empty after each
class. -/
theorem walkFirst_balanced {config : DesugarConfig} {p : Program} {names : Interner} {s : State}
    (h : walk config p names = .ok s) (k : Nat) :
    ∃ s', walkFirst config p names k = .ok s' ∧ s'.scopes = {} ∧ s'.path = [] := by
  simp only [walk, bind_eq_ok_iff] at h
  obtain ⟨reserved, hreserved, ⟨_, _⟩, hrun, -⟩ := h
  have hsplit : p.unit.classes.zipIdx = (p.unit.classes.take k).zipIdx ++
      (p.unit.classes.drop k).zipIdx (p.unit.classes.take k).length := by
    rw [← Nat.zero_add (p.unit.classes.take k).length, ← List.zipIdx_append, List.take_append_drop]
  rw [Walk.unit, hsplit, List.forM_eq_forM, List.forM_append] at hrun
  obtain ⟨_, s', hfirst, -⟩ := run_bind_eq_ok_iff.1 hrun
  have hbalanced := (balanced_carried (resolver config.marker p.unit names).1).unit
    { p.unit with classes := p.unit.classes.take k } _ _ s' hfirst
  refine ⟨s', ?_, hbalanced.unopened rfl, hbalanced.path⟩
  simp only [walkFirst, bind_eq_ok_iff]
  exact ⟨reserved, hreserved, ⟨(), s'⟩, hfirst, rfl⟩

end TupleAssign.Desugar

namespace TupleAssign.Lexical

/-- The temporaries of a run over a loaded unit have the types that the source, as it was before the
run, gives their targets: the classes follow those of the source, with as many unpackings replaced
as the outcome says. After each class no scope is open and the path is empty. -/
theorem desugar_load_typed (config : DesugarConfig) (u : Tree.CompilationUnit) (names : Interner)
    (hfits : (Program.load u names).1.store.arms.size ≤ absentRaw) :
    (∃ o p' names' u',
      desugar config (Program.load u names).1 (Program.load u names).2 = .ok (o, p', names') ∧
      p'.read names' = .ok u' ∧
      AllFollow (ClassFollows (Resolver.ofImports config.marker u.imports)) u.classes u'.classes
        o.transformed) ∧
    ∀ k, ∃ s,
      Desugar.walkFirst config (Program.load u names).1 (Program.load u names).2 k = .ok s ∧
      s.scopes = {} ∧ s.path = [] := by
  obtain ⟨fp, hunit, hnodup⟩ := Program.load_unitAt u names hfits
  constructor
  · obtain ⟨o, p', names', fp', hrun, -, ho, hunit', hnodup'⟩ := desugar_eq config hunit hnodup
    have hread := hunit'.read_known hnodup'
    have htransformed : o.transformed = (Rewrite.run config u).1.transformed :=
      congrArg Outcome.transformed (ho _ names'.spelledAs_lookup)
    exact ⟨o, p', names', _, hrun, hread, htransformed ▸ run_follows config u⟩
  · obtain ⟨s, _, hwalk, -⟩ := walk_matches config hunit hnodup
    exact Desugar.walkFirst_balanced hwalk

/-- A swap in a block that has a declaration of its own of a parameter. -/
def shadowUnit : Tree.CompilationUnit where
  package := "p"
  imports := [{ path := "lombok.Tuple.tuple", isStatic := true }]
  classes := [{
    name := "C"
    members := [
      .method {
        name := "swap"
        params := [
          { type := .primitive .int, name := "a", span := ⟨10, 11⟩ },
          { type := .primitive .int, name := "b", span := ⟨12, 13⟩ }]
        body := some {
          stmts := [.block {} [
            .localVar ⟨20, 21⟩ (.primitive .char) "b" none false,
            .expr {} (Rewrite.unpackExpr 30 [.ident {} "a", .ident {} "b"]
              [.ident {} "b", .ident {} "a"])]] } },
      .field { type := .primitive .long, name := "b", span := ⟨25, 26⟩ }] }]

theorem desugar_load_typed_shadowUnit :
    (∃ o p' names' u',
      desugar {} (Program.load shadowUnit {}).1 (Program.load shadowUnit {}).2 =
        .ok (o, p', names') ∧ o.transformed = 1 ∧ p'.read names' = .ok u' ∧
      AllFollow (ClassFollows (Resolver.ofImports {} shadowUnit.imports)) shadowUnit.classes
        u'.classes 1) ∧
    ∃ s,
      Desugar.walkFirst {} (Program.load shadowUnit {}).1 (Program.load shadowUnit {}).2 1 = .ok s ∧
      s.scopes = {} ∧ s.path = [] := by
  have hfits : (Program.load shadowUnit {}).1.store.arms.size ≤ absentRaw := by decide +kernel
  obtain ⟨⟨o, p', names', u', hrun, hread, hfollows⟩, hwalks⟩ :=
    desugar_load_typed {} shadowUnit {} hfits
  refine ⟨⟨o, p', names', u', hrun, ?_⟩, hwalks 1⟩
  obtain ⟨fp, hunit, hnodup⟩ := Program.load_unitAt shadowUnit {} hfits
  have htransformed : o.transformed = 1 :=
    (congrArg Outcome.transformed (outcome_of_desugar hunit hnodup hrun)).trans (by decide +kernel)
  rw [htransformed] at hfollows
  exact ⟨htransformed, hread, hfollows⟩

end TupleAssign.Lexical
