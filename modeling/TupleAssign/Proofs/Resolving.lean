import TupleAssign.Proofs.Occurrences
/-!
# Marker calls after imports are gone

An import is removed only if no call that it served is left. So what counts as a marker call in the
rewritten unit is the same with the imports that are left as with those that were there
(`run_alike`), and the unpackings of that unit are the same (`occurrences_congr`).
-/

namespace TupleAssign.Rewrite

open TupleAssign.Tree (Ty Expr Stmt Arm Site)

/-! ## Resolvers that tell the same -/

/-- The resolvers for a marker differ at most in imports that nothing at these sites needs. -/
structure Alike (m : Marker) (r r' : Resolver) (ss : List Site) : Prop where
  before : ∃ imports, r = .ofImports m imports
  after : ∃ imports, r' = .ofImports m imports
  bare : r.bareImported = r'.bareImported ∨ ∀ s ∈ ss, DeadImports.isBareCall m s = false
  simple : r.simpleImported = r'.simpleImported ∨ ∀ s ∈ ss, DeadImports.namesOwner m s = false

namespace Alike

variable {m : Marker} {r r' : Resolver} {s : Site} {ss ss' : List Site}

theorem mono (h : Alike m r r' ss) (hsub : ss' ⊆ ss) : Alike m r r' ss' where
  before := h.before
  after := h.after
  bare := h.bare.imp_right fun hss s hs => hss s (hsub hs)
  simple := h.simple.imp_right fun hss s hs => hss s (hsub hs)

theorem left (h : Alike m r r' (ss ++ ss')) : Alike m r r' ss := h.mono (List.subset_append_left _ _)

theorem right (h : Alike m r r' (ss ++ ss')) : Alike m r r' ss' := h.mono (List.subset_append_right _ _)

theorem below (h : Alike m r r' (s.before (fun _ => true) ss)) : Alike m r r' ss :=
  h.mono (List.subset_cons_self _ _)

theorem of_flatMap {α : Type} {f : α → List Site} {as : List α} (h : Alike m r r' (as.flatMap f))
    {a : α} (ha : a ∈ as) : Alike m r r' (f a) :=
  h.mono fun _ hs => List.mem_flatMap.2 ⟨a, ha, hs⟩

/-- Only a single name reads as a path of one segment. -/
theorem eq_ident_of_dotted? {e : Expr} {n : String} (h : e.dotted? = some [n]) :
    ∃ s, e = .ident s n := by
  cases e with
  | ident s m =>
    cases h
    exact ⟨s, rfl⟩
  | field s e m =>
    obtain ⟨path, hpath, hlist⟩ := Option.map_eq_some_iff.1 h
    cases path with
    | nil => cases e <;> simp [Expr.dotted?] at hpath
    | cons => simp at hlist
  | _ => cases h

/-- A call is a marker call for both or for neither. -/
theorem classify_eq {e : Expr} (h : Alike m r r' (e.visits fun _ => true)) :
    r.classify e = r'.classify e := by
  obtain ⟨imports, hr⟩ := h.before
  obtain ⟨imports', hr'⟩ := h.after
  have hmethod : r.method = m.method ∧ r'.method = m.method := by simp [hr, hr', Resolver.ofImports]
  have howner : r.ownerSimple = m.ownerSimpleName ∧ r'.ownerSimple = m.ownerSimpleName := by
    simp [hr, hr', Resolver.ofImports]
  have hpath : r.ownerPath = r'.ownerPath := by simp [hr, hr', Resolver.ofImports]
  cases e with
  | call s recv n args =>
    simp only [Resolver.classify, hmethod]
    split
    · next hn =>
      cases recv with
      | none =>
        rw [Expr.visits] at h
        have hbare : r.bareImported = r'.bareImported := by
          refine h.bare.resolve_right fun hss => ?_
          have hsite := hss _ List.mem_cons_self
          simp [DeadImports.isBareCall, hn] at hsite
        simp only [Resolver.classifyReceiver, hbare]
      | some e =>
        simp only [Resolver.classifyReceiver, howner, hpath]
        split
        · rfl
        · split
          · next hsingle =>
            obtain ⟨s', rfl⟩ := eq_ident_of_dotted? hsingle
            rw [Expr.visits, Expr.visits] at h
            have hsimple : r.simpleImported = r'.simpleImported := by
              refine h.below.left.simple.resolve_right fun hss => ?_
              have hsite := hss _ List.mem_cons_self
              simp [DeadImports.namesOwner] at hsite
            rw [hsimple]
          · rfl
    · rfl
  | _ => rfl

theorem side?_eq {e : Expr} (h : Alike m r r' (e.visits fun _ => true)) : r.side? e = r'.side? e := by
  cases e with
  | call s recv n args => simp only [Resolver.side?, h.classify_eq]
  | _ => rfl

end Alike

/-! ## The same unpackings -/

section Congruence

variable {m : Marker} {r r' : Resolver}

mutual

theorem unpackings_congr : ∀ e : Expr, Alike m r r' (e.visits fun _ => true) →
    unpackings r e = unpackings r' e
  | .int _ _, _ | .bool _ _, _ | .str _ _, _ | .null _, _ | .self _, _ | .ident _ _, _ => by
    rw [unpackings, unpackings]
  | .field _ e _, h => by
    rw [Expr.visits] at h
    rw [unpackings, unpackings, unpackings_congr e h.below]
  | .index _ e i, h => by
    rw [Expr.visits] at h
    rw [unpackings, unpackings, unpackings_congr e h.below.left, unpackings_congr i h.below.right]
  | .call _ none _ args, h => by
    rw [Expr.visits] at h
    rw [unpackings, unpackings, unpackingsAll_congr args h.below]
  | .call _ (some e) _ args, h => by
    rw [Expr.visits] at h
    rw [unpackings, unpackings, unpackings_congr e h.below.left,
      unpackingsAll_congr args h.below.right]
  | .create _ t args, h => by
    rw [Expr.visits] at h
    rw [unpackings, unpackings, unpackingsAll_congr args h.below.right]
  | .unary _ _ e, h => by
    rw [Expr.visits] at h
    rw [unpackings, unpackings, unpackings_congr e h.below]
  | .binary _ _ a b, h => by
    rw [Expr.visits] at h
    rw [unpackings, unpackings, unpackings_congr a h.below.left, unpackings_congr b h.below.right]
  | .conditional _ c t e, h => by
    rw [Expr.visits] at h
    rw [unpackings, unpackings, unpackings_congr c h.below.left.left,
      unpackings_congr t h.below.left.right, unpackings_congr e h.below.right]
  | .assign s t v, h => by
    rw [Expr.visits] at h
    have hsame : r.unpacking? (.assign s t v) = r'.unpacking? (.assign s t v) := by
      simp only [Resolver.unpacking?, h.below.left.side?_eq, h.below.right.side?_eq]
    rw [unpackings, unpackings, hsame, unpackings_congr t h.below.left,
      unpackings_congr v h.below.right]

theorem unpackingsAll_congr : ∀ es : List Expr, Alike m r r' (Expr.visitsAll (fun _ => true) es) →
    unpackingsAll r es = unpackingsAll r' es
  | [], _ => by rw [unpackingsAll, unpackingsAll]
  | e :: es, h => by
    rw [Expr.visitsAll] at h
    rw [unpackingsAll, unpackingsAll, unpackings_congr e h.left, unpackingsAll_congr es h.right]

end

theorem unpackings?_congr {o : Option Expr}
    (h : Alike m r r' (Tree.optionVisits (Expr.visits fun _ => true) o)) :
    unpackings? r o = unpackings? r' o := by
  cases o with
  | none => rfl
  | some e => rw [unpackings?_some, unpackings?_some, unpackings_congr e h]

variable (inMethod : Bool)

mutual

theorem stmtOccurrences_congr (listed : Bool) (scopes : Scopes Ty) : ∀ t : Stmt,
    Alike m r r' (t.visits fun _ => true) →
    stmtOccurrences r inMethod listed scopes t = stmtOccurrences r' inMethod listed scopes t
  | .expr _ e, h => by
    rw [Stmt.visits] at h
    rw [stmtOccurrences, stmtOccurrences, unpackings_congr e h.below]
  | .localVar _ _ _ init _, h => by
    rw [Stmt.visits] at h
    rw [stmtOccurrences, stmtOccurrences, unpackings?_congr h.below.right]
  | .block _ ss, h => by
    rw [Stmt.visits] at h
    rw [stmtOccurrences, stmtOccurrences, stmtsOccurrences_congr _ ss h.below.below]
  | .ifElse _ c t none, h => by
    rw [Stmt.visits] at h
    rw [stmtOccurrences, stmtOccurrences, unpackings_congr c h.below.left,
      stmtOccurrences_congr _ _ t h.below.right]
  | .ifElse _ c t (some e), h => by
    rw [Stmt.visits] at h
    rw [stmtOccurrences, stmtOccurrences, unpackings_congr c h.below.left.left,
      stmtOccurrences_congr _ _ t h.below.left.right, stmtOccurrences_congr _ _ e h.below.right]
  | .whileLoop _ c b, h => by
    rw [Stmt.visits] at h
    rw [stmtOccurrences, stmtOccurrences, unpackings_congr c h.below.left,
      stmtOccurrences_congr _ _ b h.below.right]
  | .switch _ sel as, h => by
    rw [Stmt.visits] at h
    rw [stmtOccurrences, stmtOccurrences, unpackings_congr sel h.below.left,
      armsOccurrences_congr _ _ _ as h.below.right]
  | .returnWith _ v, h => by
    rw [Stmt.visits] at h
    rw [stmtOccurrences, stmtOccurrences, unpackings?_congr h.below]
  | .breakOut _, _ | .continueOn _, _ | .empty _, _ => by rw [stmtOccurrences, stmtOccurrences]

theorem stmtsOccurrences_congr (scopes : Scopes Ty) : ∀ ss : List Stmt,
    Alike m r r' (Stmt.visitsAll (fun _ => true) ss) →
    stmtsOccurrences r inMethod scopes ss = stmtsOccurrences r' inMethod scopes ss
  | [], _ => by rw [stmtsOccurrences, stmtsOccurrences]
  | s :: ss, h => by
    rw [Stmt.visitsAll] at h
    rw [stmtsOccurrences, stmtsOccurrences, stmtOccurrences_congr _ _ s h.left,
      stmtsOccurrences_congr _ ss h.right]

theorem armsOccurrences_congr (listed : Bool) (scopes : Scopes Ty)
    (earlier : List (Unpacking × Scopes Ty)) : ∀ as : List Arm,
    Alike m r r' (Arm.visitsAll (fun _ => true) as) →
    armsOccurrences r inMethod listed scopes earlier as =
      armsOccurrences r' inMethod listed scopes earlier as
  | [], _ => by rw [armsOccurrences, armsOccurrences]
  | .mk label ss :: as, h => by
    rw [Arm.visitsAll] at h
    rw [armsOccurrences, armsOccurrences, unpackings?_congr h.left.left,
      stmtsOccurrences_congr _ ss h.left.right, armsOccurrences_congr _ _ _ as h.right]

end

theorem memberOccurrences_congr (scopes : Scopes Ty) {member : Tree.Member}
    (h : Alike m r r' (Tree.memberVisits (fun _ => true) member)) :
    memberOccurrences r scopes member =
      memberOccurrences r' scopes member := by
  cases member with
  | field f => rw [memberOccurrences, memberOccurrences, unpackings?_congr h.below.right]
  | initializer i =>
    rw [memberOccurrences, memberOccurrences, stmtsOccurrences_congr _ _ _ h.below.below]
  | method d =>
    have hbody := h.below.right
    rw [memberOccurrences, memberOccurrences]
    cases hd : d.body with
    | none => rfl
    | some b =>
      rw [hd] at hbody
      rw [Option.toList_some, List.flatMap_singleton, List.flatMap_singleton,
        stmtsOccurrences_congr _ _ _ hbody.below]

theorem classOccurrences_congr {c : Tree.Class}
    (h : Alike m r r' (Tree.classVisits (fun _ => true) c)) :
    classOccurrences r c = classOccurrences r' c :=
  List.flatMap_congr fun _ hm => memberOccurrences_congr _ (h.below.of_flatMap hm)

/-- Resolvers that are alike at all sites of some classes tell the same unpackings there. -/
theorem occurrences_congr {u : Tree.CompilationUnit}
    (h : Alike m r r' (u.classes.flatMap (Tree.classVisits fun _ => true))) :
    occurrences r u = occurrences r' u :=
  List.flatMap_congr fun _ hc => classOccurrences_congr (h.of_flatMap hc)

end Congruence

/-! ## After a run -/

section Imports

variable (m : Marker)

/-- What is left are the imports that serve none of the forms. -/
theorem removeServing_left (forms : List Form) (imports : List Tree.Import) :
    (removeServing m forms imports).2 =
      imports.filter fun i => forms.all fun f => !DeadImports.servesForm m i i.path f := by
  induction forms generalizing imports with
  | nil => simp [removeServing]
  | cons form forms ih =>
    rw [removeServing]
    dsimp only
    rw [ih, List.filter_filter]
    refine List.filter_congr fun i _ => ?_
    rw [List.all_cons, Bool.and_comm]

/-- An import that is available for a form and goes was the single import behind that form. -/
theorem any_left {forms : List Form} {imports : List Tree.Import} {q : Tree.Import → Bool}
    {form : Form} (hform : form ∉ forms)
    (hq : ∀ i f, q i = true → DeadImports.servesForm m i i.path f = true → f = form) :
    (removeServing m forms imports).2.any q = imports.any q := by
  rw [removeServing_left, List.any_filter]
  refine List.any_congr rfl fun i => ?_
  cases hi : q i with
  | false => rw [Bool.and_false]
  | true =>
    rw [Bool.and_true, List.all_eq_true]
    intro f hf
    cases hserves : DeadImports.servesForm m i i.path f with
    | false => rfl
    | true => exact absurd (hq i f hi hserves ▸ hf) hform

theorem form_of_importsBare (i : Tree.Import) (f : Form) (h : Resolver.importsBare m i = true)
    (hf : DeadImports.servesForm m i i.path f = true) : f = .bare := by
  cases f with
  | bare => rfl
  | simple =>
    simp only [Resolver.importsBare, DeadImports.servesForm, Bool.and_eq_true] at h hf
    simp [h.1] at hf
  | qualified => cases hf

theorem form_of_importsSimple (i : Tree.Import) (f : Form) (h : Resolver.importsSimple m i = true)
    (hf : DeadImports.servesForm m i i.path f = true) : f = .simple := by
  cases f with
  | simple => rfl
  | bare =>
    simp only [Resolver.importsSimple, DeadImports.servesForm, Bool.and_eq_true] at h hf
    simp [hf.1.1] at h
  | qualified => cases hf

/-- Without the imports of forms that nothing in a unit needs, its calls mean what they meant. -/
theorem alike_removeServing {forms : List Form} {u : Tree.CompilationUnit}
    (hforms : ∀ f ∈ forms, DeadImports.isUnused m u f = true) (imports : List Tree.Import) :
    Alike m (.ofImports m imports) (.ofImports m (removeServing m forms imports).2)
      (Tree.sites u) := by
  refine ⟨⟨_, rfl⟩, ⟨_, rfl⟩, ?_, ?_⟩
  · by_cases hbare : Form.bare ∈ forms
    · refine .inr fun s hs => ?_
      have hnone := hforms _ hbare
      simp only [DeadImports.isUnused, Bool.not_eq_true', List.any_eq_false] at hnone
      exact Bool.eq_false_iff.2 (hnone s hs)
    · exact .inl (any_left m hbare (form_of_importsBare m)).symm
  · by_cases hsimple : Form.simple ∈ forms
    · refine .inr fun s hs => ?_
      have hnone := hforms _ hsimple
      simp only [DeadImports.isUnused, Bool.not_eq_true', List.any_eq_false] at hnone
      exact Bool.eq_false_iff.2 (hnone s hs)
    · exact .inl (any_left m hsimple (form_of_importsSimple m)).symm

end Imports

/-- In the rewritten unit the imports that are left do as well as those that were there. -/
theorem run_alike (config : DesugarConfig) (u : Tree.CompilationUnit) :
    Alike config.marker (Resolver.ofImports config.marker u.imports)
      (Resolver.ofImports config.marker (run config u).2.imports)
      ((run config u).2.classes.flatMap (Tree.classVisits fun _ => true)) := by
  let u₁ : Tree.CompilationUnit := { u with classes := (classes config u).1 }
  have hsites : u₁.classes.flatMap (Tree.classVisits fun _ => true) ⊆ Tree.sites u₁ := by
    rw [Tree.sites, Tree.unitVisits]
    exact fun s hs => List.mem_cons_of_mem _ (List.mem_append_right _ hs)
  refine Alike.mono (alike_removeServing config.marker (u := u₁) (fun f hf => ?_) u.imports) hsites
  exact (Bool.and_eq_true_iff.1 (List.mem_filter.1 hf).2).2

end TupleAssign.Rewrite
