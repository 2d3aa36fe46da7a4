import TupleAssign.Proofs.Refinement
import TupleAssign.Proofs.Sequencing
/-!
# The pass keeps the meaning of methods

Statements are plain if their unpackings stand alone and assign to variables, and all other
expressions are pure. A list of plain statements and its rewritten form mean the same but for the
temporaries (`stmts_mean`), because each of its statements and what has taken its place do. So a run
over a loaded unit keeps the meaning of every method whose body is plain
(`desugar_load_preserves`).
-/

namespace TupleAssign.Semantics

open TupleAssign.Tree (Expr Stmt Arm Reading Site)
open Rewrite (Place Progress Pass)

/-! ## Plain statements -/

section Plain

variable (r : Resolver)

def isVariable : Expr → Bool
  | .ident _ _ => true
  | _ => false

/-- An unpacking of as many pure values as there are variables, an assignment of a pure value to a
variable, or a pure expression. -/
def plainExpr (e : Expr) : Bool :=
  match r.unpacking? e with
  | some u =>
    u.left.args.length == u.right.args.length && u.left.args.all isVariable && allPure u.right.args
  | none =>
    match e with
    | .assign _ (.ident _ _) v => isPure v
    | e => isPure e

mutual

def plain : Stmt → Bool
  | .expr _ e => plainExpr r e
  | .localVar _ _ _ init _ => init.all isPure
  | .block _ ss => plainAll ss
  | .ifElse _ c t none => isPure c && plain t
  | .ifElse _ c t (some e) => isPure c && plain t && plain e
  | .whileLoop _ c b => isPure c && plain b
  | .switch _ sel as => isPure sel && plainArms as
  | .returnWith _ v => v.all isPure
  | .breakOut _ | .continueOn _ | .empty _ => true

def plainAll : List Stmt → Bool
  | [] => true
  | s :: ss => plain s && plainAll ss

def plainArms : List Arm → Bool
  | [] => true
  | .mk label ss :: as => label.all isPure && plainAll ss && plainArms as

end

mutual

/-- There is no unpacking in a pure expression. -/
theorem unpackings_of_isPure : ∀ e : Expr, isPure e = true → Rewrite.unpackings r e = []
  | .int _ _, _ | .bool _ _, _ | .str _ _, _ | .null _, _ | .self _, _ | .ident _ _, _ => by
    rw [Rewrite.unpackings]
  | .index _ e i, h => by
    rw [isPure, Bool.and_eq_true] at h
    rw [Rewrite.unpackings, unpackings_of_isPure e h.1, unpackings_of_isPure i h.2]
    rfl
  | .call _ none _ args, h => by
    rw [Rewrite.unpackings]
    exact unpackingsAll_of_allPure args h
  | .create _ _ args, h => by
    rw [Rewrite.unpackings]
    exact unpackingsAll_of_allPure args h
  | .unary _ _ e, h => by
    rw [Rewrite.unpackings]
    exact unpackings_of_isPure e h
  | .binary _ _ a b, h => by
    rw [isPure, Bool.and_eq_true] at h
    rw [Rewrite.unpackings, unpackings_of_isPure a h.1, unpackings_of_isPure b h.2]
    rfl
  | .conditional _ c t e, h => by
    rw [isPure, Bool.and_eq_true, Bool.and_eq_true] at h
    rw [Rewrite.unpackings, unpackings_of_isPure c h.1.1, unpackings_of_isPure t h.1.2,
      unpackings_of_isPure e h.2]
    rfl

theorem unpackingsAll_of_allPure : ∀ es : List Expr, allPure es = true →
    Rewrite.unpackingsAll r es = []
  | [], _ => rfl
  | e :: es, h => by
    rw [allPure, Bool.and_eq_true] at h
    rw [Rewrite.unpackingsAll, unpackings_of_isPure e h.1, unpackingsAll_of_allPure es h.2]
    rfl

end

theorem expr_of_isPure {e : Expr} (h : isPure e = true) (inMethod : Bool) (place : Place) :
    (Rewrite.expr r inMethod place e : Rewrite.Pass Place) = pure place := by
  rw [Rewrite.expr, unpackings_of_isPure r e h, List.foldlM_nil]

theorem expr?_of_isPure {o : Option Expr} (h : o.all isPure = true) (inMethod : Bool)
    (place : Place) : (Rewrite.expr? r inMethod place o : Rewrite.Pass Place) = pure place := by
  cases o with
  | none => rfl
  | some e =>
    rw [Rewrite.expr?, Rewrite.unpackings?_some]
    exact expr_of_isPure r h inMethod place

end Plain

/-! ## Names that do not occur -/

section Spares

variable {temps : List String}

/-- None of the names is spelled at one of the sites. -/
def Spares (temps : List String) (sites : List Site) : Prop :=
  ∀ s ∈ sites, ∀ x, s.identifier? = some x → x ∉ temps

theorem spares_append {ss ss' : List Site} :
    Spares temps (ss ++ ss') ↔ Spares temps ss ∧ Spares temps ss' :=
  List.forall_mem_append

theorem spares_before {s : Site} {ss : List Site} :
    Spares temps (s.before (fun _ => true) ss) ↔
      (∀ x, s.identifier? = some x → x ∉ temps) ∧ Spares temps ss :=
  List.forall_mem_cons

theorem unread_append {rs rs' : List Reading} (h : ∀ x, Reading.var x ∈ rs → x ∉ temps)
    (h' : ∀ x, Reading.var x ∈ rs' → x ∉ temps) : ∀ x, Reading.var x ∈ rs ++ rs' → x ∉ temps := by
  intro x hx
  rcases List.mem_append.1 hx with hx | hx
  · exact h x hx
  · exact h' x hx

mutual

/-- What an expression reads openly is spelled in it. -/
theorem Spares.avoids : ∀ e : Expr, Spares temps (e.visits fun _ => true) → Avoids temps e
  | .int _ _, _ | .bool _ _, _ | .str _ _, _ | .null _, _ | .self _, _ | .field _ _ _, _ => by
    intro x hx
    simp [Expr.readings] at hx
  | .ident s n, h => by
    rw [Expr.visits, spares_before] at h
    intro x hx
    simp only [Expr.readings, List.mem_singleton, Reading.var.injEq] at hx
    exact h.1 x (hx ▸ rfl)
  | .index _ e i, h => by
    rw [Expr.visits, spares_before, spares_append] at h
    exact unread_append (Spares.avoids e h.2.1) (Spares.avoids i h.2.2)
  | .call _ none _ args, h => by
    rw [Expr.visits, spares_before] at h
    exact Spares.avoidsAll args h.2
  | .call _ (some e) _ args, h => by
    rw [Expr.visits, spares_before, spares_append] at h
    intro x hx
    rcases List.mem_cons.1 hx with hx | hx
    · cases hx
    · exact Spares.avoidsAll args h.2.2 x hx
  | .create _ _ args, h => by
    rw [Expr.visits, spares_before, spares_append] at h
    exact Spares.avoidsAll args h.2.2
  | .unary _ _ e, h => by
    rw [Expr.visits, spares_before] at h
    exact Spares.avoids e h.2
  | .binary _ _ a b, h => by
    rw [Expr.visits, spares_before, spares_append] at h
    exact unread_append (Spares.avoids a h.2.1) (Spares.avoids b h.2.2)
  | .conditional _ c t e, h => by
    rw [Expr.visits, spares_before, spares_append, spares_append] at h
    exact unread_append (unread_append (Spares.avoids c h.2.1.1) (Spares.avoids t h.2.1.2))
      (Spares.avoids e h.2.2)
  | .assign _ t v, h => by
    rw [Expr.visits, spares_before, spares_append] at h
    exact unread_append (Spares.avoids t h.2.1) (Spares.avoids v h.2.2)

theorem Spares.avoidsAll : ∀ es : List Expr, Spares temps (Expr.visitsAll (fun _ => true) es) →
    ∀ x, Reading.var x ∈ Expr.readingsAll es → x ∉ temps
  | [], _ => by
    intro x hx
    simp [Expr.readingsAll] at hx
  | e :: es, h => by
    rw [Expr.visitsAll, spares_append] at h
    exact unread_append (Spares.avoids e h.1) (Spares.avoidsAll es h.2)

end

theorem Spares.of_mem {es : List Expr} (h : Spares temps (Expr.visitsAll (fun _ => true) es))
    {e : Expr} (he : e ∈ es) : Spares temps (e.visits fun _ => true) := by
  induction es with
  | nil => simp at he
  | cons e' es ih =>
    rw [Expr.visitsAll, spares_append] at h
    rcases List.mem_cons.1 he with rfl | he
    · exact h.1
    · exact ih h.2 he

end Spares

/-! ## One unpacking -/

section Handling

variable {V : Type} {I : Interp V} {r : Resolver} {temps reserved : List String}

/-- From `t` to `t'` only names among `temps` are handed out, and none of those in `reserved`. -/
structure Covers (temps reserved : List String) (t t' : TempNames) : Prop where
  before : reserved ⊆ t.reserved
  after : ∀ x ∈ t'.reserved, x ∉ reserved → x ∈ temps

theorem Covers.first {t t₁ t' : TempNames} (h : Covers temps reserved t t')
    (ht : t₁.reserved ⊆ t'.reserved) : Covers temps reserved t t₁ :=
  ⟨h.before, fun x hx => h.after x (ht hx)⟩

theorem Covers.rest {t t₁ t' : TempNames} (h : Covers temps reserved t t')
    (ht : t.reserved ⊆ t₁.reserved) : Covers temps reserved t₁ t' :=
  ⟨fun _ hx => ht (h.before hx), h.after⟩

/-- Arguments that are variables are targets. -/
theorem targets_of_isVariable {args : List Expr} (h : args.all isVariable = true) :
    ∃ ts, args.mapM Unpacking.target? = .ok ts ∧ ts.length = args.length ∧
      ∀ t ∈ ts, Expr.ident t.span t.name ∈ args := by
  induction args with
  | nil => exact ⟨[], rfl, rfl, by simp⟩
  | cons e args ih =>
    rw [List.all_cons, Bool.and_eq_true] at h
    obtain ⟨ts, hts, hlen, hmem⟩ := ih h.2
    cases e with
    | ident s x =>
      refine ⟨⟨x, s⟩ :: ts, ?_, congrArg Nat.succ hlen, ?_⟩
      · rw [List.mapM_cons, hts]
        rfl
      · exact List.forall_mem_cons.2
          ⟨List.mem_cons_self, fun t ht => List.mem_cons_of_mem _ (hmem t ht)⟩
    | _ => exact Bool.noConfusion h.1

/-- The steps planned for an unpacking keep to names of their own. -/
theorem apart_nameSteps {names : TempNames} {targets : List String} {values : List Expr}
    {types : List (Option Tree.Ty)}
    (hsteps : (Rewrite.nameSteps names targets values types).1.map (·.target) = targets ∧
      (Rewrite.nameSteps names targets values types).1.map (·.value) = values)
    (htargets : ∀ t ∈ targets, t ∉ temps) (hvalues : ∀ v ∈ values, Avoids temps v)
    (hcovers : Covers temps reserved names (Rewrite.nameSteps names targets values types).2) :
    Apart temps (Rewrite.nameSteps names targets values types).1 := by
  have hout := Rewrite.nameSteps_handsOut names targets values types
  refine ⟨List.nodup_reverse.1 hout.nodup, ?_, ?_, ?_⟩
  · intro x hx
    have hnew := List.mem_reverse.2 hx
    have hreserved : x ∈ (Rewrite.nameSteps names targets values types).2.reserved := by
      rw [hout.reserved]
      exact List.mem_append_left _ hnew
    exact hcovers.after x hreserved fun h => hout.fresh x hnew (hcovers.before h)
  · intro s hs
    exact htargets _ (hsteps.1 ▸ List.mem_map_of_mem hs)
  · intro s hs
    exact hvalues _ (hsteps.2 ▸ List.mem_map_of_mem hs)

/-- An unpacking of pure values to variables is left as it is, or replaced by statements that mean
the same. -/
theorem handle_means {u : Unpacking} {g : Progress} {place : Place}
    (hlen : u.left.args.length = u.right.args.length) (hvars : u.left.args.all isVariable = true)
    (hpure : allPure u.right.args = true)
    (hleft : Spares temps (Expr.visitsAll (fun _ => true) u.left.args))
    (hright : Spares temps (Expr.visitsAll (fun _ => true) u.right.args))
    (hcovers : Covers temps reserved g.temps (Rewrite.handle true place u g).2.temps) :
    (Rewrite.handle true place u g).1 = place ∨
      ∃ ss, (Rewrite.handle true place u g).1 = .replaced ss ∧
        Equiv temps (unpack I u) (execAll I r ss) := by
  obtain ⟨ts, hts, htslen, hmem⟩ := targets_of_isVariable hvars
  have htargets : ∀ x ∈ ts.map (·.name), x ∉ temps := by
    intro x hx
    obtain ⟨t, ht, rfl⟩ := List.mem_map.1 hx
    have hspelled := hleft.of_mem (hmem t ht)
    rw [Expr.visits, spares_before] at hspelled
    exact hspelled.1 t.name rfl
  have hcheck : Desugar.checkTargets true u = .ok (ts.map (·.name)) := by
    simp only [Desugar.checkTargets, Unpacking.checkArity, if_pos hlen, Unpacking.targets, hts]
    rfl
  unfold Rewrite.handle at hcovers ⊢
  simp only [hcheck] at hcovers ⊢
  cases place with
  | fixed => exact .inl rfl
  | replaced ss => exact .inl rfl
  | listed =>
    simp only [] at hcovers ⊢
    split at hcovers
    · exact .inl rfl
    · next types htypes =>
      have hlen' : (ts.map (·.name)).length = u.values.length := by
        rw [List.length_map, htslen, hlen, Unpacking.values]
      have hsteps := nameSteps_parts (n := g.temps) htypes hlen'
      refine .inr ⟨_, rfl, ?_⟩
      exact expansion_equiv u.span hts hpure hsteps.1 hsteps.2
        (apart_nameSteps hsteps htargets (fun v hv => (hright.of_mem hv).avoids v) hcovers)
        (nameSteps_inOrder htypes)

end Handling

/-! ## Statements -/

section Statements

variable {V : Type} {I : Interp V} {r : Resolver} {temps reserved : List String}

/-- The arguments on the two sides of an unpacking are spelled in it. -/
theorem Spares.sides {e : Expr} {u : Unpacking} (h : Spares temps (e.visits fun _ => true))
    (hu : r.unpacking? e = some u) :
    Spares temps (Expr.visitsAll (fun _ => true) u.left.args) ∧
      Spares temps (Expr.visitsAll (fun _ => true) u.right.args) := by
  have hargs : ∀ {span recv method args},
      Spares temps (Expr.visits (fun _ => true) (.call span recv method args)) →
        Spares temps (Expr.visitsAll (fun _ => true) args) := by
    intro span recv method args h
    cases recv with
    | none =>
      rw [Expr.visits, spares_before] at h
      exact h.2
    | some e =>
      rw [Expr.visits, spares_before, spares_append] at h
      exact h.2.2
  obtain ⟨span, t, v, rfl, hleft, hright⟩ := Desugar.unpacking?_eq_some hu
  obtain ⟨_, _, _, rfl⟩ := Desugar.side?_eq_some hleft
  obtain ⟨_, _, _, rfl⟩ := Desugar.side?_eq_some hright
  rw [Expr.visits, spares_before, spares_append] at h
  exact ⟨hargs h.2.1, hargs h.2.2⟩

/-- An expression statement means the same in stores that agree. -/
theorem execExpr_equiv {e : Expr} (h : Spares temps (e.visits fun _ => true)) :
    Equiv temps (execExpr I r e) (execExpr I r e) := by
  unfold execExpr
  split
  · next u hu =>
    have hvalues : ∀ v ∈ u.values, Avoids temps v := fun v hv => ((h.sides hu).2.of_mem hv).avoids v
    exact ⟨.unpack hvalues, .unpack hvalues⟩
  · split
    · next x v _ =>
      rw [Expr.visits, spares_before, spares_append] at h
      exact .withValue (h.2.2.avoids v) fun w => ⟨.store x w, .store x w⟩
    · exact .withValue (h.avoids e) fun _ => .stop .normal

variable (I r) in
/-- A statement at a place means the same as its rewritten form, and as what has taken its place if
it has been replaced. -/
structure Means (temps : List String) (place : Place) (t : Stmt) (out : Place × Stmt) : Prop where
  stmt : Equiv temps (exec I r t) (exec I r out.2)
  place : out.1 = place ∨ ∃ ss, out.1 = .replaced ss ∧ Equiv temps (exec I r t) (execAll I r ss)

theorem expr_of_unpacking {e : Expr} {u : Unpacking} (h : r.unpacking? e = some u) (inMethod : Bool)
    (place : Place) :
    (Rewrite.expr r inMethod place e : Rewrite.Pass Place) = Rewrite.handle inMethod place u := by
  have hlist : Rewrite.unpackings r e = [u] := by
    obtain ⟨span, t, v, rfl, -, -⟩ := Desugar.unpacking?_eq_some h
    rw [Rewrite.unpackings]
    simp only [h]
  rw [Rewrite.expr, hlist, List.foldlM_cons]
  rfl

theorem expr_of_plainExpr {e : Expr} (hu : r.unpacking? e = none) (h : plainExpr r e = true)
    (inMethod : Bool) (place : Place) :
    (Rewrite.expr r inMethod place e : Rewrite.Pass Place) = pure place := by
  unfold plainExpr at h
  rw [hu] at h
  simp only [] at h
  split at h
  · next s s' x v =>
    have hlist : Rewrite.unpackings r (.assign s (.ident s' x) v) = [] := by
      rw [Rewrite.unpackings]
      simp only [hu]
      rw [unpackings_of_isPure r v h, Rewrite.unpackings]
      rfl
    rw [Rewrite.expr, hlist, List.foldlM_nil]
  · exact expr_of_isPure r h inMethod place

theorem exprStmt_means {place : Place} {s : Span} {e : Expr} {g : Progress}
    (hplain : plainExpr r e = true) (hspares : Spares temps (e.visits fun _ => true))
    (hcovers : Covers temps reserved g.temps (Rewrite.stmt r true place (.expr s e) g).2.temps) :
    Means I r temps place (.expr s e) (Rewrite.stmt r true place (.expr s e) g).1 := by
  have hself : Equiv temps (exec I r (.expr s e)) (exec I r (.expr s e)) := by
    rw [exec]
    exact execExpr_equiv hspares
  cases hu : r.unpacking? e with
  | none =>
    rw [Rewrite.stmt, expr_of_plainExpr hu hplain]
    exact ⟨hself, .inl rfl⟩
  | some u =>
    rw [Rewrite.stmt, expr_of_unpacking hu] at hcovers ⊢
    simp only [plainExpr, hu, Bool.and_eq_true, beq_iff_eq] at hplain
    obtain ⟨hleft, hright⟩ := hspares.sides hu
    refine ⟨hself, ?_⟩
    have hexec : exec I r (.expr s e) = unpack I u := by
      rw [exec]
      unfold execExpr
      simp only [hu]
    rw [hexec]
    exact handle_means hplain.1.1 hplain.1.2 hplain.2 hleft hright hcovers

theorem Means.kept {place : Place} {t t' : Stmt} (h : Equiv temps (exec I r t) (exec I r t')) :
    Means I r temps place t (place, t') :=
  ⟨h, .inl rfl⟩

/-- What stands in a list in place of a statement means the same as the statement. -/
theorem Means.listed {t : Stmt} {out : Place × Stmt} (h : Means I r temps .listed t out) :
    Equiv temps (exec I r t) (execAll I r (out.1.stmts out.2)) := by
  rcases h.place with hplace | ⟨ss, hplace, hss⟩
  · rw [hplace, Place.stmts, execAll, execAll, seq_skip]
    · exact h.stmt
    · intro ss hss
      cases hss
  · rw [hplace]
    exact hss

section Growing

variable (place : Place) (g : Progress)

theorem stmt_subset (t : Stmt) :
    g.temps.reserved ⊆ (Rewrite.stmt r true place t g).2.temps.reserved :=
  Progress.Extends.subset (Rewrite.stmt_does Rewrite.additive_extends r true place t g)

theorem stmts_subset (ss : List Stmt) :
    g.temps.reserved ⊆ (Rewrite.stmts r true ss g).2.temps.reserved :=
  Progress.Extends.subset (Rewrite.stmts_does Rewrite.additive_extends r true ss g)

theorem arms_subset (as : List Arm) :
    g.temps.reserved ⊆ (Rewrite.arms r true place as g).2.temps.reserved :=
  Progress.Extends.subset (Rewrite.arms_does Rewrite.additive_extends r true place as g)

end Growing

mutual

theorem stmt_means : ∀ (place : Place) (t : Stmt) (g : Progress), plain r t = true →
    Spares temps (t.visits fun _ => true) →
    Covers temps reserved g.temps (Rewrite.stmt r true place t g).2.temps →
    Means I r temps place t (Rewrite.stmt r true place t g).1
  | place, .expr s e, g, hplain, hspares, hcovers => by
    rw [Stmt.visits, spares_before] at hspares
    exact exprStmt_means hplain hspares.2 hcovers
  | place, .localVar s t n none isFinal, g, hplain, hspares, hcovers => by
    rw [Rewrite.stmt]
    refine Means.kept ?_
    rw [exec]
    exact .stop .normal
  | place, .localVar s t n (some e) isFinal, g, hplain, hspares, hcovers => by
    rw [Stmt.visits, spares_before, spares_append] at hspares
    rw [Rewrite.stmt, expr?_of_isPure r hplain]
    refine Means.kept ?_
    rw [exec]
    exact .withValue (hspares.2.2.avoids e) fun v => ⟨.store n v, .store n v⟩
  | place, .block s ss, g, hplain, hspares, hcovers => by
    rw [Stmt.visits, spares_before, spares_before] at hspares
    rw [Rewrite.stmt] at hcovers ⊢
    refine Means.kept ?_
    rw [exec, exec]
    exact stmts_mean ss _ hplain hspares.2.2 hcovers
  | place, .ifElse s c t none, g, hplain, hspares, hcovers => by
    rw [plain, Bool.and_eq_true] at hplain
    rw [Stmt.visits, spares_before, spares_append] at hspares
    rw [Rewrite.stmt, expr_of_isPure r hplain.1] at hcovers ⊢
    refine Means.kept ?_
    rw [exec, exec]
    have ht := stmt_means .fixed t { g with scopes := g.scopes.push } hplain.2 hspares.2.2
      hcovers
    exact .withValue (hspares.2.1.avoids c) fun v => .ite ht.stmt (.stop .normal)
  | place, .ifElse s c t (some e), g, hplain, hspares, hcovers => by
    rw [plain, Bool.and_eq_true, Bool.and_eq_true] at hplain
    rw [Stmt.visits, spares_before, spares_append, spares_append] at hspares
    rw [Rewrite.stmt, expr_of_isPure r hplain.1.1] at hcovers ⊢
    refine Means.kept ?_
    rw [exec, exec]
    let g₁ : Progress := (Rewrite.stmt r true .fixed t { g with scopes := g.scopes.push }).2
    -- Each branch hands out a part of the names that both hand out.
    have ht := stmt_means .fixed t { g with scopes := g.scopes.push } hplain.1.2 hspares.2.1.2
      (hcovers.first (stmt_subset .fixed { g₁ with scopes := g₁.scopes.pop.push } e))
    have he := stmt_means .fixed e { g₁ with scopes := g₁.scopes.pop.push } hplain.2 hspares.2.2
      (hcovers.rest (stmt_subset .fixed { g with scopes := g.scopes.push } t))
    exact .withValue (hspares.2.1.1.avoids c) fun v => .ite ht.stmt he.stmt
  | place, .whileLoop s c b, g, hplain, hspares, hcovers => by
    rw [plain, Bool.and_eq_true] at hplain
    rw [Stmt.visits, spares_before, spares_append] at hspares
    rw [Rewrite.stmt, expr_of_isPure r hplain.1] at hcovers ⊢
    refine Means.kept ?_
    rw [exec, exec]
    have hb := stmt_means .fixed b { g with scopes := g.scopes.push } hplain.2 hspares.2.2
      hcovers
    exact .loop (hspares.2.1.avoids c) hb.stmt
  | place, .switch s sel as, g, hplain, hspares, hcovers => by
    rw [plain, Bool.and_eq_true] at hplain
    rw [Stmt.visits, spares_before, spares_append] at hspares
    rw [Rewrite.stmt, expr_of_isPure r hplain.1] at hcovers ⊢
    -- Labels are pure, so nothing in them replaces the switch.
    have has := arms_mean place as { g with scopes := g.scopes.push } hplain.2 hspares.2.2
      hcovers
    exact ⟨switch_equiv (hspares.2.1.avoids sel) has.2 s, .inl has.1⟩
  | place, .returnWith s none, g, hplain, hspares, hcovers => by
    rw [Rewrite.stmt]
    refine Means.kept ?_
    rw [exec]
    exact .stop _
  | place, .returnWith s (some e), g, hplain, hspares, hcovers => by
    rw [Stmt.visits, spares_before] at hspares
    rw [Rewrite.stmt, expr?_of_isPure r hplain]
    refine Means.kept ?_
    rw [exec]
    exact .withValue (Spares.avoids e hspares.2) fun v => .stop _
  | place, .breakOut s, g, hplain, hspares, hcovers
  | place, .continueOn s, g, hplain, hspares, hcovers
  | place, .empty s, g, hplain, hspares, hcovers => by
    rw [Rewrite.stmt]
    refine Means.kept ?_
    rw [exec]
    exact .stop _

/-- A list of plain statements means the same when its statements have been rewritten. -/
theorem stmts_mean : ∀ (ss : List Stmt) (g : Progress), plainAll r ss = true →
    Spares temps (Stmt.visitsAll (fun _ => true) ss) →
    Covers temps reserved g.temps (Rewrite.stmts r true ss g).2.temps →
    Equiv temps (execAll I r ss) (execAll I r (Rewrite.stmts r true ss g).1)
  | [], g, hplain, hspares, hcovers => by
    rw [Rewrite.stmts]
    show Equiv temps (execAll I r []) (execAll I r [])
    rw [execAll]
    exact .stop .normal
  | s :: ss, g, hplain, hspares, hcovers => by
    rw [plainAll, Bool.and_eq_true] at hplain
    rw [Stmt.visitsAll, spares_append] at hspares
    rw [Rewrite.stmts] at hcovers ⊢
    let g₁ : Progress := (Rewrite.stmt r true .listed s g).2
    have hs := stmt_means .listed s g hplain.1 hspares.1
      (hcovers.first (stmts_subset g₁ ss))
    have hss := stmts_mean ss g₁ hplain.2 hspares.2
      (hcovers.rest (stmt_subset .listed g s))
    have h := hs.listed.seq hss
    rw [← execAll_append, ← execAll] at h
    exact h

theorem arms_mean : ∀ (place : Place) (as : List Arm) (g : Progress), plainArms r as = true →
    Spares temps (Arm.visitsAll (fun _ => true) as) →
    Covers temps reserved g.temps (Rewrite.arms r true place as g).2.temps →
    (Rewrite.arms r true place as g).1.1 = place ∧
      List.Forall₂ (ArmEquiv I r temps) as (Rewrite.arms r true place as g).1.2
  | place, [], g, hplain, hspares, hcovers => by
    rw [Rewrite.arms]
    exact ⟨rfl, .nil⟩
  | place, .mk label ss :: as, g, hplain, hspares, hcovers => by
    rw [plainArms, Bool.and_eq_true, Bool.and_eq_true] at hplain
    rw [Arm.visitsAll, spares_append, spares_append] at hspares
    rw [Rewrite.arms, expr?_of_isPure r hplain.1.1] at hcovers ⊢
    let g₁ : Progress := (Rewrite.stmts r true ss g).2
    have hss := stmts_mean ss g hplain.1.2 hspares.1.2
      (hcovers.first (arms_subset place g₁ as))
    have has := arms_mean place as g₁ hplain.2 hspares.2
      (hcovers.rest (stmts_subset g ss))
    refine ⟨has.1, .cons ⟨rfl, ?_, hss⟩ has.2⟩
    rintro e ⟨⟩
    exact Spares.avoids e hspares.1.1

end

end Statements

/-! ## Methods -/

section Methods

variable {temps : List String}

theorem Spares.of_flatMap {α : Type} {f : α → List Site} {as : List α} {a : α}
    (h : Spares temps (as.flatMap f)) (ha : a ∈ as) : Spares temps (f a) :=
  fun s hs => h s (List.mem_flatMap_of_mem ha hs)

/-- Names that are not identifiers of a unit are not spelled in its methods. -/
theorem spares_body {u : Tree.CompilationUnit} {m : MethodRef} {d : Tree.Method} {b : Tree.Body}
    (h : ∀ x ∈ temps, x ∉ Tree.identifiers u) (hd : u.method? m = some d) (hb : d.body = some b) :
    Spares temps (Stmt.visitsAll (fun _ => true) b.stmts) := by
  have hsites : Spares temps (Tree.sites u) :=
    fun s hs x hx hmem => h x hmem (List.mem_filterMap.2 ⟨s, hs, hx⟩)
  obtain ⟨c, hc, hm⟩ := Rewrite.method?_eq_some.1 hd
  rw [Tree.sites, Tree.unitVisits, spares_before, spares_append] at hsites
  have hclass := hsites.2.2.of_flatMap (List.mem_of_getElem? hc)
  rw [Tree.classVisits, spares_before] at hclass
  have hmember := hclass.2.of_flatMap (List.mem_of_getElem? hm)
  rw [Tree.memberVisits, spares_before, spares_append, hb] at hmember
  exact (spares_before.1 hmember.2.2).2

/-- A run over a loaded unit keeps the meaning of every method whose body is plain: it ends in the
same ways as before, in stores that agree on every name but those of the temporaries. These are
different from each other and from all identifiers of the unit. -/
theorem desugar_load_preserves (config : DesugarConfig) (u : Tree.CompilationUnit)
    (names : Interner) (hfits : (Program.load u names).1.store.arms.size ≤ absentRaw) :
    ∃ o p' names' u' temps,
      desugar config (Program.load u names).1 (Program.load u names).2 = .ok (o, p', names') ∧
      p'.read names' = .ok u' ∧
      temps.length = o.temporaries ∧ temps.Nodup ∧ (∀ x ∈ temps, x ∉ Tree.identifiers u) ∧
      ∀ m d b, u.method? m = some d → d.body = some b →
        plainAll (Resolver.ofImports config.marker u.imports) b.stmts = true →
        ∃ b', u'.method? m = some { d with body := some b' } ∧
          ∀ (V : Type) (I : Interp V),
            Equiv temps (execAll I (Resolver.ofImports config.marker u.imports) b.stmts)
              (execAll I (Resolver.ofImports config.marker u.imports) b'.stmts) := by
  obtain ⟨fp, hunit, hnodup⟩ := Program.load_unitAt u names hfits
  obtain ⟨o, p', names', fp', hrun, -, ho, hunit', hnodup'⟩ := desugar_eq config hunit hnodup
  have ho : o.temporaries = (Rewrite.run config u).1.temporaries :=
    congrArg Outcome.temporaries (ho _ names'.spelledAs_lookup)
  have hread := hunit'.read_known hnodup'
  obtain ⟨temps, hreserved, hlen, htemps, hfresh⟩ := Rewrite.classes_handOut config u
  refine ⟨o, p', names', _, temps, hrun, hread, hlen.trans ho.symm, htemps, hfresh, ?_⟩
  intro m d b hd hb hplain
  obtain ⟨g, hmethod, hbefore, hafter⟩ := Rewrite.method_rewritten config hd hb
  refine ⟨_, hmethod, fun V I => ?_⟩
  -- Names reserved while the method is gone through are reserved at the end of the run, and those
  -- that were not reserved at its start are temporaries.
  apply stmts_mean b.stmts g hplain (spares_body hfresh hd hb)
  constructor
  · exact hbefore.subset
  · intro x hx hnot
    have hmem := hafter.subset hx
    rw [hreserved] at hmem
    exact (List.mem_append.1 hmem).resolve_right hnot

/-- The method that swaps its parameters still does. -/
theorem desugar_load_preserves_swapUnit :
    ∃ o p' names' u' b',
      desugar {} (Program.load Rewrite.swapUnit {}).1 (Program.load Rewrite.swapUnit {}).2 =
        .ok (o, p', names') ∧
      p'.read names' = .ok u' ∧ (u'.method? ⟨0, 0⟩).bind (·.body) = some b' ∧
      ∀ (I : Interp Int) (σ : Env Int), ∃ σ',
        execAll I (Resolver.ofImports {} Rewrite.swapUnit.imports) b'.stmts σ .normal σ' ∧
        σ' "a" = σ "b" ∧ σ' "b" = σ "a" := by
  obtain ⟨o, p', names', u', temps, hrun, hread, -, -, hfresh, hmethods⟩ :=
    desugar_load_preserves {} Rewrite.swapUnit {} (by decide +kernel)
  obtain ⟨b', hb', hequiv⟩ := hmethods ⟨0, 0⟩ _ _ rfl rfl (by decide +kernel)
  refine ⟨o, p', names', u', b', hrun, hread, by rw [hb']; rfl, fun I σ => ?_⟩
  have hr : Resolver.ofImports {} Rewrite.swapUnit.imports =
      ⟨"tuple", "Tuple", ["lombok", "Tuple"], true, false⟩ := by decide +kernel
  obtain ⟨σ', hexec, hagree⟩ := (hequiv Int I).forth σ σ (.refl σ) .normal
    (storeAll σ ["a", "b"] [σ "b", σ "a"]) (by
      rw [hr]
      exact .inl ⟨_, ⟨[⟨"a", ⟨5, 5⟩⟩, ⟨"b", ⟨5, 6⟩⟩], _, rfl, rfl, rfl, rfl, rfl⟩, rfl, rfl⟩)
  have ha : "a" ∉ temps := fun h => hfresh _ h (by decide +kernel)
  have hb : "b" ∉ temps := fun h => hfresh _ h (by decide +kernel)
  exact ⟨σ', hexec, (hagree "a" ha).symm, (hagree "b" hb).symm⟩

end Methods

end TupleAssign.Semantics
