import TupleAssign.Proofs.Freshness
import TupleAssign.Proofs.Growth
import TupleAssign.Proofs.Semantics
/-!
# Storing one after the other

The expansion of an unpacking stores its values one after the other and still means the same
(`expansion_equiv`). The declarations come first and see the store as it was. After that, a value
that has a temporary is taken from there, and a value that has none reads no target assigned before
it: that is what the analysis of hazards is for (`nameSteps_inOrder`).
-/

namespace TupleAssign.Semantics

open TupleAssign.Tree (Expr Stmt Reading)
open Rewrite (nameSteps tempNames expansion)
open Desugar (tempTypes)

variable {V : Type} {I : Interp V} {r : Resolver} {temps : List String}

/-! ## Steps in order -/

/-- A step without a temporary reads no target before its own, nor one of `done`. -/
def InOrder (done : List String) : List Rewrite.Step → Prop
  | [] => True
  | s :: steps =>
    (s.temp = none → ∀ x, Reading.var x ∈ s.value.readings → x ∉ done) ∧
      InOrder (s.target :: done) steps

theorem not_mem_of_classify {done : List String} {e : Expr}
    (h : (Hazard.classify done e).needsTemporary = false) {x : String}
    (hx : Reading.var x ∈ e.readings) : x ∉ done := by
  intro hdone
  have hforbidden : e.readings.any (Hazard.forbids done) = true :=
    List.any_eq_true.2 ⟨_, hx, List.contains_iff_mem.2 hdone⟩
  rw [Hazard.classify, if_pos hforbidden] at h
  exact Bool.noConfusion h

/-- A target whose value needs no temporary gets none, and its type is not looked up. -/
theorem tempTypes_cons {τ : Type} {scopes : Scopes τ} {span : Span} {t : String} {ts : List String}
    {h : Hazard} {hs : List Hazard} {types : List (Option τ)}
    (hok : tempTypes scopes span (t :: ts) (h :: hs) = .ok types) :
    ∃ type rest, types = type :: rest ∧ tempTypes scopes span ts hs = .ok rest ∧
      (type = none → h.needsTemporary = false) := by
  rw [tempTypes] at hok
  split at hok
  · split at hok
    · simp [throw, throwThe, MonadExceptOf.throw] at hok
    · next type _ =>
      obtain ⟨rest, hrest, hok⟩ := bind_eq_ok_iff.1 hok
      cases hok
      exact ⟨some type, rest, rfl, hrest, fun hnone => absurd hnone (Option.some_ne_none type)⟩
  · next hneeds =>
    obtain ⟨rest, hrest, hok⟩ := bind_eq_ok_iff.1 hok
    cases hok
    exact ⟨none, rest, rfl, hrest, fun _ => Bool.eq_false_iff.2 hneeds⟩

/-- The values that get no temporary are those that need none. -/
theorem nameSteps_inOrder {scopes : Scopes Tree.Ty} {span : Span} {n : TempNames}
    {done ts : List String} {vs : List Expr} {types : List (Option Tree.Ty)}
    (h : tempTypes scopes span ts (Hazard.analyzeAfter done ts vs) = .ok types) :
    InOrder done (nameSteps n ts vs types).1 := by
  induction ts generalizing done vs types n with
  | nil => exact trivial
  | cons t ts ih =>
    cases vs with
    | nil => exact trivial
    | cons v vs =>
      obtain ⟨type, rest, rfl, hrest, hneeds⟩ := tempTypes_cons h
      cases type with
      | none => exact ⟨fun _ x hx => not_mem_of_classify (hneeds rfl) hx, ih hrest⟩
      | some type => exact ⟨fun hnone => absurd hnone (Option.some_ne_none _), ih hrest⟩

/-- Each target is paired with its value. -/
theorem nameSteps_parts {scopes : Scopes Tree.Ty} {span : Span} {n : TempNames}
    {done ts : List String} {vs : List Expr} {types : List (Option Tree.Ty)}
    (h : tempTypes scopes span ts (Hazard.analyzeAfter done ts vs) = .ok types)
    (hlen : ts.length = vs.length) :
    (nameSteps n ts vs types).1.map (·.target) = ts ∧
      (nameSteps n ts vs types).1.map (·.value) = vs := by
  induction ts generalizing done vs types n with
  | nil =>
    cases List.length_eq_zero_iff.1 hlen.symm
    exact ⟨rfl, rfl⟩
  | cons t ts ih =>
    cases vs with
    | nil => exact absurd hlen (Nat.succ_ne_zero _)
    | cons v vs =>
      obtain ⟨type, rest, rfl, hrest, -⟩ := tempTypes_cons h
      -- Taking a name or not, the rest is paired in the same way.
      cases type with
      | none =>
        obtain ⟨htargets, hvalues⟩ := ih (n := n) hrest (Nat.succ.inj hlen)
        exact ⟨congrArg (t :: ·) htargets, congrArg (v :: ·) hvalues⟩
      | some type =>
        obtain ⟨htargets, hvalues⟩ := ih (n := n.take.2) hrest (Nat.succ.inj hlen)
        exact ⟨congrArg (t :: ·) htargets, congrArg (v :: ·) hvalues⟩

/-! ## Storing a value -/

theorem execExpr_assign (s s' : Span) (x : String) (e : Expr) :
    execExpr I r (.assign s (.ident s' x) e) = withValue I e (store x) := rfl

/-- Storing the value of an expression and going on. -/
theorem seq_store {e : Expr} {x : String} {v : V} {σ σ' : Env V} {k : Runs V}
    (hv : eval I σ e = some v) (hk : k (Function.update σ x v) .normal σ') :
    seq (withValue I e (store x)) k σ .normal σ' :=
  .inl ⟨_, ⟨v, hv, rfl, rfl⟩, hk⟩

/-! ## The declarations -/

/-- The temporaries of the steps hold these values. -/
def Holds (σ : Env V) : List Rewrite.Step → List V → Prop :=
  List.Forall₂ fun s v => ∀ x type, s.temp = some (x, type) → σ x = v

theorem evalAll_cons {σ : Env V} {e : Expr} {es : List Expr} {vs : List V} :
    evalAll I σ (e :: es) = some vs ↔
      ∃ v ws, eval I σ e = some v ∧ evalAll I σ es = some ws ∧ vs = v :: ws := by
  simp only [evalAll, Option.bind_eq_bind, Option.bind_eq_some_iff, Option.pure_def,
    Option.some.injEq]
  constructor
  · rintro ⟨v, hv, ws, hws, rfl⟩
    exact ⟨v, ws, hv, hws, rfl⟩
  · rintro ⟨v, ws, hv, hws, rfl⟩
    exact ⟨v, hv, ws, hws, rfl⟩

/-- The declarations see the values as they were, and change nothing but the temporaries. -/
theorem declarations_run (span : Span) {steps : List Rewrite.Step} {vs : List V} {σ τ : Env V}
    (hvs : evalAll I σ (steps.map (·.value)) = some vs) (hσ : Agree temps σ τ)
    (havoids : ∀ s ∈ steps, Avoids temps s.value) (hsub : tempNames steps ⊆ temps)
    (hnodup : (tempNames steps).Nodup) :
    ∃ τ', execAll I r (steps.filterMap (Rewrite.Step.declaration? span)) τ .normal τ' ∧
      Agree temps σ τ' ∧ Holds τ' steps vs ∧ ∀ x, x ∉ tempNames steps → τ' x = τ x := by
  induction steps generalizing vs τ with
  | nil =>
    cases hvs
    exact ⟨τ, ⟨rfl, rfl⟩, hσ, .nil, fun _ _ => rfl⟩
  | cons s steps ih =>
    obtain ⟨target, value, temp⟩ := s
    obtain ⟨v, ws, hv, hws, rfl⟩ := evalAll_cons.1 hvs
    obtain ⟨havoid, hothers⟩ := List.forall_mem_cons.1 havoids
    cases temp with
    | none =>
      rw [Rewrite.tempNames_none] at hsub hnodup ⊢
      obtain ⟨τ', hrun, hσ', hholds, hsame⟩ := ih hws hσ hothers hsub hnodup
      exact ⟨τ', hrun, hσ', .cons (fun x type hx => nomatch hx) hholds, hsame⟩
    | some t =>
      obtain ⟨x, type⟩ := t
      rw [Rewrite.tempNames_some] at hsub hnodup ⊢
      obtain ⟨hx, hsub⟩ := List.cons_subset.1 hsub
      obtain ⟨hfresh, hnodup⟩ := List.nodup_cons.1 hnodup
      obtain ⟨τ', hrun, hσ', hholds, hsame⟩ := ih hws (hσ.update_temp hx v) hothers hsub hnodup
      refine ⟨τ', ?_, hσ', .cons ?_ hholds, ?_⟩
      · have hdecl : Rewrite.Step.declaration? span ⟨target, value, some (x, type)⟩ =
            some (.localVar span type x (some value) true) := rfl
        rw [List.filterMap_cons_some hdecl, execAll, exec]
        exact seq_store (havoid.eval_eq hσ ▸ hv) hrun
      · -- The later temporaries have other names, so this one keeps its value.
        rintro _ _ ⟨⟩
        rw [hsame x hfresh, Function.update_self]
      · intro y hy
        rw [List.mem_cons, not_or] at hy
        rw [hsame y hy.2, Function.update_of_ne hy.1]

/-! ## The assignments -/

/-- Assigning to a target leaves the temporaries alone. -/
theorem Holds.update {τ : Env V} {steps : List Rewrite.Step} {vs : List V} (h : Holds τ steps vs)
    (hsub : tempNames steps ⊆ temps) {x : String} (hx : x ∉ temps) (v : V) :
    Holds (Function.update τ x v) steps vs := by
  induction h with
  | nil => exact .nil
  | @cons s w steps ws head _ ih =>
    obtain ⟨target, value, temp⟩ := s
    cases temp with
    | none => exact .cons (fun y type hy => nomatch hy) (ih hsub)
    | some t =>
      obtain ⟨y, type⟩ := t
      rw [Rewrite.tempNames_some] at hsub
      obtain ⟨hy, hsub⟩ := List.cons_subset.1 hsub
      refine .cons ?_ (ih hsub)
      rintro _ _ ⟨⟩
      have hyx : y ≠ x := fun heq => hx (heq ▸ hy)
      rw [Function.update_of_ne hyx]
      exact head y type rfl

/-- The value that a step assigns is that in the store before all steps: from a temporary, or
because it reads none of the targets assigned so far. -/
theorem assignment_run {s : Rewrite.Step} {v : V} {σ₀ σ τ : Env V} {done : List String} (span : Span)
    (hv : eval I σ₀ s.value = some v)
    (horder : s.temp = none → ∀ x, Reading.var x ∈ s.value.readings → x ∉ done)
    (hdone : ∀ x, x ∉ done → σ x = σ₀ x) (hσ : Agree temps σ τ)
    (hholds : ∀ x type, s.temp = some (x, type) → τ x = v) (havoid : Avoids temps s.value) :
    exec I r (s.assignment span) τ .normal (Function.update τ s.target v) := by
  obtain ⟨target, value, temp⟩ := s
  unfold Rewrite.Step.assignment
  rw [exec, execExpr_assign]
  refine ⟨v, ?_, rfl, rfl⟩
  cases temp with
  | none =>
    have hsame : eval I σ value = eval I σ₀ value :=
      eval_congr I value fun x hx => hdone x (horder rfl x hx)
    rw [← havoid.eval_eq hσ, hsame, hv]
  | some t => exact congrArg some (hholds t.1 t.2 rfl)

/-- The invariant: the store `σ` is the one reached by storing the values of the steps so far, and
the actual store agrees with it. -/
theorem assignments_run (span : Span) {steps : List Rewrite.Step} {vs : List V} {σ₀ σ τ : Env V}
    {done : List String} (hvs : evalAll I σ₀ (steps.map (·.value)) = some vs)
    (horder : InOrder done steps) (hdone : ∀ x, x ∉ done → σ x = σ₀ x) (hσ : Agree temps σ τ)
    (hholds : Holds τ steps vs) (havoids : ∀ s ∈ steps, Avoids temps s.value)
    (htargets : ∀ s ∈ steps, s.target ∉ temps) (hsub : tempNames steps ⊆ temps) :
    ∃ τ', execAll I r (steps.map (Rewrite.Step.assignment span)) τ .normal τ' ∧
      Agree temps (storeAll σ (steps.map (·.target)) vs) τ' := by
  induction steps generalizing vs σ τ done with
  | nil =>
    cases hvs
    exact ⟨τ, ⟨rfl, rfl⟩, hσ⟩
  | cons s steps ih =>
    obtain ⟨v, ws, hv, hws, rfl⟩ := evalAll_cons.1 hvs
    obtain ⟨hhead, hrest⟩ := List.forall₂_cons.1 hholds
    obtain ⟨havoid, havoids⟩ := List.forall_mem_cons.1 havoids
    obtain ⟨htarget, htargets⟩ := List.forall_mem_cons.1 htargets
    have hsub' : tempNames steps ⊆ temps := by
      intro x hx
      obtain ⟨s', hs', hx⟩ := List.mem_filterMap.1 hx
      exact hsub (List.mem_filterMap.2 ⟨s', List.mem_cons_of_mem s hs', hx⟩)
    have hstep := assignment_run (r := r) span hv horder.1 hdone hσ hhead havoid
    -- From here on the target counts as assigned; elsewhere the store is still the first one.
    have hdone' : ∀ x, x ∉ s.target :: done → Function.update σ s.target v x = σ₀ x := by
      intro x hx
      rw [List.mem_cons, not_or] at hx
      rw [Function.update_of_ne hx.1, hdone x hx.2]
    obtain ⟨τ', hrun, hσ'⟩ := ih hws horder.2 hdone' (hσ.update s.target v)
      (Holds.update hrest hsub' htarget v) havoids htargets hsub'
    refine ⟨τ', ?_, hσ'⟩
    rw [List.map_cons, execAll]
    exact .inl ⟨_, hstep, hrun⟩

/-! ## The expansion -/

/-- From a store it ends in one way and in one store only. -/
def Single (m : Runs V) : Prop :=
  ∀ σ sig sig' σ₁ σ₂, m σ sig σ₁ → m σ sig' σ₂ → sig' = sig ∧ σ₂ = σ₁

theorem Single.skip : Single (V := V) skip := by
  rintro σ sig sig' σ₁ σ₂ ⟨rfl, rfl⟩ ⟨rfl, rfl⟩
  exact ⟨rfl, rfl⟩

theorem Single.withValue (e : Expr) (x : String) : Single (withValue I e (store x)) := by
  rintro σ sig sig' σ₁ σ₂ ⟨v, hv, rfl, rfl⟩ ⟨w, hw, rfl, rfl⟩
  cases hv.symm.trans hw
  exact ⟨rfl, rfl⟩

theorem Single.seq {m k : Runs V} (h : Single m) (h' : Single k) : Single (seq m k) := by
  rintro σ sig sig' σ₁ σ₂ (⟨τ, hm, hk⟩ | ⟨hsig, hm⟩) (⟨τ', hm', hk'⟩ | ⟨hsig', hm'⟩)
  · obtain ⟨-, rfl⟩ := h _ _ _ _ _ hm hm'
    exact h' _ _ _ _ _ hk hk'
  · exact absurd (h _ _ _ _ _ hm hm').1 hsig'
  · exact absurd (h _ _ _ _ _ hm' hm).1 hsig
  · exact h _ _ _ _ _ hm hm'

theorem Single.execAll {ss : List Stmt} (h : ∀ s ∈ ss, Single (exec I r s)) :
    Single (execAll I r ss) := by
  induction ss with
  | nil =>
    rw [Semantics.execAll]
    exact .skip
  | cons s ss ih =>
    obtain ⟨hs, hss⟩ := List.forall_mem_cons.1 h
    rw [Semantics.execAll]
    exact hs.seq (ih hss)

theorem expansion_single (span : Span) (steps : List Rewrite.Step) :
    Single (execAll I r (expansion span steps)) := by
  apply Single.execAll
  intro s hs
  rcases List.mem_append.1 hs with hs | hs
  · obtain ⟨step, -, hs⟩ := List.mem_filterMap.1 hs
    obtain ⟨⟨x, type⟩, -, rfl⟩ := Option.map_eq_some_iff.1 hs
    rw [exec]
    exact .withValue step.value x
  · obtain ⟨step, -, rfl⟩ := List.mem_map.1 hs
    unfold Rewrite.Step.assignment
    rw [exec, execExpr_assign]
    exact .withValue _ _

/-- The steps of an expansion whose temporaries are among the names given, and which has no other
use for these names. -/
structure Apart (temps : List String) (steps : List Rewrite.Step) : Prop where
  nodup : (tempNames steps).Nodup
  subset : tempNames steps ⊆ temps
  targets : ∀ s ∈ steps, s.target ∉ temps
  values : ∀ s ∈ steps, Avoids temps s.value

theorem expansion_run (span : Span) {steps : List Rewrite.Step} (happart : Apart temps steps)
    (horder : InOrder [] steps) {vs : List V} {σ τ : Env V}
    (hvs : evalAll I σ (steps.map (·.value)) = some vs) (hσ : Agree temps σ τ) :
    ∃ τ', execAll I r (expansion span steps) τ .normal τ' ∧
      Agree temps (storeAll σ (steps.map (·.target)) vs) τ' := by
  obtain ⟨τ₁, hdecls, hσ₁, hholds, -⟩ :=
    declarations_run (r := r) span hvs hσ happart.values happart.subset happart.nodup
  obtain ⟨τ', hassigns, hσ'⟩ := assignments_run (r := r) span hvs horder (fun _ _ => rfl) hσ₁ hholds
    happart.values happart.targets happart.subset
  refine ⟨τ', ?_, hσ'⟩
  rw [expansion, execAll_append]
  exact .inl ⟨τ₁, hdecls, hassigns⟩

theorem length_evalAll {σ : Env V} {es : List Expr} {vs : List V}
    (h : evalAll I σ es = some vs) : vs.length = es.length := by
  induction es generalizing vs with
  | nil =>
    cases h
    rfl
  | cons e es ih =>
    obtain ⟨v, ws, -, hws, rfl⟩ := evalAll_cons.1 h
    rw [List.length_cons, List.length_cons, ih hws]

/-- An unpacking and its expansion mean the same but for the temporaries. -/
theorem expansion_equiv (span : Span) {u : Unpacking} {ts : List Target}
    {steps : List Rewrite.Step} (hts : u.targets = .ok ts) (hpure : allPure u.values = true)
    (htargets : steps.map (·.target) = ts.map (·.name)) (hvalues : steps.map (·.value) = u.values)
    (happart : Apart temps steps) (horder : InOrder [] steps) :
    Equiv temps (unpack I u) (execAll I r (expansion span steps)) := by
  constructor
  · rintro σ τ hσ sig σ' ⟨ts', vs, hts', hvs, -, rfl, rfl⟩
    cases hts.symm.trans hts'
    rw [← hvalues] at hvs
    rw [← htargets]
    exact expansion_run span happart horder hvs hσ
  · -- The expansion has one run only, and that is the one which matches the unpacking.
    intro τ σ hτ sig τ' hrun
    obtain ⟨vs, hvs⟩ := exists_evalAll I σ u.values hpure
    have hvs' := hvs
    rw [← hvalues] at hvs'
    obtain ⟨τ'', hrun', hagree⟩ := expansion_run (r := r) span happart horder hvs' hτ.symm
    obtain ⟨rfl, rfl⟩ := expansion_single span steps _ _ _ _ _ hrun' hrun
    have hlen : ts.length = vs.length := by
      rw [length_evalAll hvs', List.length_map, ← List.length_map (f := (·.name)), ← htargets,
        List.length_map]
    rw [htargets] at hagree
    exact ⟨_, ⟨ts, vs, hts, hvs, hlen, rfl, rfl⟩, hagree.symm⟩

end TupleAssign.Semantics
