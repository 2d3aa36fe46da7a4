import TupleAssign.Proofs.Freshness
import TupleAssign.Proofs.Occurrences
import TupleAssign.Proofs.Spelled
/-!
# What replaces a statement

Whatever takes the place of a statement is the expansion of one of the statement's own unpackings,
made in the scopes around that unpacking (`stmt_gives`). The parts of an expansion are those of the
unpacking: its targets, its values, and types found in the scopes (`Expands.steps`).
-/

namespace TupleAssign.Rewrite

open TupleAssign.Tree (Ty Expr Stmt Arm)
open Desugar (checkTargets tempTypes)

/-! ## Expansions of unpackings -/

/-- At some point on the way from `g` to `g'` the unpacking is expanded to these steps, with types
from the scopes. -/
def Expands (g g' : Progress) (scopes : Scopes Ty) (a : Unpacking) (steps : List Step) : Prop :=
  ∃ g₁ types, g.Extends g₁ ∧
    tempTypes scopes a.span (targetNames a) (Hazard.analyze (targetNames a) a.values) = .ok types ∧
    (nameSteps g₁.temps (targetNames a) a.values types).1 = steps ∧
    Progress.Extends
      { g₁ with temps := (nameSteps g₁.temps (targetNames a) a.values types).2 } g'

namespace Expands

variable {g g' g'' : Progress} {scopes : Scopes Ty} {a : Unpacking} {steps : List Step}

theorem later (h : Expands g g' scopes a steps) (h' : g'.Extends g'') :
    Expands g g'' scopes a steps := by
  obtain ⟨g₁, types, hbefore, htypes, hsteps, hafter⟩ := h
  exact ⟨g₁, types, hbefore, htypes, hsteps, hafter.trans h'⟩

/-- The temporaries are handed out on the way. -/
theorem temps (h : Expands g g' scopes a steps) :
    (tempNames steps).Nodup ∧
      ∀ x ∈ tempNames steps, x ∉ g.temps.reserved ∧ x ∈ g'.temps.reserved := by
  obtain ⟨g₁, types, hbefore, -, rfl, hafter⟩ := h
  have hout := nameSteps_handsOut g₁.temps (targetNames a) a.values types
  refine ⟨List.nodup_reverse.1 hout.nodup, fun x hx => ?_⟩
  have hnew := List.mem_reverse.2 hx
  refine ⟨fun hold => hout.fresh x hnew (hbefore.subset hold), hafter.subset ?_⟩
  rw [hout.reserved]
  exact List.mem_append_left _ hnew

end Expands

/-- A declared type of one of the scopes. -/
def IsType (scopes : Scopes Ty) (type : Ty) : Prop :=
  ∃ f ∈ scopes.frames, ∃ d ∈ f, d.type = type

theorem isType_of_resolve {scopes : Scopes Ty} {name : String} {offset : Nat} {type : Ty}
    (h : scopes.resolve name offset = some type) : IsType scopes type := by
  obtain ⟨f, hf, hd⟩ := List.exists_of_findSome?_eq_some h
  obtain ⟨d, hd, htype⟩ := Option.map_eq_some_iff.1 hd
  exact ⟨f, hf, d, List.mem_of_find?_eq_some hd, htype⟩

theorem isType_of_tempTypes {scopes : Scopes Ty} {span : Span} {targets : List String}
    {hazards : List Hazard} {types : List (Option Ty)}
    (h : tempTypes scopes span targets hazards = .ok types) {type : Ty}
    (ht : some type ∈ types) : IsType scopes type := by
  induction targets generalizing hazards types with
  | nil =>
    cases h
    simp at ht
  | cons t targets ih =>
    cases hazards with
    | nil =>
      cases h
      simp at ht
    | cons hz hazards =>
      rw [tempTypes] at h
      split at h
      · split at h
        · simp [throw, throwThe, MonadExceptOf.throw] at h
        · next found hfound =>
          obtain ⟨rest, hrest, h⟩ := bind_eq_ok_iff.1 h
          cases h
          rcases List.mem_cons.1 ht with ht | ht
          · cases ht
            exact isType_of_resolve hfound
          · exact ih hrest ht
      · obtain ⟨rest, hrest, h⟩ := bind_eq_ok_iff.1 h
        cases h
        rcases List.mem_cons.1 ht with ht | ht
        · cases ht
        · exact ih hrest ht

/-- A step pairs a target with a value, and the type of its temporary is one of those given. -/
theorem mem_nameSteps {temps : TempNames} {ts : List String} {vs : List Expr}
    {types : List (Option Ty)} {s : Step} (h : s ∈ (nameSteps temps ts vs types).1) :
    s.target ∈ ts ∧ s.value ∈ vs ∧ ∀ x type, s.temp = some (x, type) → some type ∈ types := by
  fun_induction nameSteps temps ts vs types with
  | case1 temps t ts v vs types rest temps' heq ih =>
    rw [heq] at ih
    rcases List.mem_cons.1 h with rfl | h
    · exact ⟨List.mem_cons_self, List.mem_cons_self, fun x type hnone => by cases hnone⟩
    · obtain ⟨htarget, hvalue, htemp⟩ := ih h
      exact ⟨List.mem_cons_of_mem _ htarget, List.mem_cons_of_mem _ hvalue,
        fun x type hx => List.mem_cons_of_mem _ (htemp x type hx)⟩
  | case2 temps t ts v vs type types name temps' htake rest temps'' heq ih =>
    rw [heq] at ih
    rcases List.mem_cons.1 h with rfl | h
    · refine ⟨List.mem_cons_self, List.mem_cons_self, fun x type' hx => ?_⟩
      cases hx
      exact List.mem_cons_self
    · obtain ⟨htarget, hvalue, htemp⟩ := ih h
      exact ⟨List.mem_cons_of_mem _ htarget, List.mem_cons_of_mem _ hvalue,
        fun x type hx => List.mem_cons_of_mem _ (htemp x type hx)⟩
  | case3 => simp at h

/-- The parts of the steps are those of the unpacking. -/
theorem Expands.steps {g g' : Progress} {scopes : Scopes Ty} {a : Unpacking} {steps : List Step}
    (h : Expands g g' scopes a steps) {s : Step} (hs : s ∈ steps) :
    s.target ∈ targetNames a ∧ s.value ∈ a.values ∧
      ∀ x type, s.temp = some (x, type) → IsType scopes type := by
  obtain ⟨g₁, types, -, htypes, rfl, -⟩ := h
  obtain ⟨htarget, hvalue, htemp⟩ := mem_nameSteps hs
  exact ⟨htarget, hvalue, fun x type hx => isType_of_tempTypes htypes (htemp x type hx)⟩

/-! ## Scopes

Unpackings leave the scopes alone, and statements declare what they declare in the source. -/

section Scopes

variable (r : Resolver) (inMethod : Bool) (place : Place) (g : Progress)

theorem handle_scopes (a : Unpacking) : (handle inMethod place a g).2.scopes = g.scopes := by
  unfold handle
  split
  · rfl
  · split
    · split <;> rfl
    · rfl

theorem handleAll_scopes (us : List Unpacking) :
    (us.foldlM (handle inMethod) place g).2.scopes = g.scopes := by
  induction us generalizing place g with
  | nil => rfl
  | cons a us ih => exact (ih _ _).trans (handle_scopes inMethod place g a)

theorem expr_scopes (e : Expr) : (expr r inMethod place e g).2.scopes = g.scopes :=
  handleAll_scopes inMethod place g _

theorem expr?_scopes (o : Option Expr) : (expr? r inMethod place o g).2.scopes = g.scopes :=
  handleAll_scopes inMethod place g _

theorem stmt_scopes (t : Stmt) : (stmt r inMethod .listed t g).2.scopes = declaring g.scopes t :=
  (stmt_deals r inMethod .listed true g.scopes (stands_listed inMethod) t g rfl).2.1

theorem stmts_scopes (ss : List Stmt) :
    (stmts r inMethod ss g).2.scopes = ss.foldl declaring g.scopes :=
  (stmts_deal r inMethod g.scopes ss g rfl).2.1

/-- A branch leaves the scopes as they were. -/
theorem branch_scopes (t : Stmt) :
    (inScope (stmt r inMethod .fixed t) g).2.scopes = g.scopes :=
  ((stmt_deals r inMethod .fixed false g.scopes.push (stands_fixed inMethod) t).inScope
    (pop_declaring _ t) g rfl).2.1

end Scopes

/-! ## Statements -/

/-- A statement that has been replaced has given way to the expansion of one of these unpackings. -/
def Gives (g g' : Progress) (met : List (Unpacking × Scopes Ty)) (place : Place) : Prop :=
  ∀ ss, place = .replaced ss → ∃ a scopes steps, (a, scopes) ∈ met ∧
    Expands g g' scopes a steps ∧ ss = expansion a.span steps

section Gives

variable {g g' g'' : Progress} {met met' : List (Unpacking × Scopes Ty)} {place : Place}

theorem Gives.later (h : Gives g g' met place) (h' : g'.Extends g'') : Gives g g'' met place := by
  intro ss hss
  obtain ⟨a, scopes, steps, hmem, hexpands, hsteps⟩ := h ss hss
  exact ⟨a, scopes, steps, hmem, hexpands.later h', hsteps⟩

theorem Gives.append (h : Gives g g' met place) : Gives g g' (met ++ met') place := by
  intro ss hss
  obtain ⟨a, scopes, steps, hmem, hexpands, hsteps⟩ := h ss hss
  exact ⟨a, scopes, steps, List.mem_append_left _ hmem, hexpands, hsteps⟩

theorem targets_eq {inMethod : Bool} {a : Unpacking} {targets : List String}
    (h : checkTargets inMethod a = .ok targets) : targets = targetNames a := by
  cases inMethod with
  | false => simp [Desugar.checkTargets_outside] at h
  | true =>
    rw [checkTargets_eq] at h
    split at h
    · cases h
    · split at h
      · cases h
      · cases h
        rfl

theorem handle_gives (inMethod : Bool) (a : Unpacking) (h : Gives g g' met place)
    (hext : g.Extends g') :
    Gives g (handle inMethod place a g').2 (met ++ [(a, g'.scopes)])
      (handle inMethod place a g').1 := by
  unfold handle
  split
  · exact h.append
  · next targets htargets =>
    cases targets_eq htargets
    split
    · split
      · intro ss hss
        cases hss
      · next types htypes =>
        rintro ss ⟨⟩
        exact ⟨a, g'.scopes, _, List.mem_append_right _ List.mem_cons_self,
          ⟨g', types, hext, htypes, rfl, .refl _⟩, rfl⟩
    · exact h.append

theorem handleAll_gives (inMethod : Bool) (us : List Unpacking) (h : Gives g g' met place)
    (hext : g.Extends g') :
    Gives g (us.foldlM (handle inMethod) place g').2 (met ++ us.map (·, g'.scopes))
      (us.foldlM (handle inMethod) place g').1 := by
  induction us generalizing place g' met with
  | nil =>
    rw [List.map_nil, List.append_nil]
    exact h
  | cons a us ih =>
    have hext' := hext.trans (handle_extends inMethod place a g')
    have hstep := ih (handle_gives inMethod a h hext) hext'
    rw [handle_scopes, List.append_assoc] at hstep
    exact hstep

end Gives

section Statements

variable (r : Resolver) (inMethod : Bool)

theorem expr_gives (e : Expr) {g g' : Progress} {met : List (Unpacking × Scopes Ty)} {place : Place}
    (h : Gives g g' met place) (hext : g.Extends g') :
    Gives g (expr r inMethod place e g').2 (met ++ (unpackings r e).map (·, g'.scopes))
      (expr r inMethod place e g').1 :=
  handleAll_gives inMethod (unpackings r e) h hext

theorem expr?_gives (o : Option Expr) {g g' : Progress} {met : List (Unpacking × Scopes Ty)}
    {place : Place} (h : Gives g g' met place) (hext : g.Extends g') :
    Gives g (expr? r inMethod place o g').2 (met ++ (unpackings? r o).map (·, g'.scopes))
      (expr? r inMethod place o g').1 :=
  handleAll_gives inMethod (unpackings? r o) h hext

theorem arms_give {g₀ : Progress} (as : List Arm) {place : Place} {g : Progress}
    {met : List (Unpacking × Scopes Ty)} (h : Gives g₀ g met place) (hext : g₀.Extends g) :
    Gives g₀ (arms r inMethod place as g).2 (met ++ labelUnpackings r g.scopes as)
      (arms r inMethod place as g).1.1 := by
  induction as generalizing place g met with
  | nil =>
    rw [labelUnpackings, List.append_nil, arms]
    exact h
  | cons a as ih =>
    obtain ⟨label, ss⟩ := a
    have hlabel := expr?_gives r inMethod label h hext
    have hext₁ := hext.trans (expr?_does additive_extends r inMethod place label g)
    have hext₂ := stmts_does additive_extends r inMethod ss (expr? r inMethod place label g).2
    have hrest := ih (hlabel.later hext₂) (hext₁.trans hext₂)
    rw [stmts_scopes, expr?_scopes, List.append_assoc] at hrest
    rw [arms, labelUnpackings]
    exact hrest

/-- A statement gives way to nothing but the expansion of an unpacking of its own. -/
theorem stmt_gives (place : Place) (hplace : ∀ ss, place ≠ .replaced ss) (t : Stmt) (g : Progress) :
    Gives g (stmt r inMethod place t g).2 (ownUnpackings r g.scopes t)
      (stmt r inMethod place t g).1.1 := by
  have hnone : Gives g g [] place := fun ss hss => absurd hss (hplace ss)
  cases t with
  | expr s e =>
    rw [stmt]
    exact expr_gives r inMethod e hnone (.refl g)
  | localVar s t n init isFinal =>
    rw [stmt]
    let declared : Progress := { g with scopes := g.scopes.declare n t s.start }
    have hdeclared : Gives g declared [] place := fun ss hss => absurd hss (hplace ss)
    exact expr?_gives r inMethod init hdeclared (.refl g)
  | block s ss =>
    rw [stmt]
    exact fun ss hss => absurd hss (hplace ss)
  | ifElse s c t e =>
    have hcond := expr_gives r inMethod c hnone (.refl g)
    cases e with
    | none =>
      rw [stmt]
      exact hcond.later (additive_extends.inScope (stmt_does additive_extends r inMethod .fixed t) _)
    | some e =>
      rw [stmt]
      exact hcond.later
        ((additive_extends.inScope (stmt_does additive_extends r inMethod .fixed t) _).trans
          (additive_extends.inScope (stmt_does additive_extends r inMethod .fixed e) _))
  | whileLoop s c b =>
    have hcond := expr_gives r inMethod c hnone (.refl g)
    rw [stmt]
    exact hcond.later (additive_extends.inScope (stmt_does additive_extends r inMethod .fixed b) _)
  | switch s sel as =>
    have hsel := expr_gives r inMethod sel hnone (.refl g)
    let selected := (expr r inMethod place sel g).2
    have hpushed : Gives g { selected with scopes := selected.scopes.push } _ _ := hsel
    have harms := arms_give r inMethod as hpushed (expr_does additive_extends r inMethod place sel g)
    have hown : ownUnpackings r g.scopes (.switch s sel as) =
        (unpackings r sel).map (·, g.scopes) ++ labelUnpackings r selected.scopes.push as := by
      rw [expr_scopes, ownUnpackings]
    rw [stmt, hown]
    exact harms
  | returnWith s v =>
    rw [stmt]
    exact expr?_gives r inMethod v hnone (.refl g)
  | breakOut s | continueOn s | empty s =>
    rw [stmt]
    exact hnone

end Statements

/-! ## Known names

All names that an expansion takes from the unpacking and from the scopes are names of the source. -/

section Known

variable {S : List String}

/-- The names spelled in the arguments of an unpacking. -/
def argNames (a : Unpacking) : List String :=
  Expr.namesAll a.left.args ++ Expr.namesAll a.right.args

/-- The types declared in the scopes spell only names of `S`. -/
def Within (S : List String) (scopes : Scopes Ty) : Prop :=
  ∀ f ∈ scopes.frames, ∀ d ∈ f, d.type.names ⊆ S

theorem Within.push {scopes : Scopes Ty} (h : Within S scopes) : Within S scopes.push := by
  intro f hf
  rcases List.mem_cons.1 hf with rfl | hf
  · simp
  · exact h f hf

theorem Within.declare {scopes : Scopes Ty} (h : Within S scopes) (name : String) {type : Ty}
    (ht : type.names ⊆ S) (offset : Nat) : Within S (scopes.declare name type offset) := by
  obtain ⟨frames⟩ := scopes
  cases frames with
  | nil => exact h
  | cons f fs =>
    intro f' hf'
    rcases List.mem_cons.1 hf' with rfl | hf'
    · exact List.forall_mem_cons.2 ⟨ht, h f List.mem_cons_self⟩
    · exact h f' (List.mem_cons_of_mem _ hf')

theorem Within.declaring {scopes : Scopes Ty} (h : Within S scopes) {t : Stmt} (ht : t.names ⊆ S) :
    Within S (declaring scopes t) := by
  cases t with
  | localVar s t n init isFinal =>
    rw [Stmt.names, List.cons_subset, List.append_subset] at ht
    exact h.declare n ht.2.1 s.start
  | _ => exact h

theorem Within.foldl_declaring {scopes : Scopes Ty} (h : Within S scopes) {ss : List Stmt}
    (hss : Stmt.namesAll ss ⊆ S) : Within S (ss.foldl Rewrite.declaring scopes) := by
  induction ss generalizing scopes with
  | nil => exact h
  | cons s ss ih =>
    rw [Stmt.namesAll, List.append_subset] at hss
    exact ih (h.declaring hss.1) hss.2

theorem Within.params {scopes : Scopes Ty} (h : Within S scopes) {ps : List Tree.Param}
    (hps : ps.flatMap Tree.paramNames ⊆ S) : Within S (declaringParams scopes ps) := by
  induction ps generalizing scopes with
  | nil => exact h
  | cons p ps ih =>
    rw [List.flatMap_cons, List.append_subset, Tree.paramNames, List.cons_subset] at hps
    exact ih (h.declare p.name hps.1.2 p.span.start) hps.2

theorem Within.fields {scopes : Scopes Ty} (h : Within S scopes) {ms : List Tree.Member}
    (hms : ms.flatMap Tree.memberNames ⊆ S) : Within S (ms.foldl declaringField scopes) := by
  induction ms generalizing scopes with
  | nil => exact h
  | cons m ms ih =>
    rw [List.flatMap_cons, List.append_subset] at hms
    refine ih ?_ hms.2
    cases m with
    | field f =>
      rw [Tree.memberNames, List.cons_subset, List.append_subset] at hms
      exact h.declare f.name hms.1.2.1 f.span.start
    | method d => exact h
    | initializer i => exact h

variable {r : Resolver} {a : Unpacking}

theorem argNames_of_unpacking? {e : Expr} (h : r.unpacking? e = some a) (he : e.names ⊆ S) :
    argNames a ⊆ S := by
  have hargs : ∀ {span recv method args}, (Expr.call span recv method args).names ⊆ S →
      Expr.namesAll args ⊆ S := by
    intro span recv method args h
    cases recv with
    | none =>
      rw [Expr.names, List.cons_subset] at h
      exact h.2
    | some e =>
      rw [Expr.names, List.cons_subset, List.append_subset] at h
      exact h.2.2
  obtain ⟨span, t, v, rfl, hleft, hright⟩ := Desugar.unpacking?_eq_some h
  obtain ⟨_, _, _, rfl⟩ := Desugar.side?_eq_some hleft
  obtain ⟨_, _, _, rfl⟩ := Desugar.side?_eq_some hright
  rw [Expr.names, List.append_subset] at he
  exact List.append_subset.2 ⟨hargs he.1, hargs he.2⟩

mutual

theorem argNames_subset : ∀ e : Expr, a ∈ unpackings r e → e.names ⊆ S → argNames a ⊆ S
  | .int _ _, h, _ | .bool _ _, h, _ | .str _ _, h, _ | .null _, h, _ | .self _, h, _
  | .ident _ _, h, _ => by
    simp [unpackings] at h
  | .field _ e _, h, hS => by
    rw [unpackings] at h
    rw [Expr.names, List.cons_subset] at hS
    exact argNames_subset e h hS.2
  | .index _ e i, h, hS => by
    rw [unpackings, List.mem_append] at h
    rw [Expr.names, List.append_subset] at hS
    rcases h with h | h
    · exact argNames_subset e h hS.1
    · exact argNames_subset i h hS.2
  | .call _ none _ args, h, hS => by
    rw [unpackings] at h
    rw [Expr.names, List.cons_subset] at hS
    exact argNames_subsetAll args h hS.2
  | .call _ (some e) _ args, h, hS => by
    rw [unpackings, List.mem_append] at h
    rw [Expr.names, List.cons_subset, List.append_subset] at hS
    rcases h with h | h
    · exact argNames_subset e h hS.2.1
    · exact argNames_subsetAll args h hS.2.2
  | .create _ t args, h, hS => by
    rw [unpackings] at h
    rw [Expr.names, List.append_subset] at hS
    exact argNames_subsetAll args h hS.2
  | .unary _ _ e, h, hS => by
    rw [unpackings] at h
    rw [Expr.names] at hS
    exact argNames_subset e h hS
  | .binary _ _ e e', h, hS => by
    rw [unpackings, List.mem_append] at h
    rw [Expr.names, List.append_subset] at hS
    rcases h with h | h
    · exact argNames_subset e h hS.1
    · exact argNames_subset e' h hS.2
  | .conditional _ c t e, h, hS => by
    rw [unpackings, List.mem_append, List.mem_append] at h
    rw [Expr.names, List.append_subset, List.append_subset] at hS
    rcases h with h | h | h
    · exact argNames_subset c h hS.1
    · exact argNames_subset t h hS.2.1
    · exact argNames_subset e h hS.2.2
  | .assign s t v, h, hS => by
    rw [unpackings] at h
    split at h
    · next hu =>
      cases List.mem_singleton.1 h
      exact argNames_of_unpacking? hu hS
    · rw [Expr.names, List.append_subset] at hS
      rcases List.mem_append.1 h with h | h
      · exact argNames_subset t h hS.1
      · exact argNames_subset v h hS.2

theorem argNames_subsetAll : ∀ es : List Expr, a ∈ unpackingsAll r es → Expr.namesAll es ⊆ S →
    argNames a ⊆ S
  | [], h, _ => by simp [unpackingsAll] at h
  | e :: es, h, hS => by
    rw [unpackingsAll, List.mem_append] at h
    rw [Expr.namesAll, List.append_subset] at hS
    rcases h with h | h
    · exact argNames_subset e h hS.1
    · exact argNames_subsetAll es h hS.2

end

theorem argNames_subset? {o : Option Expr} (h : a ∈ unpackings? r o)
    (ho : Tree.optionNames Expr.names o ⊆ S) : argNames a ⊆ S := by
  cases o with
  | none => simp [unpackings?] at h
  | some e =>
    rw [unpackings?_some] at h
    rw [Tree.optionNames_some] at ho
    exact argNames_subset e h ho

/-- An unpacking and scopes of which all names are known. -/
def Known (S : List String) (m : Unpacking × Scopes Ty) : Prop := argNames m.1 ⊆ S ∧ Within S m.2

theorem known_map {us : List Unpacking} {scopes : Scopes Ty} (hus : ∀ a ∈ us, argNames a ⊆ S)
    (h : Within S scopes) : ∀ m ∈ us.map (·, scopes), Known S m := by
  intro m hm
  obtain ⟨a, ha, rfl⟩ := List.mem_map.1 hm
  exact ⟨hus a ha, h⟩

theorem known_labels {scopes : Scopes Ty} {as : List Arm} (has : Arm.namesAll as ⊆ S)
    (h : Within S scopes) : ∀ m ∈ labelUnpackings r scopes as, Known S m := by
  induction as generalizing scopes with
  | nil => simp [labelUnpackings]
  | cons a as ih =>
    obtain ⟨label, ss⟩ := a
    rw [Arm.namesAll, List.append_subset, List.append_subset] at has
    rw [labelUnpackings, List.forall_mem_append]
    exact ⟨known_map (fun a ha => argNames_subset? ha has.1) h,
      ih has.2.2 (h.foldl_declaring has.2.1)⟩

theorem known_own {scopes : Scopes Ty} {t : Stmt} (ht : t.names ⊆ S) (h : Within S scopes) :
    ∀ m ∈ ownUnpackings r scopes t, Known S m := by
  cases t with
  | expr s e =>
    rw [Stmt.names] at ht
    exact known_map (fun a ha => argNames_subset e ha ht) h
  | localVar s t n init isFinal =>
    rw [Stmt.names, List.cons_subset, List.append_subset] at ht
    exact known_map (fun a ha => argNames_subset? ha ht.2.2) (h.declare n ht.2.1 s.start)
  | ifElse s c t e =>
    have hc : c.names ⊆ S := by
      cases e with
      | none =>
        rw [Stmt.names, List.append_subset] at ht
        exact ht.1
      | some e =>
        rw [Stmt.names, List.append_subset] at ht
        exact ht.1
    exact known_map (fun a ha => argNames_subset c ha hc) h
  | whileLoop s c b =>
    rw [Stmt.names, List.append_subset] at ht
    exact known_map (fun a ha => argNames_subset c ha ht.1) h
  | switch s sel as =>
    rw [Stmt.names, List.append_subset] at ht
    rw [ownUnpackings, List.forall_mem_append]
    exact ⟨known_map (fun a ha => argNames_subset sel ha ht.1) h, known_labels ht.2 h.push⟩
  | returnWith s v =>
    rw [Stmt.names] at ht
    exact known_map (fun a ha => argNames_subset? ha ht) h
  | block s ss | breakOut s | continueOn s | empty s => simp [ownUnpackings]

theorem targetNames_subset (a : Unpacking) : targetNames a ⊆ argNames a := by
  intro x hx
  obtain ⟨e, he, hplain⟩ := List.mem_filterMap.1 hx
  refine List.mem_append_left _ (Expr.names_subset he ?_)
  cases e with
  | ident s n =>
    cases hplain
    simp [Expr.names]
  | _ => cases hplain

/-- The steps of an expansion spell only known names, but for the temporaries. -/
theorem Expands.known {g g' : Progress} {scopes : Scopes Ty} {steps : List Step}
    (h : Expands g g' scopes a steps) (hm : Known S (a, scopes)) {s : Step} (hs : s ∈ steps) :
    s.target ∈ S ∧ s.value.names ⊆ S ∧ ∀ x type, s.temp = some (x, type) → type.names ⊆ S := by
  obtain ⟨htarget, hvalue, htemp⟩ := h.steps hs
  refine ⟨hm.1 (targetNames_subset a htarget), ?_, fun x type hx => ?_⟩
  · exact List.Subset.trans (Expr.names_subset hvalue) (List.append_subset.1 hm.1).2
  · obtain ⟨f, hf, d, hd, rfl⟩ := htemp x type hx
    exact hm.2 f hf d hd

end Known

/-! ## Points of a run

At each point of a run the names of the source are reserved, and the scopes spell no others. -/

/-- The names of `S` are reserved, and the scopes spell no others. -/
structure Ready (S : List String) (g : Progress) : Prop where
  reserved : S ⊆ g.temps.reserved
  within : Within S g.scopes

section Ready

variable {S : List String} {g : Progress} (r : Resolver) (inMethod : Bool)

theorem Ready.later {g' : Progress} (h : Ready S g) (hext : g.Extends g')
    (hin : Within S g'.scopes) : Ready S g' :=
  ⟨List.Subset.trans h.reserved hext.subset, hin⟩

theorem Ready.push (h : Ready S g) : Ready S { g with scopes := g.scopes.push } :=
  ⟨h.reserved, h.within.push⟩

theorem Ready.expr (h : Ready S g) (place : Place) (e : Expr) :
    Ready S (expr r inMethod place e g).2 :=
  h.later (expr_does additive_extends r inMethod place e g)
    ((expr_scopes r inMethod place g e).symm ▸ h.within)

theorem Ready.expr? (h : Ready S g) (place : Place) (o : Option Expr) :
    Ready S (expr? r inMethod place o g).2 :=
  h.later (expr?_does additive_extends r inMethod place o g)
    ((expr?_scopes r inMethod place g o).symm ▸ h.within)

theorem Ready.branch (h : Ready S g) (t : Stmt) :
    Ready S (inScope (stmt r inMethod .fixed t) g).2 :=
  h.later (additive_extends.inScope (stmt_does additive_extends r inMethod .fixed t) g)
    ((branch_scopes r inMethod g t).symm ▸ h.within)

theorem Ready.stmt (h : Ready S g) {t : Stmt} (ht : t.names ⊆ S) :
    Ready S (stmt r inMethod .listed t g).2 :=
  h.later (stmt_does additive_extends r inMethod .listed t g)
    ((stmt_scopes r inMethod g t).symm ▸ h.within.declaring ht)

theorem Ready.stmts (h : Ready S g) {ss : List Stmt} (hss : Stmt.namesAll ss ⊆ S) :
    Ready S (stmts r inMethod ss g).2 :=
  h.later (stmts_does additive_extends r inMethod ss g)
    ((stmts_scopes r inMethod g ss).symm ▸ h.within.foldl_declaring hss)

theorem Ready.params (h : Ready S g) {ps : List Tree.Param}
    (hps : ps.flatMap Tree.paramNames ⊆ S) :
    Ready S (ps.forM (fun p => declare p.name p.type p.span.start) g).2 :=
  h.later (params_do additive_extends ps g)
    ((params_deal g.scopes ps g rfl).2.1.symm ▸ h.within.params hps)

theorem Ready.fields (h : Ready S g) {ms : List Tree.Member}
    (hms : ms.flatMap Tree.memberNames ⊆ S) : Ready S (ms.forM declareField g).2 :=
  h.later (fields_do additive_extends ms g)
    ((fields_deal g.scopes ms g rfl).2.1.symm ▸ h.within.fields hms)

/-- A run starts with all names of the unit reserved. -/
theorem start_ready (config : DesugarConfig) (u : Tree.CompilationUnit) :
    Ready (Tree.unitNames u) (start config u) :=
  ⟨Tree.identifiers_eq u ▸ List.Subset.refl _, fun _ hf => nomatch hf⟩

end Ready

end TupleAssign.Rewrite
