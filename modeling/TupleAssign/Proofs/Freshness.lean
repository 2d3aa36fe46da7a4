import TupleAssign.Proofs.Accounting
import TupleAssign.Proofs.Respelling
/-!
# Fresh temporaries

The names that a run hands out to temporaries are different from each other and from every
identifier of the unit (`classes_handOut`). A method is gone through at some point of the run; what
is handed out there is among the names of the run (`method_rewritten`).
-/

namespace TupleAssign

/-! ## Handing out names -/

namespace TempNames

/-- On the way from `t` to `t'` these names have been handed out, the last one first. -/
structure HandsOut (t t' : TempNames) (new : List String) : Prop where
  reserved : t'.reserved = new ++ t.reserved
  allocated : t'.allocated = t.allocated + new.length
  nodup : new.Nodup
  fresh : ∀ x ∈ new, x ∉ t.reserved

variable {t t' t'' : TempNames} {new new' : List String}

theorem HandsOut.refl (t : TempNames) : t.HandsOut t [] := ⟨rfl, rfl, .nil, by simp⟩

theorem HandsOut.trans (h : t.HandsOut t' new) (h' : t'.HandsOut t'' new') :
    t.HandsOut t'' (new' ++ new) := by
  have hfresh : ∀ x ∈ new', x ∉ new ∧ x ∉ t.reserved := by
    intro x hx
    have hx' := h'.fresh x hx
    rwa [h.reserved, List.mem_append, not_or] at hx'
  refine ⟨?_, ?_, ?_, ?_⟩
  · rw [h'.reserved, h.reserved, List.append_assoc]
  · rw [h'.allocated, h.allocated, List.length_append, Nat.add_assoc, Nat.add_comm new.length]
  · refine List.nodup_append.2 ⟨h'.nodup, h.nodup, ?_⟩
    rintro x hx y hy rfl
    exact (hfresh x hx).1 hy
  · intro x hx
    rcases List.mem_append.1 hx with hx | hx
    · exact (hfresh x hx).2
    · exact h.fresh x hx

theorem handsOut_take (t : TempNames) : t.HandsOut t.take.2 [t.take.1] := by
  refine ⟨rfl, rfl, List.nodup_singleton _, ?_⟩
  intro x hx
  rw [List.mem_singleton.1 hx]
  exact t.take_not_mem

end TempNames

namespace Rewrite

open TupleAssign.Tree (Expr)

/-- The names of the temporaries of an expansion, in order. -/
def tempNames (steps : List Step) : List String := steps.filterMap fun s => s.temp.map (·.1)

@[simp]
theorem tempNames_none (t : String) (v : Expr) (steps : List Step) :
    tempNames (⟨t, v, none⟩ :: steps) = tempNames steps := rfl

@[simp]
theorem tempNames_some (t : String) (v : Expr) (x : String) (type : Tree.Ty) (steps : List Step) :
    tempNames (⟨t, v, some (x, type)⟩ :: steps) = x :: tempNames steps := rfl

theorem nameSteps_handsOut (temps : TempNames) (ts : List String) (vs : List Expr)
    (types : List (Option Tree.Ty)) :
    temps.HandsOut (nameSteps temps ts vs types).2
      (tempNames (nameSteps temps ts vs types).1).reverse := by
  fun_induction nameSteps temps ts vs types with
  | case1 temps t ts v vs types rest temps' heq ih =>
    rw [heq] at ih
    exact ih
  | case2 temps t ts v vs type types name temps' htake rest temps'' heq ih =>
    rw [heq] at ih
    rw [supply_take] at htake
    have hname := temps.handsOut_take
    rw [htake] at hname
    have h := hname.trans ih
    simpa [tempNames] using h
  | case3 => exact .refl _

/-- The later progress has all names of the earlier one, and more only if they are fresh. -/
def Progress.Extends (g g' : Progress) : Prop := ∃ new, g.temps.HandsOut g'.temps new

namespace Progress.Extends

variable {g g' g'' : Progress}

theorem refl (g : Progress) : g.Extends g := ⟨[], .refl g.temps⟩

theorem trans (h : g.Extends g') (h' : g'.Extends g'') : g.Extends g'' := by
  obtain ⟨new, hnew⟩ := h
  obtain ⟨new', hnew'⟩ := h'
  exact ⟨new' ++ new, hnew.trans hnew'⟩

theorem subset (h : g.Extends g') : g.temps.reserved ⊆ g'.temps.reserved := by
  obtain ⟨new, hnew⟩ := h
  rw [hnew.reserved]
  exact List.subset_append_right _ _

end Progress.Extends

theorem handle_extends (inMethod : Bool) (place : Place) (u : Unpacking) (g : Progress) :
    g.Extends (handle inMethod place u g).2 := by
  unfold handle
  split
  · exact .refl g
  · split
    · split
      · exact .refl g
      · exact ⟨_, nameSteps_handsOut g.temps _ _ _⟩
    · exact .refl g

theorem additive_extends : Additive fun _ g g' => g.Extends g' where
  none := .refl
  add h h' := h.trans h'
  scopes g _ := .refl g
  handle := handle_extends

/-! ## The point of a run at which a method is gone through -/

/-- One of the items of a list is gone through from some progress in between. -/
theorem mapM_getElem? {α : Type} {f : α → Pass α}
    (h : ∀ a (g : Progress), g.Extends (f a g).2) {as : List α} {i : Nat} {a : α}
    (ha : as[i]? = some a) (g : Progress) :
    ∃ g₁, (as.mapM f g).1[i]? = some (f a g₁).1 ∧ g.Extends g₁ ∧
      (f a g₁).2.Extends (as.mapM f g).2 := by
  induction as generalizing i g with
  | nil => simp at ha
  | cons b as ih =>
    rw [List.mapM_cons]
    cases i with
    | zero =>
      cases ha
      have hrest : Does _ (as.mapM f) (as.flatMap fun _ => ([] : List Unit)).length :=
        additive_extends.mapM h as
      exact ⟨g, rfl, .refl g, hrest _⟩
    | succ i =>
      obtain ⟨g₁, hat, hbefore, hafter⟩ := ih ha (f b g).2
      exact ⟨g₁, hat, (h b g).trans hbefore, hafter⟩

section

variable {r : Resolver}

theorem member_method {d : Tree.Method} {b : Tree.Body} (hb : d.body = some b) (g : Progress) :
    ∃ g₁, (member r (.method d) g).1 =
        .method { d with body := some { b with stmts := (stmts r true b.stmts g₁).1 } } ∧
      g.Extends g₁ ∧ (stmts r true b.stmts g₁).2.Extends (member r (.method d) g).2 := by
  have hparams := params_do additive_extends d.params { g with scopes := g.scopes.push }
  obtain ⟨result, name, params, body, isStatic, span⟩ := d
  cases hb
  exact ⟨_, rfl, hparams, .refl _⟩

theorem cls_members (c : Tree.Class) (g : Progress) :
    ∃ g₁, (cls r c g).1.members = (c.members.mapM (member r) g₁).1 ∧ g.Extends g₁ ∧
      (c.members.mapM (member r) g₁).2.Extends (cls r c g).2 :=
  ⟨_, rfl, fields_do additive_extends c.members { g with scopes := g.scopes.push }, .refl _⟩

end

theorem method?_eq_some {u : Tree.CompilationUnit} {m : MethodRef} {d : Tree.Method} :
    u.method? m = some d ↔
      ∃ c, u.classes[m.cls]? = some c ∧ c.members[m.member]? = some (.method d) := by
  unfold CompilationUnit.method?
  constructor
  · intro h
    split at h
    · simp at h
    · next c hc =>
      split at h
      · next hm =>
        cases h
        exact ⟨c, hc, hm⟩
      · simp at h
  · rintro ⟨c, hc, hm⟩
    simp only [hc, hm]

/-- The statements of a method body are rewritten from some progress of the run on, and what they
lead to is on the way to the end of the run. -/
theorem method_rewritten (config : DesugarConfig) {u : Tree.CompilationUnit} {m : MethodRef}
    {d : Tree.Method} {b : Tree.Body} (hd : u.method? m = some d) (hb : d.body = some b) :
    let rewritten := stmts (Resolver.ofImports config.marker u.imports) true b.stmts
    ∃ g, (run config u).2.method? m =
        some { d with body := some { b with stmts := (rewritten g).1 } } ∧
      (start config u).Extends g ∧ (rewritten g).2.Extends (classes config u).2 := by
  intro rewritten
  obtain ⟨c, hc, hm⟩ := method?_eq_some.1 hd
  obtain ⟨g₁, hclass, hbefore₁, hafter₁⟩ :=
    mapM_getElem? (cls_does additive_extends _) hc (start config u)
  obtain ⟨g₂, hmembers, hbefore₂, hafter₂⟩ := cls_members c g₁
  obtain ⟨g₃, hmember, hbefore₃, hafter₃⟩ := mapM_getElem? (member_does additive_extends _) hm g₂
  obtain ⟨g, hmethod, hbefore, hafter⟩ := member_method hb g₃
  rw [← hmembers, hmethod] at hmember
  exact ⟨g, method?_eq_some.2 ⟨_, hclass, hmember⟩,
    ((hbefore₁.trans hbefore₂).trans hbefore₃).trans hbefore,
    ((hafter.trans hafter₃).trans hafter₂).trans hafter₁⟩

/-- The names handed out by a run are different from each other, and none of them is an identifier
of the unit. -/
theorem classes_handOut (config : DesugarConfig) (u : Tree.CompilationUnit) :
    ∃ new, (classes config u).2.temps.reserved = new ++ Tree.identifiers u ∧
      new.length = (classes config u).2.temps.allocated ∧ new.Nodup ∧
      ∀ x ∈ new, x ∉ Tree.identifiers u := by
  obtain ⟨new, hnew⟩ := classes_do additive_extends config u
  refine ⟨new, hnew.reserved, ?_, hnew.nodup, hnew.fresh⟩
  rw [hnew.allocated]
  exact (Nat.zero_add _).symm

end Rewrite

end TupleAssign
