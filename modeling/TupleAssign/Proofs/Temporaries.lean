import TupleAssign.Proofs.Replacing
/-!
# Temporaries are fresh and used once

A name that a run introduces is spelled nowhere in the unit before. After the run it is spelled
twice or, if its statements did not end up in the unit, not at all. One of the two is the
declaration of a final local with a value, the other is the right-hand side of an assignment
further on in the same statement list.

Going through a tree, it is enough to know of each part which names it spells beyond those of the
source, and that they were handed out meanwhile (`Linear`). Parts that are gone through one after
the other then share no such name.
-/

namespace TupleAssign

namespace Tree

/-! ## Statement lists -/

mutual

/-- The statement lists inside of a statement. -/
def Stmt.lists : Stmt → List (List Stmt)
  | .block _ ss => ss :: Stmt.innerLists ss
  | .ifElse _ _ t none => Stmt.lists t
  | .ifElse _ _ t (some e) => Stmt.lists t ++ Stmt.lists e
  | .whileLoop _ _ b => Stmt.lists b
  | .switch _ _ as => Arm.lists as
  | .expr _ _ | .localVar _ _ _ _ _ | .returnWith _ _ | .breakOut _ | .continueOn _ | .empty _ => []

/-- The statement lists inside of the statements of a list. -/
def Stmt.innerLists : List Stmt → List (List Stmt)
  | [] => []
  | s :: ss => Stmt.lists s ++ Stmt.innerLists ss

def Arm.lists : List Arm → List (List Stmt)
  | [] => []
  | .mk _ ss :: as => ss :: (Stmt.innerLists ss ++ Arm.lists as)

end

def Body.lists (b : Body) : List (List Stmt) := b.stmts :: Stmt.innerLists b.stmts

def memberLists : Member → List (List Stmt)
  | .field _ => []
  | .method d => d.body.toList.flatMap Body.lists
  | .initializer i => i.body.lists

def classLists (c : Class) : List (List Stmt) := c.members.flatMap memberLists

/-- All statement lists of a unit. -/
def unitLists (u : CompilationUnit) : List (List Stmt) := u.classes.flatMap classLists

theorem Stmt.innerLists_append (ss ss' : List Stmt) :
    Stmt.innerLists (ss ++ ss') = Stmt.innerLists ss ++ Stmt.innerLists ss' := by
  induction ss with
  | nil => rfl
  | cons s ss ih => rw [List.cons_append, Stmt.innerLists, Stmt.innerLists, ih, List.append_assoc]

end Tree

namespace Rewrite

open TupleAssign.Tree (Ty Expr Stmt Arm)

/-! ## Names that are used once -/

/-- A final local of this name is declared with a value, and an assignment further on takes the
value out of it. -/
def Relays (x : String) (ss : List Stmt) : Prop :=
  ∃ before span type value between s₁ s₂ s₃ target s₄ after,
    ss = before ++ .localVar span type x (some value) true ::
      (between ++ .expr s₁ (.assign s₂ (.ident s₃ target) (.ident s₄ x)) :: after)

theorem Relays.append_left {x : String} {ss : List Stmt} (h : Relays x ss) (ss' : List Stmt) :
    Relays x (ss ++ ss') := by
  obtain ⟨before, span, type, value, between, s₁, s₂, s₃, target, s₄, after, rfl⟩ := h
  exact ⟨before, span, type, value, between, s₁, s₂, s₃, target, s₄, after ++ ss', by simp⟩

theorem Relays.append_right {x : String} {ss : List Stmt} (h : Relays x ss) (ss' : List Stmt) :
    Relays x (ss' ++ ss) := by
  obtain ⟨before, span, type, value, between, s₁, s₂, s₃, target, s₄, after, rfl⟩ := h
  exact ⟨ss' ++ before, span, type, value, between, s₁, s₂, s₃, target, s₄, after, by simp⟩

/-- What a part of a tree spells, given what was reserved before and after it was gone through:
names of `S`, and others that were handed out meanwhile, each twice, in one of the lists. -/
structure Linear (S before after spelled : List String) (lists : List (List Stmt)) : Prop where
  grows : before ⊆ after
  once : ∀ x ∈ spelled, x ∉ S →
    x ∉ before ∧ x ∈ after ∧ spelled.count x = 2 ∧ ∃ ss ∈ lists, Relays x ss

namespace Linear

variable {S R R₁ R₂ N N' : List String} {Ls Ls' : List (List Stmt)}

theorem old (h : N ⊆ S) (hgrows : R ⊆ R₁) : Linear S R R₁ N [] :=
  ⟨hgrows, fun _ hx hnew => absurd (h hx) hnew⟩

/-- A name of the first part has been handed out when the second part is come to, so it is not
spelled there. -/
theorem append (h : Linear S R R₁ N Ls) (h' : Linear S R₁ R₂ N' Ls') :
    Linear S R R₂ (N ++ N') (Ls ++ Ls') where
  grows := List.Subset.trans h.grows h'.grows
  once := by
    intro x hx hnew
    rw [List.count_append]
    rcases List.mem_append.1 hx with hx | hx
    · obtain ⟨hbefore, hafter, hcount, ss, hss, hrelays⟩ := h.once x hx hnew
      have hother : N'.count x = 0 :=
        List.count_eq_zero.2 fun hx' => (h'.once x hx' hnew).1 hafter
      exact ⟨hbefore, h'.grows hafter, by omega, ss, List.mem_append_left _ hss, hrelays⟩
    · obtain ⟨hbefore, hafter, hcount, ss, hss, hrelays⟩ := h'.once x hx hnew
      have hother : N.count x = 0 :=
        List.count_eq_zero.2 fun hx' => hbefore (h.once x hx' hnew).2.1
      exact ⟨fun hold => hbefore (h.grows hold), hafter, by omega, ss,
        List.mem_append_right _ hss, hrelays⟩

theorem known (h : N ⊆ S) (h' : Linear S R R₁ N' Ls) : Linear S R R₁ (N ++ N') Ls :=
  (old h (List.Subset.refl R)).append h'

theorem lists_mono (h : Linear S R R₁ N Ls) (hsub : ∀ x, ∀ ss ∈ Ls, Relays x ss →
    ∃ ss' ∈ Ls', Relays x ss') : Linear S R R₁ N Ls' where
  grows := h.grows
  once := by
    intro x hx hnew
    obtain ⟨hbefore, hafter, hcount, ss, hss, hrelays⟩ := h.once x hx hnew
    exact ⟨hbefore, hafter, hcount, hsub x ss hss hrelays⟩

theorem single {t : Stmt} (h : Linear S R R₁ t.names t.lists) :
    Linear S R R₁ (Stmt.namesAll [t]) ([t] :: Stmt.innerLists [t]) := by
  rw [Stmt.namesAll, Stmt.namesAll, Stmt.innerLists, Stmt.innerLists, List.append_nil,
    List.append_nil]
  exact h.lists_mono fun _ ss hss hrelays => ⟨ss, List.mem_cons_of_mem _ hss, hrelays⟩

/-- Two parts of one statement list. -/
theorem concat {ss ss' : List Stmt}
    (h : Linear S R R₁ (Stmt.namesAll ss) (ss :: Stmt.innerLists ss))
    (h' : Linear S R₁ R₂ (Stmt.namesAll ss') (ss' :: Stmt.innerLists ss')) :
    Linear S R R₂ (Stmt.namesAll (ss ++ ss')) ((ss ++ ss') :: Stmt.innerLists (ss ++ ss')) := by
  rw [Stmt.namesAll_append, Stmt.innerLists_append]
  refine (h.append h').lists_mono fun x L hL hrelays => ?_
  rw [List.cons_append, List.mem_cons, List.mem_append, List.mem_cons] at hL
  rcases hL with rfl | hL | rfl | hL
  · exact ⟨_, List.mem_cons_self, hrelays.append_left ss'⟩
  · exact ⟨L, List.mem_cons_of_mem _ (List.mem_append_left _ hL), hrelays⟩
  · exact ⟨_, List.mem_cons_self, hrelays.append_right ss⟩
  · exact ⟨L, List.mem_cons_of_mem _ (List.mem_append_right _ hL), hrelays⟩

end Linear

/-! ## Expansions -/

section Expansions

variable {S : List String} {span : Span} {steps : List Step} {x : String}

theorem count_of_subset {l : List String} (hx : x ∉ S) (h : l ⊆ S) : l.count x = 0 :=
  List.count_eq_zero.2 fun hl => hx (h hl)

/-- Besides known names, the declarations spell each temporary once. -/
theorem count_declarations (hx : x ∉ S) (h : ∀ s ∈ steps, s.value.names ⊆ S ∧
      ∀ y type, s.temp = some (y, type) → type.names ⊆ S) :
    (Stmt.namesAll (steps.filterMap (Step.declaration? span))).count x =
      (tempNames steps).count x := by
  induction steps with
  | nil => rfl
  | cons s steps ih =>
    obtain ⟨hs, hsteps⟩ := List.forall_mem_cons.1 h
    obtain ⟨target, value, temp⟩ := s
    cases temp with
    | none => exact ih hsteps
    | some temp =>
      obtain ⟨y, type⟩ := temp
      have hdeclared : (Step.declaration? span ⟨target, value, some (y, type)⟩) =
        some (.localVar span type y (some value) true) := rfl
      rw [List.filterMap_cons_some hdeclared, Stmt.namesAll, Stmt.names, Tree.optionNames_some,
        tempNames_some, List.count_append, ih hsteps, List.count_cons, List.count_cons,
        List.count_append, count_of_subset hx hs.1, count_of_subset hx (hs.2 y type rfl)]
      omega

/-- Besides known names, the assignments spell each temporary once. -/
theorem count_assignments (hx : x ∉ S) (h : ∀ s ∈ steps, s.target ∈ S ∧ s.value.names ⊆ S) :
    (Stmt.namesAll (steps.map (Step.assignment span))).count x = (tempNames steps).count x := by
  induction steps with
  | nil => rfl
  | cons s steps ih =>
    obtain ⟨hs, hsteps⟩ := List.forall_mem_cons.1 h
    obtain ⟨target, value, temp⟩ := s
    have htarget : [target].count x = 0 :=
      count_of_subset hx (List.cons_subset.2 ⟨hs.1, List.nil_subset S⟩)
    rw [List.map_cons, Stmt.namesAll, List.count_append, ih hsteps, Step.assignment, Stmt.names,
      Expr.names, Expr.names, List.count_append, htarget]
    cases temp with
    | none =>
      rw [tempNames_none, count_of_subset hx hs.2]
      omega
    | some temp =>
      obtain ⟨y, type⟩ := temp
      rw [tempNames_some, Expr.names, List.count_cons, List.count_cons, List.count_nil]
      omega

/-- The temporary of a step is declared before all assignments, one of which is that of the step. -/
theorem relays_expansion (hx : x ∈ tempNames steps) : Relays x (expansion span steps) := by
  obtain ⟨⟨target, value, temp⟩, hs, htemp⟩ := List.mem_filterMap.1 hx
  obtain ⟨⟨y, type⟩, rfl, rfl⟩ := Option.map_eq_some_iff.1 htemp
  obtain ⟨before, after, rfl⟩ := List.append_of_mem hs
  refine ⟨before.filterMap (Step.declaration? span), span, type, value,
    after.filterMap (Step.declaration? span) ++ before.map (Step.assignment span),
    span, span, span, target, span, after.map (Step.assignment span), ?_⟩
  have hdeclared : (Step.declaration? span ⟨target, value, some (y, type)⟩) =
    some (.localVar span type y (some value) true) := rfl
  have hassigned : (Step.assignment span ⟨target, value, some (y, type)⟩) =
    .expr span (.assign span (.ident span target) (.ident span y)) := rfl
  rw [expansion, List.filterMap_append, List.filterMap_cons_some hdeclared, List.map_append,
    List.map_cons, hassigned]
  simp

theorem Expands.linear {g g' : Progress} {scopes : Scopes Ty} {a : Unpacking}
    (h : Expands g g' scopes a steps) (hm : Known S (a, scopes)) (hext : g.Extends g') :
    Linear S g.temps.reserved g'.temps.reserved (Stmt.namesAll (expansion span steps))
      (expansion span steps :: Stmt.innerLists (expansion span steps)) where
  grows := hext.subset
  once := by
    intro x hx hnew
    obtain ⟨hnodup, htemps⟩ := h.temps
    have hcount : (Stmt.namesAll (expansion span steps)).count x =
        (tempNames steps).count x + (tempNames steps).count x := by
      rw [expansion, Stmt.namesAll_append, List.count_append,
        count_declarations hnew fun s hs => (h.known hm hs).2,
        count_assignments hnew fun s hs => ⟨(h.known hm hs).1, (h.known hm hs).2.1⟩]
    have hmem : x ∈ tempNames steps := by
      have hpos := List.count_pos_iff.2 hx
      exact List.count_pos_iff.1 (by omega)
    refine ⟨(htemps x hmem).1, (htemps x hmem).2, ?_, _, List.mem_cons_self, relays_expansion hmem⟩
    rw [hcount, List.count_eq_one_of_mem hnodup hmem]

end Expansions

/-! ## Statements -/

section Statements

variable {S : List String} {g : Progress} (r : Resolver) (inMethod : Bool)

/-- What stands in a list in place of a statement. -/
theorem listed_linear (h : Ready S g) {t : Stmt} (ht : t.names ⊆ S)
    (hstmt : Linear S g.temps.reserved (stmt r inMethod .listed t g).2.temps.reserved
      (stmt r inMethod .listed t g).1.2.names (stmt r inMethod .listed t g).1.2.lists) :
    let ss := (stmt r inMethod .listed t g).1.1.stmts (stmt r inMethod .listed t g).1.2
    Linear S g.temps.reserved (stmt r inMethod .listed t g).2.temps.reserved (Stmt.namesAll ss)
      (ss :: Stmt.innerLists ss) := by
  intro ss
  have hgives := stmt_gives r inMethod .listed (fun _ hss => nomatch hss) t g
  have hext : g.Extends (stmt r inMethod .listed t g).2 :=
    stmt_does additive_extends r inMethod .listed t g
  cases hplace : (stmt r inMethod .listed t g).1.1 with
  | fixed | listed =>
    simp only [ss, hplace, Place.stmts]
    exact hstmt.single
  | replaced ss' =>
    obtain ⟨a, scopes, steps, hmem, hexpands, rfl⟩ := hgives ss' hplace
    simp only [ss, hplace, Place.stmts]
    exact hexpands.linear (known_own ht h.within _ hmem) hext

mutual

theorem stmt_linear (place : Place) : ∀ (t : Stmt) (g : Progress), Ready S g → t.names ⊆ S →
    Linear S g.temps.reserved (stmt r inMethod place t g).2.temps.reserved
      (stmt r inMethod place t g).1.2.names (stmt r inMethod place t g).1.2.lists
  | .expr s e, g, hready, ht => by
    rw [stmt]
    exact .old ht (expr_does additive_extends r inMethod place e g).subset
  | .localVar s t n init isFinal, g, hready, ht => by
    let declared : Progress := { g with scopes := g.scopes.declare n t s.start }
    have hinit : declared.Extends _ := expr?_does additive_extends r inMethod place init declared
    rw [stmt]
    exact .old ht hinit.subset
  | .block s ss, g, hready, ht => by
    rw [Stmt.names] at ht
    have hss := stmts_linear ss _ hready.push ht
    rw [stmt]
    change Linear S _ _ (Stmt.names (.block s _)) (Stmt.lists (.block s _))
    rw [Stmt.names, Stmt.lists]
    exact hss
  | .ifElse s c t none, g, hready, ht => by
    rw [Stmt.names, List.append_subset] at ht
    have hcond := expr_does additive_extends r inMethod place c g
    have hthen := stmt_linear .fixed t _ (hready.expr r inMethod place c).push ht.2
    rw [stmt]
    change Linear S _ _ (Stmt.names (.ifElse s c _ none)) (Stmt.lists (.ifElse s c _ none))
    rw [Stmt.names, Stmt.lists]
    exact (Linear.old ht.1 hcond.subset).append hthen
  | .ifElse s c t (some e), g, hready, ht => by
    rw [Stmt.names, List.append_subset, List.append_subset] at ht
    have hcond := expr_does additive_extends r inMethod place c g
    have hready₁ := hready.expr r inMethod place c
    have hthen := stmt_linear .fixed t _ hready₁.push ht.2.1
    have helse := stmt_linear .fixed e _ (hready₁.branch r inMethod t).push ht.2.2
    rw [stmt]
    change Linear S _ _ (Stmt.names (.ifElse s c _ (some _))) (Stmt.lists (.ifElse s c _ (some _)))
    rw [Stmt.names, Stmt.lists]
    exact (Linear.old ht.1 hcond.subset).append (hthen.append helse)
  | .whileLoop s c b, g, hready, ht => by
    rw [Stmt.names, List.append_subset] at ht
    have hcond := expr_does additive_extends r inMethod place c g
    have hbody := stmt_linear .fixed b _ (hready.expr r inMethod place c).push ht.2
    rw [stmt]
    change Linear S _ _ (Stmt.names (.whileLoop s c _)) (Stmt.lists (.whileLoop s c _))
    rw [Stmt.names, Stmt.lists]
    exact (Linear.old ht.1 hcond.subset).append hbody
  | .switch s sel as, g, hready, ht => by
    rw [Stmt.names, List.append_subset] at ht
    have hsel := expr_does additive_extends r inMethod place sel g
    have harms := arms_linear (expr r inMethod place sel g).1 as _
      (hready.expr r inMethod place sel).push ht.2
    rw [stmt]
    change Linear S _ _ (Stmt.names (.switch s sel _)) (Stmt.lists (.switch s sel _))
    rw [Stmt.names, Stmt.lists]
    exact (Linear.old ht.1 hsel.subset).append harms
  | .returnWith s v, g, hready, ht => by
    rw [stmt]
    exact .old ht (expr?_does additive_extends r inMethod place v g).subset
  | .breakOut s, g, hready, ht | .continueOn s, g, hready, ht | .empty s, g, hready, ht => by
    rw [stmt]
    exact .old ht (List.Subset.refl _)

theorem stmts_linear : ∀ (ss : List Stmt) (g : Progress), Ready S g → Stmt.namesAll ss ⊆ S →
    Linear S g.temps.reserved (stmts r inMethod ss g).2.temps.reserved
      (Stmt.namesAll (stmts r inMethod ss g).1)
      ((stmts r inMethod ss g).1 :: Stmt.innerLists (stmts r inMethod ss g).1)
  | [], g, hready, hss => by
    rw [stmts]
    exact ⟨List.Subset.refl _, fun x hx => nomatch hx⟩
  | s :: ss, g, hready, hss => by
    rw [Stmt.namesAll, List.append_subset] at hss
    have hhead := listed_linear r inMethod hready hss.1 (stmt_linear .listed s g hready hss.1)
    have htail := stmts_linear ss _ (hready.stmt r inMethod hss.1) hss.2
    rw [stmts]
    exact hhead.concat htail

theorem arms_linear (place : Place) : ∀ (as : List Arm) (g : Progress), Ready S g →
    Arm.namesAll as ⊆ S →
    Linear S g.temps.reserved (arms r inMethod place as g).2.temps.reserved
      (Arm.namesAll (arms r inMethod place as g).1.2) (Arm.lists (arms r inMethod place as g).1.2)
  | [], g, hready, has => by
    rw [arms]
    exact .old has (List.Subset.refl _)
  | .mk label ss :: as, g, hready, has => by
    rw [Arm.namesAll, List.append_subset, List.append_subset] at has
    have hlabel := expr?_does additive_extends r inMethod place label g
    have hready₁ := hready.expr? r inMethod place label
    have hss := stmts_linear ss _ hready₁ has.2.1
    have hrest := arms_linear (expr? r inMethod place label g).1 as _
      (hready₁.stmts r inMethod has.2.1) has.2.2
    rw [arms]
    change Linear S _ _ (Arm.namesAll (.mk label _ :: _)) (Arm.lists (.mk label _ :: _))
    rw [Arm.namesAll, Arm.lists]
    exact (Linear.old has.1 hlabel.subset).append (hss.append hrest)

end

end Statements

/-! ## Items -/

section Items

variable {S : List String} {g : Progress} (r : Resolver)

theorem body_linear (inMethod : Bool) {b : Tree.Body} (hready : Ready S g) (hb : b.names ⊆ S) :
    Linear S g.temps.reserved (body r inMethod b g).2.temps.reserved (body r inMethod b g).1.names
      (body r inMethod b g).1.lists :=
  stmts_linear r inMethod b.stmts _ hready.push hb

theorem member_linear {m : Tree.Member} (hready : Ready S g) (hm : Tree.memberNames m ⊆ S) :
    Linear S g.temps.reserved (member r m g).2.temps.reserved (Tree.memberNames (member r m g).1)
      (Tree.memberLists (member r m g).1) := by
  cases m with
  | field f => exact .old hm (expr?_does additive_extends r false .fixed f.init g).subset
  | initializer i => exact body_linear r false hready hm
  | method d =>
    obtain ⟨name, result, params, b, isStatic, span⟩ := d
    rw [Tree.memberNames, List.cons_subset, List.append_subset, List.append_subset] at hm
    obtain ⟨hname, hresult, hparams, hbody⟩ := hm
    let opened : Progress := { g with scopes := g.scopes.push }
    let declared := (params.forM (fun p => declare p.name p.type p.span.start) opened).2
    have hready₁ : Ready S declared := hready.push.params hparams
    have hgrows : g.temps.reserved ⊆ declared.temps.reserved :=
      Progress.Extends.subset (params_do additive_extends params opened)
    have hbody : Linear S declared.temps.reserved (body? r b declared).2.temps.reserved
        (Tree.optionNames Tree.Body.names (body? r b declared).1)
        ((body? r b declared).1.toList.flatMap Tree.Body.lists) := by
      cases b with
      | none => exact .old hbody (List.Subset.refl _)
      | some b =>
        rw [Tree.optionNames_some] at hbody
        have hstmts := body_linear r true hready₁ hbody
        change Linear S _ _ (Tree.optionNames Tree.Body.names (some _))
          ((some _).toList.flatMap Tree.Body.lists)
        rw [Tree.optionNames_some, Option.toList_some, List.flatMap_singleton]
        exact hstmts
    have hhead : [name] ⊆ S := List.cons_subset.2 ⟨hname, List.nil_subset S⟩
    exact (Linear.old hhead hgrows).append (.known hresult (.known hparams hbody))

/-- Items that are gone through one after the other in the same scopes. -/
theorem mapM_linear {α : Type} {f : α → Pass α} {names : α → List String}
    {lists : α → List (List Stmt)} {scopes : Scopes Ty} {as : List α} (has : as.flatMap names ⊆ S)
    (h : ∀ a g, names a ⊆ S → Ready S g → Linear S g.temps.reserved (f a g).2.temps.reserved
      (names (f a g).1) (lists (f a g).1))
    (hf : ∀ a g, g.scopes = scopes → (f a g).2.scopes = scopes) (hg : g.scopes = scopes)
    (hready : Ready S g) :
    Linear S g.temps.reserved (as.mapM f g).2.temps.reserved ((as.mapM f g).1.flatMap names)
      ((as.mapM f g).1.flatMap lists) := by
  induction as generalizing g with
  | nil => exact .old (List.nil_subset S) (List.Subset.refl _)
  | cons a as ih =>
    rw [List.flatMap_cons, List.append_subset] at has
    have hhead := h a g has.1 hready
    have hnext : Ready S (f a g).2 := ⟨List.Subset.trans hready.reserved hhead.grows,
      (hf a g hg).trans hg.symm ▸ hready.within⟩
    have htail := ih has.2 (hf a g hg) hnext
    rw [List.mapM_cons]
    exact hhead.append htail

theorem cls_linear {c : Tree.Class} (hready : Ready S g) (hc : Tree.classNames c ⊆ S) :
    Linear S g.temps.reserved (cls r c g).2.temps.reserved (Tree.classNames (cls r c g).1)
      (Tree.classLists (cls r c g).1) := by
  rw [Tree.classNames, List.cons_subset] at hc
  let opened : Progress := { g with scopes := g.scopes.push }
  have hext : opened.Extends (c.members.forM declareField opened).2 :=
    fields_do additive_extends c.members opened
  have hmembers := mapM_linear hc.2 (fun m g hm hready => member_linear r hready hm)
    (fun m g hg => (member_deals r m g hg).2.1) rfl (hready.push.fields hc.2)
  have hhead : [c.name] ⊆ S := List.cons_subset.2 ⟨hc.1, List.nil_subset S⟩
  exact (Linear.old hhead hext.subset).append hmembers

/-- Beyond the names of the unit, the rewritten unit spells only names that were handed out. -/
theorem run_linear (config : DesugarConfig) (u : Tree.CompilationUnit) :
    Linear (Tree.unitNames u) (Tree.identifiers u) (classes config u).2.temps.reserved
      (Tree.unitNames (run config u).2) (Tree.unitLists (run config u).2) := by
  let r := Resolver.ofImports config.marker u.imports
  exact mapM_linear (List.Subset.refl _) (fun c g hc hready => cls_linear r hready hc)
    (fun c g hg => (cls_deals r c g hg).2.1) rfl (start_ready config u)

end Items

end Rewrite

open Rewrite Desugar

/-! ## Runs one after another -/

/-- The unit `u` has become `u'`, with these new names. Each is unlike all names of `u` and unlike
the others. A name of `u'` that `u` does not have is one of them, is spelled twice in `u'`, and
relays a value within one statement list. -/
structure Introduces (u u' : Tree.CompilationUnit) (new : List String) : Prop where
  fresh : ∀ x ∈ new, x ∉ Tree.unitNames u
  nodup : new.Nodup
  only : ∀ x ∈ Tree.unitNames u', x ∉ Tree.unitNames u → x ∈ new
  twice : ∀ x ∈ new, x ∈ Tree.unitNames u' → (Tree.unitNames u').count x = 2
  relayed : ∀ x ∈ new, x ∈ Tree.unitNames u' → ∃ ss ∈ Tree.unitLists u', Relays x ss

/-- The names handed out by a run are new in this sense. -/
theorem run_introduces (config : DesugarConfig) (u : Tree.CompilationUnit) :
    ∃ new, (classes config u).2.temps.reserved = new ++ Tree.identifiers u ∧
      new.length = (classes config u).2.temps.allocated ∧ Introduces u (run config u).2 new := by
  obtain ⟨new, hreserved, hlen, hnodup, hfresh⟩ := classes_handOut config u
  rw [Tree.identifiers_eq] at hfresh
  have hlinear := (run_linear config u).once
  refine ⟨new, hreserved, hlen, hfresh, hnodup, ?_, ?_, ?_⟩
  · intro x hx hnew
    have hmem := (hlinear x hx hnew).2.1
    rw [hreserved, Tree.identifiers_eq] at hmem
    exact (List.mem_append.1 hmem).resolve_right hnew
  · exact fun x hx hmem => (hlinear x hmem (hfresh x hx)).2.2.1
  · exact fun x hx hmem => (hlinear x hmem (hfresh x hx)).2.2.2

/-- Runs of the pass one after another, each of which introduces exactly the names that it hands out
to temporaries, and uses each of them once. -/
def RunsLinearly : List DesugarConfig → Program → Interner → Prop
  | [], _, _ => True
  | config :: configs, p, names =>
    ∃ u s o p' names' u' new, p.read names = .ok u ∧ walk config p names = .ok s ∧
      s.temps.reserved.map s.names.lookup = new ++ Tree.identifiers u ∧
      desugar config p names = .ok (o, p', names') ∧ o.temporaries = new.length ∧
      p'.read names' = .ok u' ∧ Introduces u u' new ∧ RunsLinearly configs p' names'

theorem UnitAt.runsLinearly {p : Program} {names : Interner} {u : Tree.CompilationUnit}
    {fp : List NodeRef} (configs : List DesugarConfig) (h : UnitAt p names.Knows u fp)
    (hnodup : fp.Nodup) : RunsLinearly configs p names := by
  induction configs generalizing p names u fp with
  | nil => exact trivial
  | cons config configs ih =>
    obtain ⟨s, -, hwalk, hmatches, -⟩ := walk_matches config h hnodup
    obtain ⟨o, p', names', fp', hrun, -, ho, hunit', hnodup'⟩ := desugar_eq config h hnodup
    obtain ⟨new, hreserved, hlen, hintroduces⟩ := run_introduces config u
    have htemps : o.temporaries = new.length :=
      (congrArg Outcome.temporaries (ho _ names'.spelledAs_lookup)).trans hlen.symm
    refine ⟨u, s, o, p', names', _, new, h.read_known hnodup, hwalk, ?_, hrun, htemps,
      hunit'.read_known hnodup', hintroduces, ih hunit' hnodup'⟩
    rw [s.names.spelledAs_lookup.map_eq hmatches.temps.reserved, hreserved]

/-- Over a loaded unit, each of any runs one after another introduces names that are spelled nowhere
in the unit before it and differ from each other; in the unit after it each of them that is still
there is spelled twice, as a final local with a value and on the right-hand side of a later
assignment in the same list. -/
theorem runsLinearly_load (configs : List DesugarConfig) (u : Tree.CompilationUnit)
    (names : Interner) (hfits : (Program.load u names).1.store.arms.size ≤ absentRaw) :
    RunsLinearly configs (Program.load u names).1 (Program.load u names).2 := by
  obtain ⟨fp, hunit, hnodup⟩ := Program.load_unitAt u names hfits
  exact hunit.runsLinearly configs hnodup

theorem runsLinearly_load_mixedUnit :
    RunsLinearly [{ stem := "" }, {}] (Program.load mixedUnit {}).1 (Program.load mixedUnit {}).2 :=
  runsLinearly_load [{ stem := "" }, {}] mixedUnit {} (by decide +kernel)

end TupleAssign
