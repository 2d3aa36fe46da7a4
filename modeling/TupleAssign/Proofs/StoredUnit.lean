import TupleAssign.Proofs.Reading
/-!
# Stored units

The items of a unit refer to the store for their types, initializers and bodies. `UnitAt p sp u fp`
says that the unit of the program `p` stands for the tree `u`, with all its nodes listed in `fp`.
A unit whose nodes are distinct can be read (`UnitAt.read_eq`).
-/

namespace TupleAssign

section Items

variable {ν : Type} (st : Store) (sp : Spelling ν)

/-- An import refers to no node. -/
def ImportAt (i : Tree.Import ν) (i' : Node.Import) (fp : List NodeRef) : Prop :=
  sp i'.path i.path ∧ i'.isStatic = i.isStatic ∧ i'.onDemand = i.onDemand ∧ i'.span = i.span ∧
    fp = []

def ParamAt (p : Tree.Param ν) (p' : Node.Param) (fp : List NodeRef) : Prop :=
  sp p'.name p.name ∧ p'.span = p.span ∧ TyAt st sp p.type p'.type fp

def BodyAt (b : Tree.Body ν) (b' : Node.Block) (fp : List NodeRef) : Prop :=
  b'.span = b.span ∧
    ∃ ids, st.stmtList b'.stmts = .ok ids ∧ Along (StmtAt st sp) b.stmts ids fp

inductive MemberAt : Tree.Member ν → Node.Member → List NodeRef → Prop
  | field {f : Tree.Field ν} {f' : Node.Field} {ft fi : List NodeRef} (name : sp f'.name f.name)
      (isStatic : f'.isStatic = f.isStatic) (span : f'.span = f.span)
      (type : TyAt st sp f.type f'.type ft)
      (init : Along (ExprAt st sp) f.init.toList f'.init.toList fi) :
    MemberAt (.field f) (.field f') (ft ++ fi)
  | method {d : Tree.Method ν} {d' : Node.Method} {fr fps fb : List NodeRef}
      (name : sp d'.name d.name) (isStatic : d'.isStatic = d.isStatic) (span : d'.span = d.span)
      (result : Along (TyAt st sp) d.result.toList d'.result.toList fr)
      (params : Along (ParamAt st sp) d.params d'.params fps)
      (body : Along (BodyAt st sp) d.body.toList d'.body.toList fb) :
    MemberAt (.method d) (.method d') (fr ++ (fps ++ fb))
  | initializer {i : Tree.Initializer ν} {i' : Node.Initializer} {fb : List NodeRef}
      (isStatic : i'.isStatic = i.isStatic) (span : i'.span = i.span)
      (body : BodyAt st sp i.body i'.body fb) :
    MemberAt (.initializer i) (.initializer i') fb

def ClassAt (c : Tree.Class ν) (c' : Node.Class) (fp : List NodeRef) : Prop :=
  sp c'.name c.name ∧ c'.span = c.span ∧ Along (MemberAt st sp) c.members c'.members fp

end Items

def UnitAt {ν : Type} (p : Program) (sp : Spelling ν) (u : Tree.CompilationUnit ν)
    (fp : List NodeRef) : Prop :=
  sp p.unit.package u.package ∧ p.unit.span = u.span ∧
    Along (ImportAt sp) u.imports p.unit.imports [] ∧
    Along (ClassAt p.store sp) u.classes p.unit.classes fp

/-! ## Reading -/

section Read

open Store

variable {ν : Type} {st : Store} {spell : Name → ν}

theorem ParamAt.traverse_eq {p : Tree.Param ν} {p' : Node.Param} {fp : List NodeRef}
    (h : ParamAt st (Spells spell) p p' fp) (hnodup : fp.Nodup) :
    Param.traverse (fun n => .ok (spell n)) (st.readType spell) p' =
      (.ok p : Except Fault (Tree.Param ν)) := by
  obtain ⟨hname, hspan, htype⟩ := h
  simp [Param.traverse, readType_eq htype hnodup, hname, hspan, bind, Except.bind, pure,
    Except.pure]

theorem BodyAt.readBody_eq {b : Tree.Body ν} {b' : Node.Block} {fp : List NodeRef}
    (h : BodyAt st (Spells spell) b b' fp) (hnodup : fp.Nodup) :
    st.readBody spell b' = .ok b := by
  obtain ⟨hspan, ids, hids, hstmts⟩ := h
  have hmap := hstmts.mapM_eq (g := st.readStmt spell)
    fun s id f hf hs => readStmt_eq hs (hf.nodup hnodup)
  simp [readBody, readStmts, hids, hmap, hspan, bind, Except.bind, pure, Except.pure]

theorem MemberAt.traverse_eq {m : Tree.Member ν} {m' : Node.Member} {fp : List NodeRef}
    (h : MemberAt st (Spells spell) m m' fp) (hnodup : fp.Nodup) :
    Member.traverse (fun n => .ok (spell n)) (st.readType spell) (st.readExpr spell)
      (st.readBody spell) m' = (.ok m : Except Fault (Tree.Member ν)) := by
  cases h with
  | field name isStatic span type init =>
    obtain ⟨hft, hfi, -⟩ := List.nodup_append.1 hnodup
    have h₁ := readType_eq type hft
    have h₂ := init.optionMapM_eq (g := st.readExpr spell)
      fun e id f hf he => readExpr_eq he (hf.nodup hfi)
    simp [Member.traverse, Field.traverse, h₁, h₂, name, isStatic, span, bind, Except.bind, pure,
      Except.pure]
  | method name isStatic span result params body =>
    obtain ⟨hfr, hfpb, -⟩ := List.nodup_append.1 hnodup
    obtain ⟨hfp, hfb, -⟩ := List.nodup_append.1 hfpb
    have h₁ := result.optionMapM_eq (g := st.readType spell)
      fun t id f hf ht => readType_eq ht (hf.nodup hfr)
    have h₂ := params.mapM_eq fun p p' f hf hp => hp.traverse_eq (hf.nodup hfp)
    have h₃ := body.optionMapM_eq (g := st.readBody spell)
      fun b b' f hf hb => hb.readBody_eq (hf.nodup hfb)
    simp [Member.traverse, Method.traverse, h₁, h₂, h₃, name, isStatic, span, bind, Except.bind,
      pure, Except.pure]
  | initializer isStatic span body =>
    simp [Member.traverse, Initializer.traverse, body.readBody_eq hnodup, isStatic, span, bind,
      Except.bind, pure, Except.pure]

theorem ClassAt.traverse_eq {c : Tree.Class ν} {c' : Node.Class} {fp : List NodeRef}
    (h : ClassAt st (Spells spell) c c' fp) (hnodup : fp.Nodup) :
    Class.traverse (fun n => .ok (spell n)) (st.readType spell) (st.readExpr spell)
      (st.readBody spell) c' = (.ok c : Except Fault (Tree.Class ν)) := by
  obtain ⟨hname, hspan, hmembers⟩ := h
  have hmap := hmembers.mapM_eq fun m m' f hf hm => hm.traverse_eq (hf.nodup hnodup)
  simp [Class.traverse, hmap, hname, hspan, bind, Except.bind, pure, Except.pure]

theorem ImportAt.traverse_eq {i : Tree.Import ν} {i' : Node.Import} {fp : List NodeRef}
    (h : ImportAt (Spells spell) i i' fp) :
    Import.traverse (fun n => .ok (spell n)) i' = (.ok i : Except Fault (Tree.Import ν)) := by
  obtain ⟨hpath, hstatic, honDemand, hspan, -⟩ := h
  simp [Import.traverse, hpath, hstatic, honDemand, hspan, bind, Except.bind, pure, Except.pure]

theorem UnitAt.traverse_eq {p : Program} {u : Tree.CompilationUnit ν} {fp : List NodeRef}
    (h : UnitAt p (Spells spell) u fp) (hnodup : fp.Nodup) :
    CompilationUnit.traverse (fun n => .ok (spell n)) (p.store.readType spell)
      (p.store.readExpr spell) (p.store.readBody spell) p.unit =
        (.ok u : Except Fault (Tree.CompilationUnit ν)) := by
  obtain ⟨hpackage, hspan, himports, hclasses⟩ := h
  have h₁ := himports.mapM_eq fun i i' f _ hi => hi.traverse_eq
  have h₂ := hclasses.mapM_eq fun c c' f hf hc => hc.traverse_eq (hf.nodup hnodup)
  simp [CompilationUnit.traverse, h₁, h₂, hpackage, hspan, bind, Except.bind, pure, Except.pure]

/-- A unit stored in distinct nodes is read back as it is. -/
theorem UnitAt.read_eq {p : Program} {names : Interner} {u : Tree.CompilationUnit}
    {fp : List NodeRef} (h : UnitAt p names.Reads u fp) (hnodup : fp.Nodup) :
    p.read names = .ok u :=
  h.traverse_eq hnodup

end Read

/-! ## Items in a larger store -/

section Grow

open Store

variable {ν : Type} {st st' : Store} {sp sp' : Spelling ν} {T : NodeRef → Prop}

theorem ImportAt.imp (hsp : ∀ n s, sp n s → sp' n s) {i : Tree.Import ν} {i' : Node.Import}
    {fp : List NodeRef} (h : ImportAt sp i i' fp) : ImportAt sp' i i' fp :=
  ⟨hsp _ _ h.1, h.2⟩

theorem ParamAt.grow (hg : st.Grows st' T) (hsp : ∀ n s, sp n s → sp' n s) {p : Tree.Param ν}
    {p' : Node.Param} {fp : List NodeRef} (h : ParamAt st sp p p' fp)
    (hfp : ∀ n ∈ fp, Spared T n) : ParamAt st' sp' p p' fp :=
  ⟨hsp _ _ h.1, h.2.1, h.2.2.grow hg hsp hfp⟩

theorem BodyAt.grow (hg : st.Grows st' T) (hsp : ∀ n s, sp n s → sp' n s) {b : Tree.Body ν}
    {b' : Node.Block} {fp : List NodeRef} (h : BodyAt st sp b b' fp)
    (hfp : ∀ n ∈ fp, Spared T n) : BodyAt st' sp' b b' fp := by
  obtain ⟨hspan, ids, hids, hstmts⟩ := h
  refine ⟨hspan, ids, hg.stmtList_eq hids, hstmts.imp ?_⟩
  exact fun _ _ _ f hf hs => hs.grow hg hsp (fun n hn => hfp n (hf.subset hn))

theorem MemberAt.grow (hg : st.Grows st' T) (hsp : ∀ n s, sp n s → sp' n s) {m : Tree.Member ν}
    {m' : Node.Member} {fp : List NodeRef} (h : MemberAt st sp m m' fp)
    (hfp : ∀ n ∈ fp, Spared T n) : MemberAt st' sp' m m' fp := by
  cases h with
  | field name isStatic span type init =>
    refine .field (hsp _ _ name) isStatic span (type.grow hg hsp ?_) (init.imp ?_)
    · exact fun n hn => hfp n (by simp [hn])
    · exact fun _ _ _ f hf he => he.grow hg hsp (fun n hn => hfp n (by simp [hf.subset hn]))
  | method name isStatic span result params body =>
    refine .method (hsp _ _ name) isStatic span (result.imp ?_) (params.imp ?_) (body.imp ?_)
    · exact fun _ _ _ f hf ht => ht.grow hg hsp (fun n hn => hfp n (by simp [hf.subset hn]))
    · exact fun _ _ _ f hf hp => hp.grow hg hsp (fun n hn => hfp n (by simp [hf.subset hn]))
    · exact fun _ _ _ f hf hb => hb.grow hg hsp (fun n hn => hfp n (by simp [hf.subset hn]))
  | initializer isStatic span body => exact .initializer isStatic span (body.grow hg hsp hfp)

theorem ClassAt.grow (hg : st.Grows st' T) (hsp : ∀ n s, sp n s → sp' n s) {c : Tree.Class ν}
    {c' : Node.Class} {fp : List NodeRef} (h : ClassAt st sp c c' fp)
    (hfp : ∀ n ∈ fp, Spared T n) : ClassAt st' sp' c c' fp :=
  ⟨hsp _ _ h.1, h.2.1, h.2.2.imp fun _ _ _ _ hf hm =>
    hm.grow hg hsp (fun n hn => hfp n (hf.subset hn))⟩

theorem UnitAt.imp {p : Program} {u : Tree.CompilationUnit ν} {fp : List NodeRef}
    (hsp : ∀ n s, sp n s → sp' n s) (h : UnitAt p sp u fp) : UnitAt p sp' u fp := by
  obtain ⟨hpackage, hspan, himports, hclasses⟩ := h
  refine ⟨hsp _ _ hpackage, hspan, himports.imp fun _ _ _ _ _ hi => hi.imp hsp, hclasses.imp ?_⟩
  exact fun _ _ _ _ _ hc => hc.grow (Grows.refl p.store nothing) hsp (fun _ _ hn => hn.elim)

end Grow

/-! ## Nodes of items -/

section Old

variable {ν : Type} {st : Store} {sp : Spelling ν}

theorem BodyAt.old {b : Tree.Body ν} {b' : Node.Block} {fp : List NodeRef}
    (h : BodyAt st sp b b' fp) : ∀ n ∈ fp, st.Old n := by
  obtain ⟨-, ids, -, hstmts⟩ := h
  intro n hn
  obtain ⟨_, _, _, _, f, hR, hf⟩ := hstmts.exists_of_mem hn
  exact hR.old n hf

theorem MemberAt.old {m : Tree.Member ν} {m' : Node.Member} {fp : List NodeRef}
    (h : MemberAt st sp m m' fp) : ∀ n ∈ fp, st.Old n := by
  intro n hn
  cases h with
  | field _ _ _ type init =>
    rcases List.mem_append.1 hn with hn | hn
    · exact type.old n hn
    · obtain ⟨_, _, _, _, f, hR, hf⟩ := init.exists_of_mem hn
      exact hR.old n hf
  | method _ _ _ result params body =>
    rcases List.mem_append.1 hn with hn | hn
    · obtain ⟨_, _, _, _, f, hR, hf⟩ := result.exists_of_mem hn
      exact hR.old n hf
    · rcases List.mem_append.1 hn with hn | hn
      · obtain ⟨_, _, _, _, f, hR, hf⟩ := params.exists_of_mem hn
        exact hR.2.2.old n hf
      · obtain ⟨_, _, _, _, f, hR, hf⟩ := body.exists_of_mem hn
        exact hR.old n hf
  | initializer _ _ body => exact body.old n hn

theorem ClassAt.old {c : Tree.Class ν} {c' : Node.Class} {fp : List NodeRef}
    (h : ClassAt st sp c c' fp) : ∀ n ∈ fp, st.Old n := by
  intro n hn
  obtain ⟨_, _, _, _, f, hR, hf⟩ := h.2.2.exists_of_mem hn
  exact hR.old n hf

theorem UnitAt.old {p : Program} {u : Tree.CompilationUnit ν} {fp : List NodeRef}
    (h : UnitAt p sp u fp) : ∀ n ∈ fp, p.store.Old n := by
  intro n hn
  obtain ⟨_, _, _, _, f, hR, hf⟩ := h.2.2.2.exists_of_mem hn
  exact hR.old n hf

end Old

end TupleAssign
