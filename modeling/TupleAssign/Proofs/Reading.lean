import TupleAssign.Proofs.StoredForms
import TupleAssign.Store.Read
/-!
# Stored trees can be read

Reading follows a path of nodes of one sort downwards, and the levels it is given count them. A
tree stored in distinct nodes has no more nodes of a sort than the table, so the levels of
`readType`, `readExpr` and `readStmt` are enough, and what is read is the stored tree.
-/

namespace TupleAssign

/-- How many of the nodes are of a sort. -/
def sortCount (s : NodeSort) (fp : List NodeRef) : Nat := fp.countP (·.sort == s)

section Counting

variable {s : NodeSort}

@[simp]
theorem sortCount_nil : sortCount s [] = 0 := rfl

@[simp]
theorem sortCount_append (f f' : List NodeRef) :
    sortCount s (f ++ f') = sortCount s f + sortCount s f' :=
  List.countP_append

@[simp]
theorem sortCount_cons (n : NodeRef) (f : List NodeRef) :
    sortCount s (n :: f) = sortCount s f + if n.sort = s then 1 else 0 := by
  simp [sortCount, List.countP_cons]

theorem sortCount_le_of_sublist {f f' : List NodeRef} (h : f.Sublist f') :
    sortCount s f ≤ sortCount s f' :=
  h.countP_le

theorem sortCount_lt_cons {f f' : List NodeRef} {n : NodeRef} (hn : n.sort = s)
    (h : f.Sublist f') : sortCount s f < sortCount s (n :: f') := by
  rw [sortCount_cons, if_pos hn]
  exact Nat.lt_succ_of_le (sortCount_le_of_sublist h)

theorem sortCount_pos {f : List NodeRef} {n : NodeRef} (hn : n ∈ f) (hs : n.sort = s) :
    0 < sortCount s f :=
  List.countP_pos_iff.2 ⟨n, hn, by simp [hs]⟩

/-- Distinct nodes of a sort are no more than their table has. -/
theorem sortCount_le_count {st : Store} {fp : List NodeRef} (hnodup : fp.Nodup)
    (hold : ∀ n ∈ fp, st.Old n) : sortCount s fp ≤ st.count s := by
  have hsub : fp.filter (·.sort == s) ⊆ (List.range (st.count s)).map (NodeRef.mk s) := by
    intro n hn
    obtain ⟨hn, hs⟩ := List.mem_filter.1 hn
    have hs : n.sort = s := by simpa using hs
    refine List.mem_map.2 ⟨n.index, List.mem_range.2 (hs ▸ hold n hn), ?_⟩
    rw [← hs]
  have := List.Nodup.length_le_of_subset (hnodup.filter (·.sort == s)) hsub
  simpa [sortCount, List.countP_eq_length_filter] using this

/-- A node of the sort takes one level. -/
theorem exists_level {n : NodeRef} {f : List NodeRef} {levels : Nat} (hn : n.sort = s)
    (h : sortCount s (n :: f) ≤ levels) : ∃ k, levels = k + 1 ∧ sortCount s f ≤ k := by
  rw [sortCount_cons, if_pos hn] at h
  exact ⟨levels - 1, by omega, by omega⟩

end Counting

theorem Along.mapM_eq {α β ε : Type} {R : α → β → List NodeRef → Prop} {g : β → Except ε α}
    {as : List α} {bs : List β} {fp : List NodeRef} (h : Along R as bs fp)
    (hg : ∀ a b f, f.Sublist fp → R a b f → g b = .ok a) : bs.mapM g = .ok as := by
  induction h with
  | nil => rfl
  | cons head _ ih =>
    have h₁ := hg _ _ _ (List.sublist_append_left _ _) head
    have h₂ := ih fun a b f hf => hg a b f (hf.trans (List.sublist_append_right _ _))
    simp [List.mapM_cons, h₁, h₂, bind, Except.bind, pure, Except.pure]

theorem Along.optionMapM_eq {α β ε : Type} {R : α → β → List NodeRef → Prop} {g : β → Except ε α}
    {o : Option α} {o' : Option β} {fp : List NodeRef} (h : Along R o.toList o'.toList fp)
    (hg : ∀ a b f, f.Sublist fp → R a b f → g b = .ok a) : o'.mapM g = .ok o := by
  cases o with
  | none =>
    cases o' with
    | none => rfl
    | some b => cases h
  | some a =>
    cases o' with
    | none => cases h
    | some b =>
      have := hg a b fp (List.Sublist.refl _) (Along.single_iff.1 h)
      simp [Option.mapM_some, this, Functor.map, Except.map]

namespace Store

variable {ν : Type} {st : Store} {spell : Name → ν}

/-! ## Types -/

theorem readTypeTo_eq {levels : Nat} {t : Tree.Ty ν} {id : TypeId} {fp : List NodeRef}
    (h : TyAt st (Spells spell) t id fp) (hlevels : sortCount .type fp ≤ levels) :
    st.readTypeTo spell levels id = .ok t := by
  induction levels generalizing t id fp with
  | zero =>
    have := sortCount_pos h.head_mem (s := .type) rfl
    omega
  | succ levels ih =>
    cases t with
    | primitive p =>
      obtain ⟨hnode, rfl⟩ := tyAt_primitive_iff.1 h
      simp [readTypeTo, type_eq_ok_iff.2 hnode, bind, Except.bind, pure, Except.pure]
    | named s args =>
      obtain ⟨n, slice, ids, f, hnode, rfl, hids, hargs, rfl⟩ := tyAt_named_iff.1 h
      have hf : sortCount .type f ≤ levels := by simpa using hlevels
      have hmap : ids.mapM (st.readTypeTo spell levels) = .ok args :=
        hargs.mapM_eq fun t id f' hf' ht => ih ht (Nat.le_trans (sortCount_le_of_sublist hf') hf)
      simp [readTypeTo, type_eq_ok_iff.2 hnode, hids, hmap, bind, Except.bind, pure, Except.pure]
    | array t =>
      obtain ⟨e, f, hnode, ht, rfl⟩ := tyAt_array_iff.1 h
      have hf : sortCount .type f ≤ levels := by simpa using hlevels
      simp [readTypeTo, type_eq_ok_iff.2 hnode, ih ht hf, bind, Except.bind, pure, Except.pure]

theorem readType_eq {t : Tree.Ty ν} {id : TypeId} {fp : List NodeRef}
    (h : TyAt st (Spells spell) t id fp) (hnodup : fp.Nodup) : st.readType spell id = .ok t :=
  readTypeTo_eq h (Nat.le_trans (sortCount_le_count hnodup h.old) (Nat.le_succ _))

/-! ## Expressions -/

theorem readExprTo_eq {levels : Nat} {e : Tree.Expr ν} {id : ExprId} {fp : List NodeRef}
    (h : ExprAt st (Spells spell) e id fp) (hnodup : fp.Nodup)
    (hlevels : sortCount .expr fp ≤ levels) : st.readExprTo spell levels id = .ok e := by
  induction levels generalizing e id fp with
  | zero =>
    have := sortCount_pos h.head_mem (s := .expr) rfl
    omega
  | succ levels ih =>
    obtain ⟨⟨kind, span⟩, ids, ft, fo, hnode, head, hids, ht, ho, rfl⟩ := exprAt_iff.1 h
    have hft : ft.Nodup := (List.nodup_append.1 (List.nodup_cons.1 hnodup).2).1
    have hfo : fo.Nodup := (List.nodup_append.1 (List.nodup_cons.1 hnodup).2).2.1
    have hle : sortCount .expr fo ≤ levels := by simp at hlevels; omega
    have hsub : ∀ (e : Tree.Expr ν) (id : ExprId) (f : List NodeRef), f.Sublist fo →
        ExprAt st (Spells spell) e id f → st.readExprTo spell levels id = .ok e :=
      fun e id f hf he => ih he (hf.nodup hfo) (Nat.le_trans (sortCount_le_of_sublist hf) hle)
    have hread := expr_eq_ok_iff.2 hnode
    cases head with
    | call span slice args hr hsp =>
      simp only [operands, bind_eq_ok_iff, ok_pure_iff] at hids
      obtain ⟨as, has, rfl⟩ := hids
      obtain ⟨fr, fa, rfl, hr, ha⟩ :=
        (Along.append_iff (by simp [Option.length_toList, hr])).1 ho
      have h₁ := hr.optionMapM_eq (g := st.readExprTo spell levels)
        fun e id f hf he => hsub e id f (hf.trans (List.sublist_append_left _ _)) he
      have h₂ := ha.mapM_eq (g := st.readExprTo spell levels)
        fun e id f hf he => hsub e id f (hf.trans (List.sublist_append_right _ _)) he
      cases hsp
      simp [readExprTo, hread, h₁, h₂, has, bind, Except.bind, pure, Except.pure]
    | create span t t' slice args =>
      have h₁ := readType_eq ((Along.single_iff (R := TyAt st (Spells spell))).1 ht) hft
      have h₂ : ids.mapM (st.readExprTo spell levels) = .ok args := ho.mapM_eq hsub
      simp only [operands] at hids
      simp [readExprTo, hread, h₁, h₂, hids, bind, Except.bind, pure, Except.pure]
    | int | bool | null | self =>
      simp [readExprTo, hread, bind, Except.bind, pure, Except.pure]
    | str span hsp | ident span hsp =>
      cases hsp
      simp [readExprTo, hread, bind, Except.bind, pure, Except.pure]
    | field span r r' hsp =>
      simp only [operands, ok_pure_iff] at hids
      subst hids
      have h₁ := hsub _ _ _ (List.Sublist.refl _)
        ((Along.single_iff (R := ExprAt st (Spells spell))).1 ho)
      cases hsp
      simp [readExprTo, hread, h₁, bind, Except.bind, pure, Except.pure]
    | unary span op o o' =>
      simp only [operands, ok_pure_iff] at hids
      subst hids
      have h₁ := hsub _ _ _ (List.Sublist.refl _)
        ((Along.single_iff (R := ExprAt st (Spells spell))).1 ho)
      simp [readExprTo, hread, h₁, bind, Except.bind, pure, Except.pure]
    | index span r i r' i' | binary span op r i r' i' | assign span r i r' i' =>
      simp only [operands, ok_pure_iff] at hids
      subst hids
      obtain ⟨f₁, f₂, rfl, ho₁, ho₂⟩ := Along.cons_cons_iff.1 ho
      have h₁ := hsub _ _ _ (List.sublist_append_left _ _) ho₁
      have h₂ := hsub _ _ _ (List.sublist_append_right _ _)
        ((Along.single_iff (R := ExprAt st (Spells spell))).1 ho₂)
      simp [readExprTo, hread, h₁, h₂, bind, Except.bind, pure, Except.pure]
    | conditional span c t e c' t' e' =>
      simp only [operands, ok_pure_iff] at hids
      subst hids
      obtain ⟨f₁, f₂₃, rfl, ho₁, ho₂₃⟩ := Along.cons_cons_iff.1 ho
      obtain ⟨f₂, f₃, rfl, ho₂, ho₃⟩ := Along.cons_cons_iff.1 ho₂₃
      have h₁ := hsub _ _ _ (List.sublist_append_left _ _) ho₁
      have h₂ := hsub _ _ f₂ (by simp) ho₂
      have h₃ := hsub _ _ f₃ (by simp) ((Along.single_iff (R := ExprAt st (Spells spell))).1 ho₃)
      simp [readExprTo, hread, h₁, h₂, h₃, bind, Except.bind, pure, Except.pure]

theorem readExpr_eq {e : Tree.Expr ν} {id : ExprId} {fp : List NodeRef}
    (h : ExprAt st (Spells spell) e id fp) (hnodup : fp.Nodup) : st.readExpr spell id = .ok e :=
  readExprTo_eq h hnodup (Nat.le_trans (sortCount_le_count hnodup h.old) (Nat.le_succ _))

/-! ## Statements -/

theorem readStmtTo_eq {levels : Nat} {s : Tree.Stmt ν} {id : StmtId} {fp : List NodeRef}
    (h : StmtAt st (Spells spell) s id fp) (hnodup : fp.Nodup)
    (hlevels : sortCount .stmt fp ≤ levels) : st.readStmtTo spell levels id = .ok s := by
  induction levels generalizing s id fp with
  | zero =>
    have := sortCount_pos h.head_mem (s := .stmt) rfl
    omega
  | succ levels ih =>
    have hexpr : ∀ (e : Tree.Expr ν) (id : ExprId) (f : List NodeRef), f.Sublist fp →
        ExprAt st (Spells spell) e id f → st.readExpr spell id = .ok e :=
      fun e id f hf he => readExpr_eq he (hf.nodup hnodup)
    have hstmt : ∀ (s : Tree.Stmt ν) (id : StmtId) (f : List NodeRef), f.Sublist fp →
        sortCount .stmt f < sortCount .stmt fp → StmtAt st (Spells spell) s id f →
        st.readStmtTo spell levels id = .ok s :=
      fun s id f hf hlt hs => ih hs (hf.nodup hnodup) (by omega)
    cases s with
    | expr span e =>
      obtain ⟨e', f, hnode, he, rfl⟩ := stmtAt_expr_iff.1 h
      have h₁ := hexpr e e' f (by simp) he
      simp [readStmtTo, stmt_eq_ok_iff.2 hnode, h₁, bind, Except.bind, pure, Except.pure]
    | localVar span t s init isFinal =>
      obtain ⟨t', n, init', ft, fi, hnode, rfl, ht, hi, rfl⟩ := stmtAt_localVar_iff.1 h
      have hft : ft.Nodup := (List.nodup_append.1 (List.nodup_cons.1 hnodup).2).1
      have h₁ := readType_eq ht hft
      have h₂ := hi.optionMapM_eq (g := st.readExpr spell)
        fun e id f hf he => hexpr e id f (hf.trans (by simp)) he
      simp [readStmtTo, stmt_eq_ok_iff.2 hnode, h₁, h₂, bind, Except.bind, pure, Except.pure]
    | block span ss =>
      obtain ⟨b, ids, f, hnode, hids, hss, rfl⟩ := stmtAt_block_iff.1 h
      have h₁ := hss.mapM_eq (g := st.readStmtTo spell levels) fun s id f' hf hs =>
        hstmt s id f' (hf.trans (by simp)) (sortCount_lt_cons rfl hf) hs
      simp [readStmtTo, stmt_eq_ok_iff.2 hnode, hids, h₁, bind, Except.bind, pure, Except.pure]
    | ifElse span c t e =>
      obtain ⟨c', t', e', fc, ft, fe, hnode, hc, ht, he, rfl⟩ := stmtAt_ifElse_iff.1 h
      have h₁ := hexpr c c' fc (by simp) hc
      have hft : ft.Sublist (fc ++ (ft ++ fe)) :=
        (List.sublist_append_left _ _).trans (List.sublist_append_right _ _)
      have hfe : fe.Sublist (fc ++ (ft ++ fe)) :=
        (List.sublist_append_right _ _).trans (List.sublist_append_right _ _)
      have h₂ := hstmt t t' ft (hft.cons _) (sortCount_lt_cons rfl hft) ht
      have h₃ := he.optionMapM_eq (g := st.readStmtTo spell levels) fun s id f hf hs =>
        hstmt s id f ((hf.trans hfe).cons _) (sortCount_lt_cons rfl (hf.trans hfe)) hs
      simp [readStmtTo, stmt_eq_ok_iff.2 hnode, h₁, h₂, h₃, bind, Except.bind, pure, Except.pure]
    | whileLoop span c b =>
      obtain ⟨c', b', fc, fb, hnode, hc, hb, rfl⟩ := stmtAt_whileLoop_iff.1 h
      have h₁ := hexpr c c' fc (by simp) hc
      have h₂ := hstmt b b' fb (by simp) (sortCount_lt_cons rfl (List.sublist_append_right _ _)) hb
      simp [readStmtTo, stmt_eq_ok_iff.2 hnode, h₁, h₂, bind, Except.bind, pure, Except.pure]
    | switch span sel arms =>
      obtain ⟨sel', slice, ids, fs, fa, hnode, hids, hs, ha, rfl⟩ := stmtAt_switch_iff.1 h
      have h₁ := hexpr sel sel' fs (by simp) hs
      have h₂ : (ids.mapM fun id => do
          let a ← st.arm id
          let label ← a.label.mapM (st.readExpr spell)
          let ids ← st.stmtList a.stmts
          return Tree.Arm.mk label (← ids.mapM (st.readStmtTo spell levels))) = .ok arms := by
        refine ha.mapM_eq fun a id f hf ha => ?_
        obtain ⟨label, ss⟩ := a
        obtain ⟨a, ids, fl, fs', harm, hids, hl, hss, rfl⟩ := armAt_iff.1 ha
        have hfl : fl.Sublist (fs ++ fa) :=
          (((List.sublist_append_left _ _).cons _).trans hf).trans (List.sublist_append_right _ _)
        have hfs : fs'.Sublist (fs ++ fa) :=
          (((List.sublist_append_right _ _).cons _).trans hf).trans (List.sublist_append_right _ _)
        have h₁ := hl.optionMapM_eq (g := st.readExpr spell) fun e id f hf' he =>
          hexpr e id f ((hf'.trans hfl).cons _) he
        have h₂ := hss.mapM_eq (g := st.readStmtTo spell levels) fun s id f hf' hs =>
          hstmt s id f ((hf'.trans hfs).cons _) (sortCount_lt_cons rfl (hf'.trans hfs)) hs
        simp [arm_eq_ok_iff.2 harm, hids, h₁, h₂, bind, Except.bind, pure, Except.pure]
      simp only [readStmtTo, stmt_eq_ok_iff.2 hnode, hids, h₁, bind, Except.bind, pure,
        Except.pure] at h₂ ⊢
      rw [h₂]
    | returnWith span v =>
      obtain ⟨v', f, hnode, hv, rfl⟩ := stmtAt_returnWith_iff.1 h
      have h₁ := hv.optionMapM_eq (g := st.readExpr spell)
        fun e id f hf he => hexpr e id f (hf.trans (by simp)) he
      simp [readStmtTo, stmt_eq_ok_iff.2 hnode, h₁, bind, Except.bind, pure, Except.pure]
    | breakOut span =>
      obtain ⟨hnode, -⟩ := (stmtAt_leaf_iff .breakOut (by simp [Tree.Stmt.span])).1 h
      simp [readStmtTo, stmt_eq_ok_iff.2 hnode, bind, Except.bind, pure, Except.pure, Tree.Stmt.span]
    | continueOn span =>
      obtain ⟨hnode, -⟩ := (stmtAt_leaf_iff .continueOn (by simp [Tree.Stmt.span])).1 h
      simp [readStmtTo, stmt_eq_ok_iff.2 hnode, bind, Except.bind, pure, Except.pure, Tree.Stmt.span]
    | empty span =>
      obtain ⟨hnode, -⟩ := (stmtAt_leaf_iff .empty (by simp [Tree.Stmt.span])).1 h
      simp [readStmtTo, stmt_eq_ok_iff.2 hnode, bind, Except.bind, pure, Except.pure, Tree.Stmt.span]

theorem readStmt_eq {s : Tree.Stmt ν} {id : StmtId} {fp : List NodeRef}
    (h : StmtAt st (Spells spell) s id fp) (hnodup : fp.Nodup) : st.readStmt spell id = .ok s :=
  readStmtTo_eq h hnodup (Nat.le_trans (sortCount_le_count hnodup h.old) (Nat.le_succ _))

end Store

end TupleAssign
