import TupleAssign.Proofs.Building
import TupleAssign.Proofs.Naming
import TupleAssign.Proofs.StoredUnit
import TupleAssign.Store.Load
/-!
# Loaded units

Loading a tree enters a copy of it in nodes of its own, with all names interned. So a loaded unit is
a stored one in distinct nodes (`Program.load_unitAt`). The only thing that can go wrong is a table
of arms too long for its ids.
-/

namespace TupleAssign

open Store

/-- The statement list of a block statement has the span of the statement. -/
def Store.BlocksSpanned (st : Store) : Prop :=
  ∀ (i : Nat) (b : Node.Block) (span : Span), st.stmts[i]? = some ⟨.block b, span⟩ → b.span = span

theorem Store.BlocksSpanned.allocStmt {st : Store} (h : st.BlocksSpanned) {node : Node.Stmt}
    (hnode : ∀ b, node.kind = .block b → b.span = node.span) :
    (Store.allocStmt node st).2.BlocksSpanned := by
  intro i b span hi
  have hi : (st.stmts.push node)[i]? = some ⟨.block b, span⟩ := hi
  rw [Array.getElem?_push] at hi
  split at hi
  · obtain rfl := Option.some.inj hi
    exact hnode b rfl
  · exact h i b span hi

namespace Load

/-- The action only adds to the workspace, and its result is as `R` says in the nodes added, unless
there are too many arms. Blocks have the spans of their statements. -/
def Enters {α : Type} (m : Load α) (R : Store → Spelling → α → List NodeRef → Prop) : Prop :=
  ∀ w : Workspace, ∃ fp, w.store.Adds (m w).2.store fp ∧
    (∀ n s, w.names.Knows n s → (m w).2.names.Knows n s) ∧
    (w.store.BlocksSpanned → (m w).2.store.BlocksSpanned) ∧
    ((m w).2.store.arms.size ≤ absentRaw →
      ∃ f, f.Perm fp ∧ R (m w).2.store (m w).2.names.Knows (m w).1 f)

/-- What holds in a store still holds when more has been added. -/
def Stable {α : Type} (R : Store → Spelling → α → List NodeRef → Prop) : Prop :=
  ∀ {st st' : Store} {sp sp' : Spelling} {a : α} {f : List NodeRef}, st.Grows st' nothing →
    (∀ n s, sp n s → sp' n s) → R st sp a f → R st' sp' a f

section Rules

variable {α β : Type} {R R' : Store → Spelling → α → List NodeRef → Prop}

theorem Enters.pure {a : α} (h : ∀ st sp, R st sp a []) : Enters (Pure.pure a) R :=
  fun w => ⟨[], .refl w.store, fun _ _ hn => hn, id, fun _ => ⟨[], .refl _, h _ _⟩⟩

theorem Enters.imp {m : Load α} (h : Enters m R)
    (himp : ∀ st sp a f, R st sp a f → ∃ f', f'.Perm f ∧ R' st sp a f') : Enters m R' := by
  intro w
  obtain ⟨fp, hadds, hnames, hspans, hR⟩ := h w
  refine ⟨fp, hadds, hnames, hspans, fun hfits => ?_⟩
  obtain ⟨f, hf, hR⟩ := hR hfits
  obtain ⟨f', hf', hR'⟩ := himp _ _ _ f hR
  exact ⟨f', hf'.trans hf, hR'⟩

theorem Enters.bind {m : Load α} {k : α → Load β} {Q : α → Store → Spelling → β → List NodeRef → Prop}
    (h : Enters m R) (hR : Stable R) (hk : ∀ a, Enters (k a) (Q a)) :
    Enters (m >>= k) fun st sp b f => ∃ a f₁ f₂, f = f₁ ++ f₂ ∧ R st sp a f₁ ∧ Q a st sp b f₂ := by
  intro w
  obtain ⟨fp₁, hadds₁, hnames₁, hspans₁, h₁⟩ := h w
  obtain ⟨fp₂, hadds₂, hnames₂, hspans₂, h₂⟩ := hk (m w).1 (m w).2
  refine ⟨fp₁ ++ fp₂, hadds₁.trans hadds₂, fun n s hn => hnames₂ n s (hnames₁ n s hn),
    hspans₂ ∘ hspans₁, ?_⟩
  intro hfits
  obtain ⟨f₂, hf₂, hQ⟩ := h₂ hfits
  obtain ⟨f₁, hf₁, hR₁⟩ := h₁ (Nat.le_trans hadds₂.grows.arms_size hfits)
  exact ⟨f₁ ++ f₂, hf₁.append hf₂, (m w).1, f₁, f₂, rfl, hR hadds₂.grows hnames₂ hR₁, hQ⟩

theorem name_enters (s : String) : Enters (name s) fun _ sp n f => sp n s ∧ f = [] :=
  fun w => ⟨[], .refl w.store, fun _ _ hn => hn.intern s, id,
    fun _ => ⟨[], .refl _, w.names.knows_intern s, rfl⟩⟩

theorem name_stable (s : String) :
    Stable fun (_ : Store) (sp : Spelling) n f => sp n s ∧ f = [] :=
  fun _ hsp h => ⟨hsp _ _ h.1, h.2⟩

/-- Loads the entries of a list one after the other. -/
theorem Enters.mapM {γ : Type} {f : γ → Load α} {Q : Store → Spelling → γ → α → List NodeRef → Prop}
    (h : ∀ c, Enters (f c) fun st sp => Q st sp c) (hQ : ∀ c, Stable fun st sp => Q st sp c)
    (cs : List γ) : Enters (cs.mapM f) fun st sp as fp => Along (Q st sp) cs as fp := by
  induction cs with
  | nil => exact .pure fun _ _ => .nil
  | cons c cs ih =>
    rw [List.mapM_cons]
    refine ((h c).bind (hQ c) fun a => ih.bind ?_ fun as =>
      Enters.pure (R := fun _ _ as' f => as' = a :: as ∧ f = []) fun _ _ => ⟨rfl, rfl⟩).imp ?_
    · exact fun hg hsp has => has.imp fun _ _ _ _ _ hc => hQ _ hg hsp hc
    · rintro st sp _ _ ⟨a, f₁, _, rfl, ha, as, f₂, _, rfl, has, rfl, rfl⟩
      exact ⟨f₁ ++ f₂, by simp, .cons ha has⟩

/-- Loads an entry that may be absent. -/
theorem Enters.optionMapM {γ : Type} {f : γ → Load α}
    {Q : Store → Spelling → γ → α → List NodeRef → Prop}
    (h : ∀ c, Enters (f c) fun st sp => Q st sp c)
    (hQ : ∀ c, Stable fun st sp => Q st sp c) (o : Option γ) :
    Enters (o.mapM f) fun st sp a fp => Along (Q st sp) o.toList a.toList fp := by
  cases o with
  | none => exact .pure fun _ _ => .nil
  | some c =>
    refine ((h c).bind (hQ c) fun a =>
      Enters.pure (R := fun _ _ o f => o = some a ∧ f = []) fun _ _ => ⟨rfl, rfl⟩).imp ?_
    rintro st sp _ _ ⟨a, f₁, _, rfl, ha, rfl, rfl⟩
    exact ⟨f₁, by simp, .single ha⟩

end Rules

/-! ## Types and expressions -/

theorem stored_stable {s : NodeSort} (t : Tree.Any) :
    Stable fun st sp (id : NodeId s) f => Stored st sp t id.ref f :=
  fun hg hsp h => h.grow hg hsp fun _ _ hn => hn.elim

theorem along_stable {α : Type} {s : NodeSort} (wrap : α → Tree.Any) (as : List α) :
    Stable fun st sp (ids : List (NodeId s)) f =>
      Along (fun a (i : NodeId s) => Stored st sp (wrap a) i.ref) as ids f :=
  fun hg hsp h => h.imp fun _ _ _ _ _ hs => stored_stable _ hg hsp hs

theorem allocType_enters (t : Node.Ty) :
    Enters (build (allocType t)) fun st _ id f => st.types[id.index]? = some t ∧ f = [id.ref] :=
  fun w => ⟨_, allocType_adds w.store t, fun _ _ hn => hn, id,
    fun _ => ⟨_, .refl _, types_allocType w.store t, rfl⟩⟩

theorem namedType_enters (n : Name) (ids : List TypeId) :
    Enters (build (Build.namedType n ids)) fun st _ id f => ∃ slice,
      st.types[id.index]? = some (.named n slice) ∧ st.typeList slice = .ok ids ∧ f = [id.ref] := by
  intro w
  have hlist := allocTypeList_adds w.store ids
  have htype := allocType_adds (allocTypeList ids w.store).2 (.named n (allocTypeList ids w.store).1)
  refine ⟨_, hlist.trans htype, fun _ _ hn => hn, id,
    fun _ => ⟨_, .refl _, _, types_allocType _ _, ?_, rfl⟩⟩
  exact htype.grows.typeList_eq (typeList_allocTypeList w.store ids)

mutual

theorem ty_enters : ∀ t, Enters (ty t) fun st sp id f => TyAt st sp t id f
  | .primitive p => by
    unfold ty
    refine (allocType_enters _).imp ?_
    rintro st sp id _ ⟨hnode, rfl⟩
    exact ⟨_, .refl _, tyAt_primitive_iff.2 ⟨hnode, rfl⟩⟩
  | .named n args => by
    unfold ty
    refine ((name_enters n).bind (name_stable n) fun n' =>
      (tys_enters args).bind (along_stable .ty args) fun ids => namedType_enters n' ids).imp ?_
    rintro st sp id _ ⟨n', _, _, rfl, ⟨hn, rfl⟩, ids, f, _, rfl, hargs, slice, hnode, hids, rfl⟩
    exact ⟨id.ref :: f, (List.perm_append_singleton _ _).symm,
      tyAt_named_iff.2 ⟨n', slice, ids, f, hnode, hn, hids, hargs, rfl⟩⟩
  | .array elem => by
    unfold ty
    refine ((ty_enters elem).bind (stored_stable _) fun e => allocType_enters (.array e)).imp ?_
    rintro st sp id _ ⟨e, f, _, rfl, he, hnode, rfl⟩
    exact ⟨id.ref :: f, (List.perm_append_singleton _ _).symm,
      tyAt_array_iff.2 ⟨e, f, hnode, he, rfl⟩⟩

theorem tys_enters : ∀ ts, Enters (tys ts) fun st sp ids f => Along (TyAt st sp) ts ids f
  | [] => by
    unfold tys
    exact .pure fun _ _ => .nil
  | t :: ts => by
    unfold tys
    refine ((ty_enters t).bind (stored_stable _) fun id => (tys_enters ts).bind
      (along_stable .ty ts) fun ids => Enters.pure (R := fun _ _ as f => as = id :: ids ∧ f = [])
        fun _ _ => ⟨rfl, rfl⟩).imp ?_
    rintro st sp _ _ ⟨id, f₁, _, rfl, ht, ids, f₂, _, rfl, hts, rfl, rfl⟩
    exact ⟨f₁ ++ f₂, by simp, .cons ht hts⟩

end

theorem allocExpr_enters (span : Span) (kind : Node.ExprKind) :
    Enters (build (Build.expr span kind)) fun st _ id f =>
      st.exprs[id.index]? = some ⟨kind, span⟩ ∧ f = [id.ref] :=
  fun w => ⟨_, allocExpr_adds w.store ⟨kind, span⟩, fun _ _ hn => hn, id,
    fun _ => ⟨_, .refl _, exprs_allocExpr w.store ⟨kind, span⟩, rfl⟩⟩

/-- An expression node that owns a list of arguments. -/
theorem withArgs_enters (span : Span) (kind : Slice .expr → Node.ExprKind) (ids : List ExprId) :
    Enters (build (do Build.expr span (kind (← allocExprList ids)))) fun st _ id f => ∃ slice,
      st.exprs[id.index]? = some ⟨kind slice, span⟩ ∧ st.exprList slice = .ok ids ∧
      f = [id.ref] := by
  intro w
  have hlist := allocExprList_adds w.store ids
  have hexpr := allocExpr_adds (allocExprList ids w.store).2
    ⟨kind (allocExprList ids w.store).1, span⟩
  refine ⟨_, hlist.trans hexpr, fun _ _ hn => hn, id,
    fun _ => ⟨_, .refl _, _, exprs_allocExpr _ _, ?_, rfl⟩⟩
  exact hexpr.grows.exprList_eq (exprList_allocExprList w.store ids)

/-- The entered node and the nodes of its operands make up the expression. -/
theorem exprAt_of_operands {st : Store} {sp : Spelling} {e : Tree.Expr} {id : ExprId}
    {kind : Node.ExprKind} {span : Span} {ids : List ExprId} {f : List NodeRef}
    (hnode : st.exprs[id.index]? = some ⟨kind, span⟩) (head : ExprHead sp ⟨kind, span⟩ e)
    (htypes : e.typeParts = []) (hkind : kind.typeSlots = []) (hids : st.operands kind = .ok ids)
    (hops : Along (ExprAt st sp) e.operands ids f) :
    ∃ f', f'.Perm (f ++ [id.ref]) ∧ ExprAt st sp e id f' := by
  refine ⟨id.ref :: f, (List.perm_append_singleton _ _).symm, exprAt_iff.2 ?_⟩
  exact ⟨_, ids, [], f, hnode, head, hids, by simp [htypes, hkind], hops, by simp⟩

mutual

theorem expr_enters : ∀ e, Enters (expr e) fun st sp id f => ExprAt st sp e id f
  | .int s v => by
    unfold expr
    refine (allocExpr_enters _ _).imp ?_
    rintro st sp id _ ⟨hnode, rfl⟩
    exact exprAt_of_operands hnode (.int s v) rfl rfl rfl .nil
  | .bool s v => by
    unfold expr
    refine (allocExpr_enters _ _).imp ?_
    rintro st sp id _ ⟨hnode, rfl⟩
    exact exprAt_of_operands hnode (.bool s v) rfl rfl rfl .nil
  | .str s n => by
    unfold expr
    refine ((name_enters n).bind (name_stable n) fun _ => allocExpr_enters _ _).imp ?_
    rintro st sp id _ ⟨_, _, _, rfl, ⟨hn, rfl⟩, hnode, rfl⟩
    exact exprAt_of_operands hnode (.str s hn) rfl rfl rfl .nil
  | .null s => by
    unfold expr
    refine (allocExpr_enters _ _).imp ?_
    rintro st sp id _ ⟨hnode, rfl⟩
    exact exprAt_of_operands hnode (.null s) rfl rfl rfl .nil
  | .self s => by
    unfold expr
    refine (allocExpr_enters _ _).imp ?_
    rintro st sp id _ ⟨hnode, rfl⟩
    exact exprAt_of_operands hnode (.self s) rfl rfl rfl .nil
  | .ident s n => by
    unfold expr
    refine ((name_enters n).bind (name_stable n) fun _ => allocExpr_enters _ _).imp ?_
    rintro st sp id _ ⟨_, _, _, rfl, ⟨hn, rfl⟩, hnode, rfl⟩
    exact exprAt_of_operands hnode (.ident s hn) rfl rfl rfl .nil
  | .field s e n => by
    unfold expr
    refine ((expr_enters e).bind (stored_stable _) fun _ => (name_enters n).bind (name_stable n)
      fun _ => allocExpr_enters _ _).imp ?_
    rintro st sp id _ ⟨_, _, _, rfl, he, _, _, _, rfl, ⟨hn, rfl⟩, hnode, rfl⟩
    exact exprAt_of_operands hnode (.field s _ e hn) rfl rfl rfl (.single he)
  | .index s l r => by
    unfold expr
    refine ((expr_enters l).bind (stored_stable _) fun _ => (expr_enters r).bind (stored_stable _)
      fun _ => allocExpr_enters _ _).imp ?_
    rintro st sp id _ ⟨_, _, _, rfl, hl, _, _, _, rfl, hr, hnode, rfl⟩
    rw [← List.append_assoc]
    exact exprAt_of_operands hnode (.index s _ _ l r) rfl rfl rfl (.cons hl (.single hr))
  | .call s none n args => by
    unfold expr
    refine ((name_enters n).bind (name_stable n) fun n' => (exprs_enters args).bind
      (along_stable .expr args) fun ids => withArgs_enters s (.call none n') ids).imp ?_
    rintro st sp id _ ⟨_, _, _, rfl, ⟨hn, rfl⟩, ids, f, _, rfl, hargs, slice, hnode, hids, rfl⟩
    refine exprAt_of_operands hnode (.call s slice args rfl hn) rfl rfl ?_ hargs
    simp [operands, hids, bind, Except.bind, pure, Except.pure]
  | .call s (some r) n args => by
    unfold expr
    refine ((expr_enters r).bind (stored_stable _) fun r' => (name_enters n).bind (name_stable n)
      fun n' => (exprs_enters args).bind (along_stable .expr args) fun ids =>
        withArgs_enters s (.call (some r') n') ids).imp ?_
    rintro st sp id _ ⟨r', fr, _, rfl, hr, n', _, _, rfl, ⟨hn, rfl⟩, ids, f, _, rfl, hargs, slice,
      hnode, hids, rfl⟩
    rw [List.nil_append, ← List.append_assoc]
    refine exprAt_of_operands hnode (.call s slice args rfl hn) rfl rfl ?_ (.cons hr hargs)
    simp [operands, hids, bind, Except.bind, pure, Except.pure]
  | .create s t args => by
    unfold expr
    refine ((ty_enters t).bind (stored_stable _) fun t' => (exprs_enters args).bind
      (along_stable .expr args) fun ids => withArgs_enters s (.create t') ids).imp ?_
    rintro st sp id _ ⟨t', ft, _, rfl, ht, ids, f, _, rfl, hargs, slice, hnode, hids, rfl⟩
    -- The one expression with a type: `exprAt_of_operands` does not apply.
    refine ⟨id.ref :: (ft ++ f), ?_, exprAt_iff.2 ?_⟩
    · rw [← List.append_assoc]
      exact (List.perm_append_singleton _ _).symm
    · exact ⟨_, ids, ft, f, hnode, .create s t' t slice args, hids, .single ht, hargs, rfl⟩
  | .unary s op e => by
    unfold expr
    refine ((expr_enters e).bind (stored_stable _) fun _ => allocExpr_enters _ _).imp ?_
    rintro st sp id _ ⟨_, _, _, rfl, he, hnode, rfl⟩
    exact exprAt_of_operands hnode (.unary s op _ e) rfl rfl rfl (.single he)
  | .binary s op l r => by
    unfold expr
    refine ((expr_enters l).bind (stored_stable _) fun _ => (expr_enters r).bind (stored_stable _)
      fun _ => allocExpr_enters _ _).imp ?_
    rintro st sp id _ ⟨_, _, _, rfl, hl, _, _, _, rfl, hr, hnode, rfl⟩
    rw [← List.append_assoc]
    exact exprAt_of_operands hnode (.binary s op _ _ l r) rfl rfl rfl (.cons hl (.single hr))
  | .conditional s c l r => by
    unfold expr
    refine ((expr_enters c).bind (stored_stable _) fun _ => (expr_enters l).bind (stored_stable _)
      fun _ => (expr_enters r).bind (stored_stable _) fun _ => allocExpr_enters _ _).imp ?_
    rintro st sp id _ ⟨_, fc, _, rfl, hc, _, fl, _, rfl, hl, _, fr, _, rfl, hr, hnode, rfl⟩
    rw [show fc ++ (fl ++ (fr ++ [id.ref])) = fc ++ (fl ++ fr) ++ [id.ref] by simp]
    exact exprAt_of_operands hnode (.conditional s _ _ _ c l r) rfl rfl rfl
      (.cons hc (.cons hl (.single hr)))
  | .assign s l r => by
    unfold expr
    refine ((expr_enters l).bind (stored_stable _) fun _ => (expr_enters r).bind (stored_stable _)
      fun _ => allocExpr_enters _ _).imp ?_
    rintro st sp id _ ⟨_, _, _, rfl, hl, _, _, _, rfl, hr, hnode, rfl⟩
    rw [← List.append_assoc]
    exact exprAt_of_operands hnode (.assign s _ _ l r) rfl rfl rfl (.cons hl (.single hr))

theorem exprs_enters : ∀ es, Enters (exprs es) fun st sp ids f => Along (ExprAt st sp) es ids f
  | [] => by
    unfold exprs
    exact .pure fun _ _ => .nil
  | e :: es => by
    unfold exprs
    refine ((expr_enters e).bind (stored_stable _) fun id => (exprs_enters es).bind
      (along_stable .expr es) fun ids => Enters.pure (R := fun _ _ as f => as = id :: ids ∧ f = [])
        fun _ _ => ⟨rfl, rfl⟩).imp ?_
    rintro st sp _ _ ⟨id, f₁, _, rfl, he, ids, f₂, _, rfl, hes, rfl, rfl⟩
    exact ⟨f₁ ++ f₂, by simp, .cons he hes⟩

end

theorem expr?_enters (o : Option Tree.Expr) :
    Enters (expr? o) fun st sp id f => Along (ExprAt st sp) o.toList id.toList f := by
  cases o with
  | none => exact .pure fun _ _ => .nil
  | some e =>
    refine ((expr_enters e).bind (stored_stable _) fun id =>
      Enters.pure (R := fun _ _ o f => o = some id ∧ f = []) fun _ _ => ⟨rfl, rfl⟩).imp ?_
    rintro st sp _ _ ⟨id, f₁, _, rfl, he, rfl, rfl⟩
    exact ⟨f₁, by simp, .single he⟩

theorem expr?_stable (o : Option Tree.Expr) :
    Stable fun st sp (id : Option ExprId) f => Along (ExprAt st sp) o.toList id.toList f :=
  fun hg hsp h => along_stable .expr o.toList hg hsp h

/-! ## Statements -/

theorem allocStmt_enters (span : Span) (kind : Node.StmtKind) (hkind : ∀ b, kind ≠ .block b) :
    Enters (build (Build.stmt span kind)) fun st _ id f =>
      st.stmts[id.index]? = some ⟨kind, span⟩ ∧ f = [id.ref] :=
  fun w => ⟨_, allocStmt_adds w.store ⟨kind, span⟩, fun _ _ hn => hn,
    fun h => h.allocStmt fun b hb => absurd hb (hkind b),
    fun _ => ⟨_, .refl _, stmts_allocStmt w.store ⟨kind, span⟩, rfl⟩⟩

theorem block_enters (span : Span) (ids : List StmtId) :
    Enters (build (Build.block span ids)) fun st _ b f =>
      b.span = span ∧ st.stmtList b.stmts = .ok ids ∧ f = [] :=
  fun w => ⟨_, allocStmtList_adds w.store ids, fun _ _ hn => hn, id,
    fun _ => ⟨_, .refl _, rfl, stmtList_allocStmtList w.store ids, rfl⟩⟩

theorem blockStmt_enters (span : Span) (ids : List StmtId) :
    Enters (build (Build.blockStmt span ids)) fun st _ id f => ∃ b,
      st.stmts[id.index]? = some ⟨.block b, span⟩ ∧ st.stmtList b.stmts = .ok ids ∧
      f = [id.ref] := by
  intro w
  have hlist := allocStmtList_adds w.store ids
  have hstmt := allocStmt_adds (allocStmtList ids w.store).2
    ⟨.block ⟨(allocStmtList ids w.store).1, span⟩, span⟩
  have hspan : ∀ b : Node.Block, Node.StmtKind.block ⟨(allocStmtList ids w.store).1, span⟩ =
      .block b → b.span = span := by
    rintro b ⟨⟩
    rfl
  have hspans : w.store.BlocksSpanned → (allocStmtList ids w.store).2.BlocksSpanned := fun h => h
  refine ⟨_, hlist.trans hstmt, fun _ _ hn => hn, fun h => (hspans h).allocStmt hspan,
    fun _ => ⟨_, .refl _, _, stmts_allocStmt _ _, ?_, rfl⟩⟩
  exact hstmt.grows.stmtList_eq (stmtList_allocStmtList w.store ids)

/-- What an arm is made of before it is entered. -/
abbrev ArmDraft := Option ExprId × List StmtId

/-- The node is an arm with this label and these statements. -/
def ArmMade (st : Store) (x : ArmDraft) (a : Node.Arm) (f : List NodeRef) : Prop :=
  a.label = x.1 ∧ st.stmtList a.stmts = .ok x.2 ∧ f = []

def ArmEntered (st : Store) (x : ArmDraft) (id : ArmId) (f : List NodeRef) : Prop :=
  ∃ a, st.arms[id.index]? = some a ∧ ArmMade st x a f

theorem ArmMade.grow {st st' : Store} {T : NodeRef → Prop} (hg : st.Grows st' T) {x : ArmDraft}
    {a : Node.Arm} {f : List NodeRef} (h : ArmMade st x a f) : ArmMade st' x a f :=
  ⟨h.1, hg.stmtList_eq h.2.1, h.2.2⟩

/-- Enters the statement list of a draft. -/
def makeArm (span : Span) (x : ArmDraft) : StateM Store Node.Arm := do
  return ⟨x.1, ← allocStmtList x.2, span⟩

theorem mapM_makeArm_cons (span : Span) (x : ArmDraft) (xs : List ArmDraft) (st : Store) :
    (x :: xs).mapM (makeArm span) st =
      let rest := xs.mapM (makeArm span) (allocStmtList x.2 st).2
      ((makeArm span x st).1 :: rest.1, rest.2) := by
  rw [List.mapM_cons]
  rfl

theorem makeArms (span : Span) (xs : List ArmDraft) (st : Store) :
    ∃ made st', xs.mapM (makeArm span) st = (made, st') ∧ st.Adds st' [] ∧
      st'.stmts = st.stmts ∧ Along (ArmMade st') xs made [] := by
  induction xs generalizing st with
  | nil => exact ⟨[], st, rfl, .refl st, rfl, .nil⟩
  | cons x xs ih =>
    obtain ⟨made, st', hrun, hadds, hstmts, hmade⟩ := ih (allocStmtList x.2 st).2
    refine ⟨_, st', by rw [mapM_makeArm_cons, hrun], (allocStmtList_adds st x.2).trans hadds,
      hstmts, .cons (f := []) ⟨rfl, ?_, rfl⟩ hmade⟩
    exact hadds.grows.stmtList_eq (stmtList_allocStmtList st x.2)

theorem switchStmt_eq (span : Span) (sel : ExprId) (xs : List ArmDraft) (st : Store) :
    Build.switchStmt span sel xs st =
      let (made, st) := xs.mapM (makeArm span) st
      allocStmt ⟨.switch sel (allocArms made st).1, span⟩ (allocArms made st).2 :=
  rfl

theorem armIds_succ (start count : Nat) :
    armIds start (count + 1) = ⟨start⟩ :: armIds (start + 1) count := by
  simp only [armIds, List.range_succ_eq_map, List.map_cons, Nat.add_zero, List.map_map]
  refine congrArg (_ :: ·) (List.map_congr_left fun i _ => ?_)
  simp only [Function.comp_apply, NodeId.mk.injEq]
  omega

theorem enterArms {st : Store} {xs : List ArmDraft} {made : List Node.Arm} {start : Nat}
    (h : Along (ArmMade st) xs made [])
    (hst : ∀ i a, made[i]? = some a → st.arms[start + i]? = some a) :
    Along (ArmEntered st) xs (armIds start made.length) [] := by
  generalize hf : ([] : List NodeRef) = f at h
  induction h generalizing start with
  | nil => exact .nil
  | @cons x a f xs made fs head tail ih =>
    obtain ⟨rfl, rfl⟩ := List.append_eq_nil_iff.1 hf.symm
    rw [List.length_cons, armIds_succ]
    refine .cons ⟨a, by simpa using hst 0 a rfl, head⟩ (ih ?_ rfl)
    intro i b hb
    simpa [Nat.add_assoc, Nat.add_comm 1 i] using hst (i + 1) b hb

theorem switchStmt_enters (span : Span) (sel : ExprId) (xs : List ArmDraft) :
    Enters (build (Build.switchStmt span sel xs)) fun st _ id f => ∃ slice ids,
      st.stmts[id.index]? = some ⟨.switch sel slice, span⟩ ∧ slice.ids slice.len = .ok ids ∧
      Along (ArmEntered st) xs ids [] ∧ f = ids.map NodeId.ref ++ [id.ref] := by
  intro w
  obtain ⟨made, st₁, hrun, hmade, hstmts, hdrafts⟩ := makeArms span xs w.store
  have harms := allocArms_adds st₁ made
  have hstmt := allocStmt_adds (allocArms made st₁).2 ⟨.switch sel (allocArms made st₁).1, span⟩
  have hresult : (build (Build.switchStmt span sel xs)) w =
      ((allocStmt ⟨.switch sel (allocArms made st₁).1, span⟩ (allocArms made st₁).2).1,
        { w with store := (allocStmt ⟨.switch sel (allocArms made st₁).1, span⟩
          (allocArms made st₁).2).2 }) := by
    simp only [build, StateT.run, switchStmt_eq, hrun]
    rfl
  rw [hresult]
  have hspans : w.store.BlocksSpanned → (allocArms made st₁).2.BlocksSpanned := by
    intro h i b span hi
    exact h i b span (hstmts ▸ hi)
  refine ⟨_, (hmade.trans harms).trans hstmt, fun _ _ hn => hn,
    fun h => (hspans h).allocStmt (by simp), fun hfits => ?_⟩
  have hids := ids_allocArms st₁ made (Nat.le_trans hstmt.grows.arms_size hfits)
  refine ⟨_, .refl _, _, _, stmts_allocStmt _ _, hids, ?_, rfl⟩
  have hg := harms.grows.trans hstmt.grows
  refine enterArms (hdrafts.imp fun _ _ _ _ _ hx => hx.grow hg) fun i a ha => ?_
  exact hstmt.grows.arm_eq (arms_allocArms st₁ made ha) id

/-- The parts of an arm are stored. -/
def ArmPartsAt (st : Store) (sp : Spelling) (a : Tree.Arm) (x : ArmDraft) (f : List NodeRef) : Prop :=
  ∃ fl fs, f = fl ++ fs ∧ Along (ExprAt st sp) a.label.toList x.1.toList fl ∧
    Along (StmtAt st sp) a.stmts x.2 fs

theorem armParts_stable (as : List Tree.Arm) :
    Stable fun st sp (xs : List ArmDraft) f => Along (ArmPartsAt st sp) as xs f := by
  intro st st' sp sp' xs f hg hsp h
  refine h.imp ?_
  rintro a _ x _ - ⟨fl, fs, rfl, hl, hs⟩
  exact ⟨fl, fs, rfl, expr?_stable _ hg hsp hl, along_stable .stmt _ hg hsp hs⟩

/-- Stored parts and entered nodes make up stored arms. -/
theorem armsAt_of_entered {st : Store} {sp : Spelling} {as : List Tree.Arm} {xs : List ArmDraft}
    {ids : List ArmId} {f : List NodeRef} (hparts : Along (ArmPartsAt st sp) as xs f)
    (hids : Along (ArmEntered st) xs ids []) :
    ∃ f', f'.Perm (f ++ ids.map NodeId.ref) ∧ Along (ArmAt st sp) as ids f' := by
  induction hparts generalizing ids with
  | nil =>
    cases hids
    exact ⟨[], .refl _, .nil⟩
  | @cons a x f as xs fs head _ ih =>
    obtain ⟨id, ids, f₁, f₂, rfl, hnil, ⟨node, hnode, hlabel, hstmts, rfl⟩, htail⟩ :=
      Along.cons_iff.1 hids
    obtain rfl : f₂ = [] := by simpa using hnil.symm
    obtain ⟨fl, fs', rfl, hl, hs⟩ := head
    obtain ⟨f', hf', hrest⟩ := ih htail
    obtain ⟨label, ss⟩ := a
    refine ⟨(id.ref :: (fl ++ fs')) ++ f', ?_, .cons (armAt_iff.2 ⟨node, x.2, fl, fs', hnode, hstmts,
      by rw [hlabel]; exact hl, hs, rfl⟩) hrest⟩
    rw [List.map_cons, List.cons_append]
    exact ((hf'.append_left _).cons _).trans (by
      rw [← List.append_assoc]
      exact List.perm_middle.symm)

/-- The entered node and the nodes of its parts make up the statement. -/
theorem stmtAt_of_parts {st : Store} {sp : Spelling} {s : Tree.Stmt} {id : StmtId}
    {kind : Node.StmtKind} {span : Span} {ns f : List NodeRef}
    (hnode : st.stmts[id.index]? = some ⟨kind, span⟩) (head : StmtHead sp ⟨kind, span⟩ s)
    (hns : st.stmtSlots kind = .ok ns) (hparts : Along (Stored st sp) (Tree.Any.stmt s).parts ns f) :
    ∃ f', f'.Perm (f ++ [id.ref]) ∧ StmtAt st sp s id f' :=
  ⟨id.ref :: f, (List.perm_append_singleton _ _).symm,
    stmtAt_iff.2 ⟨_, ns, f, hnode, head, hns, hparts, rfl⟩⟩

mutual

theorem stmt_enters : ∀ s, Enters (stmt s) fun st sp id f => StmtAt st sp s id f
  | .expr s e => by
    unfold stmt
    refine ((expr_enters e).bind (stored_stable _) fun _ => allocStmt_enters _ _ (by simp)).imp ?_
    rintro st sp id _ ⟨e', _, _, rfl, he, hnode, rfl⟩
    exact stmtAt_of_parts hnode (.expr s e' e) rfl (.single he)
  | .localVar s t n init isFinal => by
    unfold stmt
    refine ((ty_enters t).bind (stored_stable _) fun _ => (name_enters n).bind (name_stable n)
      fun _ => (expr?_enters init).bind (expr?_stable init)
        fun _ => allocStmt_enters _ _ (by simp)).imp ?_
    rintro st sp id _ ⟨t', ft, _, rfl, ht, n', _, _, rfl, ⟨hn, rfl⟩, init', fi, _, rfl, hi, hnode,
      rfl⟩
    rw [List.nil_append, ← List.append_assoc]
    exact stmtAt_of_parts hnode (.localVar s t' t isFinal hi.toList_isSome.symm hn) rfl
      (.cons ht (along_exprs_iff.2 hi))
  | .block s ss => by
    unfold stmt
    refine ((stmts_enters ss).bind (along_stable .stmt ss) fun _ => blockStmt_enters _ _).imp ?_
    rintro st sp id _ ⟨ids, f, _, rfl, hss, b, hnode, hids, rfl⟩
    refine stmtAt_of_parts hnode (.block s b ss) ?_ (along_stmts_iff.2 hss)
    simp [stmtSlots, hids, bind, Except.bind, pure, Except.pure]
  | .ifElse s c t none => by
    unfold stmt
    refine ((expr_enters c).bind (stored_stable _) fun _ => (stmt_enters t).bind (stored_stable _)
      fun _ => allocStmt_enters _ _ (by simp)).imp ?_
    rintro st sp id _ ⟨c', fc, _, rfl, hc, t', ft, _, rfl, ht, hnode, rfl⟩
    rw [← List.append_assoc]
    exact stmtAt_of_parts hnode (.ifElse s c' c t' t rfl) rfl (.cons hc (.single ht))
  | .ifElse s c t (some e) => by
    unfold stmt
    refine ((expr_enters c).bind (stored_stable _) fun _ => (stmt_enters t).bind (stored_stable _)
      fun _ => (stmt_enters e).bind (stored_stable _)
        fun _ => allocStmt_enters _ _ (by simp)).imp ?_
    rintro st sp id _ ⟨c', fc, _, rfl, hc, t', ft, _, rfl, ht, e', fe, _, rfl, he, hnode, rfl⟩
    rw [show fc ++ (ft ++ (fe ++ [id.ref])) = fc ++ (ft ++ fe) ++ [id.ref] by simp]
    exact stmtAt_of_parts hnode (.ifElse s c' c t' t rfl) rfl (.cons hc (.cons ht (.single he)))
  | .whileLoop s c b => by
    unfold stmt
    refine ((expr_enters c).bind (stored_stable _) fun _ => (stmt_enters b).bind (stored_stable _)
      fun _ => allocStmt_enters _ _ (by simp)).imp ?_
    rintro st sp id _ ⟨c', fc, _, rfl, hc, b', fb, _, rfl, hb, hnode, rfl⟩
    rw [← List.append_assoc]
    exact stmtAt_of_parts hnode (.whileLoop s c' c b' b) rfl (.cons hc (.single hb))
  | .switch s sel as => by
    unfold stmt
    refine ((expr_enters sel).bind (stored_stable _) fun _ => (arms_enters as).bind
      (armParts_stable as) fun _ => switchStmt_enters _ _ _).imp ?_
    rintro st sp id _ ⟨sel', fs, _, rfl, hsel, xs, f, _, rfl, hparts, slice, ids, hnode, hids,
      hentered, rfl⟩
    obtain ⟨f', hf', harms⟩ := armsAt_of_entered hparts hentered
    refine ⟨id.ref :: (fs ++ f'), ?_, stmtAt_switch_iff.2
      ⟨sel', slice, ids, fs, f', hnode, hids, hsel, harms, rfl⟩⟩
    rw [show fs ++ (f ++ (ids.map NodeId.ref ++ [id.ref])) =
      fs ++ (f ++ ids.map NodeId.ref) ++ [id.ref] by simp]
    exact (List.perm_append_singleton _ _).symm.trans ((hf'.append_left fs).append_right _)
  | .returnWith s v => by
    unfold stmt
    refine ((expr?_enters v).bind (expr?_stable v) fun _ => allocStmt_enters _ _ (by simp)).imp ?_
    rintro st sp id _ ⟨v', f, _, rfl, hv, hnode, rfl⟩
    exact stmtAt_of_parts hnode (.returnWith s hv.toList_isSome.symm) rfl (along_exprs_iff.2 hv)
  | .breakOut s => by
    unfold stmt
    refine (allocStmt_enters _ _ (by simp)).imp ?_
    rintro st sp id _ ⟨hnode, rfl⟩
    exact stmtAt_of_parts hnode (.breakOut s) rfl .nil
  | .continueOn s => by
    unfold stmt
    refine (allocStmt_enters _ _ (by simp)).imp ?_
    rintro st sp id _ ⟨hnode, rfl⟩
    exact stmtAt_of_parts hnode (.continueOn s) rfl .nil
  | .empty s => by
    unfold stmt
    refine (allocStmt_enters _ _ (by simp)).imp ?_
    rintro st sp id _ ⟨hnode, rfl⟩
    exact stmtAt_of_parts hnode (.empty s) rfl .nil

theorem stmts_enters : ∀ ss, Enters (stmts ss) fun st sp ids f => Along (StmtAt st sp) ss ids f
  | [] => by
    unfold stmts
    exact .pure fun _ _ => .nil
  | s :: ss => by
    unfold stmts
    refine ((stmt_enters s).bind (stored_stable _) fun id => (stmts_enters ss).bind
      (along_stable .stmt ss) fun ids => Enters.pure (R := fun _ _ as f => as = id :: ids ∧ f = [])
        fun _ _ => ⟨rfl, rfl⟩).imp ?_
    rintro st sp _ _ ⟨id, f₁, _, rfl, hs, ids, f₂, _, rfl, hss, rfl, rfl⟩
    exact ⟨f₁ ++ f₂, by simp, .cons hs hss⟩

theorem arms_enters : ∀ as, Enters (arms as) fun st sp xs f => Along (ArmPartsAt st sp) as xs f
  | [] => by
    unfold arms
    exact .pure fun _ _ => .nil
  | .mk label ss :: as => by
    unfold arms
    refine ((expr?_enters label).bind (expr?_stable label) fun l => (stmts_enters ss).bind
      (along_stable .stmt ss) fun ids => (arms_enters as).bind (armParts_stable as) fun xs =>
        Enters.pure (R := fun _ _ as f => as = (l, ids) :: xs ∧ f = []) fun _ _ => ⟨rfl, rfl⟩).imp ?_
    rintro st sp _ _ ⟨l, fl, _, rfl, hl, ids, fs, _, rfl, hss, xs, f, _, rfl, hxs, rfl, rfl⟩
    exact ⟨(fl ++ fs) ++ f, by simp, .cons ⟨fl, fs, rfl, hl, hss⟩ hxs⟩

end

/-! ## Items -/

/-- Finishes with a value made of what was loaded before. -/
theorem return_enters {α : Type} (a : α) : Enters (Pure.pure a) fun _ _ b f => b = a ∧ f = [] :=
  .pure fun _ _ => ⟨rfl, rfl⟩

theorem body_enters (b : Tree.Body) : Enters (body b) fun st sp b' f => BodyAt st sp b b' f := by
  refine ((stmts_enters b.stmts).bind (along_stable .stmt b.stmts) fun ids =>
    block_enters b.span ids).imp ?_
  rintro st sp b' _ ⟨ids, f, _, rfl, hss, hspan, hids, rfl⟩
  exact ⟨f, by simp, hspan, ids, hids, hss⟩

theorem body_stable (b : Tree.Body) : Stable fun st sp b' f => BodyAt st sp b b' f :=
  fun hg hsp h => h.grow hg hsp fun _ _ hn => hn.elim

theorem param_enters (p : Tree.Param) :
    Enters (p.traverse name ty) fun st sp p' f => ParamAt st sp p p' f := by
  refine ((ty_enters p.type).bind (stored_stable _) fun _ => (name_enters p.name).bind
    (name_stable _) fun _ => return_enters _).imp ?_
  rintro st sp _ _ ⟨t, f, _, rfl, ht, n, _, _, rfl, ⟨hn, rfl⟩, rfl, rfl⟩
  exact ⟨f, by simp, hn, rfl, ht⟩

theorem param_stable (p : Tree.Param) : Stable fun st sp p' f => ParamAt st sp p p' f :=
  fun hg hsp h => h.grow hg hsp fun _ _ hn => hn.elim

theorem along_stable_of {α β : Type} {Q : Store → Spelling → α → β → List NodeRef → Prop}
    (h : ∀ a, Stable fun st sp => Q st sp a) (as : List α) :
    Stable fun st sp bs f => Along (Q st sp) as bs f :=
  fun hg hsp has => has.imp fun _ _ _ _ _ hQ => h _ hg hsp hQ

theorem optional_stable_of {α β : Type} {Q : Store → Spelling → α → β → List NodeRef → Prop}
    (h : ∀ a, Stable fun st sp => Q st sp a) (o : Option α) :
    Stable fun st sp (b : Option β) f => Along (Q st sp) o.toList b.toList f :=
  fun hg hsp has => along_stable_of h o.toList hg hsp has

theorem member_stable (m : Tree.Member) : Stable fun st sp m' f => MemberAt st sp m m' f :=
  fun hg hsp h => h.grow hg hsp fun _ _ hn => hn.elim

theorem class_stable (c : Tree.Class) : Stable fun st sp c' f => ClassAt st sp c c' f :=
  fun hg hsp h => h.grow hg hsp fun _ _ hn => hn.elim

theorem import_stable (i : Tree.Import) :
    Stable fun (_ : Store) (sp : Spelling) i' f => ImportAt sp i i' f :=
  fun _ hsp h => h.imp hsp

theorem member_enters (m : Tree.Member) :
    Enters (m.traverse name ty expr body) fun st sp m' f => MemberAt st sp m m' f := by
  cases m with
  | field d =>
    refine (((ty_enters d.type).bind (stored_stable _) fun _ => (name_enters d.name).bind
      (name_stable _) fun _ => (Enters.optionMapM expr_enters (fun e => stored_stable (.expr e))
        d.init).bind (expr?_stable d.init) fun _ =>
          return_enters _).bind ?_ fun _ => return_enters _).imp ?_
    · rintro st st' sp sp' d' f hg hsp ⟨t, f, _, rfl, ht, n, _, _, rfl, hn, i, fi, _, rfl, hi, h⟩
      exact ⟨t, f, _, rfl, stored_stable _ hg hsp ht, n, _, _, rfl, name_stable _ hg hsp hn, i, fi, _,
        rfl, along_stable .expr _ hg hsp hi, h⟩
    · rintro st sp _ _ ⟨d', _, _, rfl, ⟨t, ft, _, rfl, ht, n, _, _, rfl, ⟨hn, rfl⟩, i, fi, _, rfl,
        hi, rfl, rfl⟩, rfl, rfl⟩
      exact ⟨ft ++ fi, by simp, .field hn rfl rfl ht hi⟩
  | method d =>
    refine (((Enters.optionMapM ty_enters (fun t => stored_stable (.ty t)) d.result).bind
      (fun hg hsp h => along_stable .ty d.result.toList hg hsp h) fun _ =>
      (name_enters d.name).bind (name_stable _) fun _ =>
      (Enters.mapM param_enters param_stable d.params).bind
        (along_stable_of param_stable d.params) fun _ =>
      (Enters.optionMapM body_enters body_stable d.body).bind
        (optional_stable_of body_stable d.body) fun _ =>
      return_enters _).bind ?_ fun _ => return_enters _).imp ?_
    · rintro st st' sp sp' d' f hg hsp ⟨r, fr, _, rfl, hr, n, _, _, rfl, hn, ps, fp, _, rfl, hps, b,
        fb, _, rfl, hb, h⟩
      exact ⟨r, fr, _, rfl, along_stable .ty _ hg hsp hr, n, _, _, rfl, name_stable _ hg hsp hn, ps, fp,
        _, rfl, along_stable_of param_stable _ hg hsp hps, b, fb, _, rfl,
        along_stable_of body_stable _ hg hsp hb, h⟩
    · rintro st sp _ _ ⟨d', _, _, rfl, ⟨r, fr, _, rfl, hr, n, _, _, rfl, ⟨hn, rfl⟩, ps, fp, _, rfl,
        hps, b, fb, _, rfl, hb, rfl, rfl⟩, rfl, rfl⟩
      exact ⟨fr ++ (fp ++ fb), by simp, .method hn rfl rfl hr hps hb⟩
  | initializer i =>
    refine (((body_enters i.body).bind (body_stable _) fun _ => return_enters _).bind ?_ fun _ =>
      return_enters _).imp ?_
    · rintro st st' sp sp' d' f hg hsp ⟨b, fb, _, rfl, hb, h⟩
      exact ⟨b, fb, _, rfl, body_stable _ hg hsp hb, h⟩
    · rintro st sp _ _ ⟨d', _, _, rfl, ⟨b, fb, _, rfl, hb, rfl, rfl⟩, rfl, rfl⟩
      exact ⟨fb, by simp, .initializer rfl rfl hb⟩

theorem class_enters (c : Tree.Class) :
    Enters (c.traverse name ty expr body) fun st sp c' f => ClassAt st sp c c' f := by
  refine ((name_enters c.name).bind (name_stable _) fun _ => (Enters.mapM member_enters
    member_stable c.members).bind (along_stable_of member_stable c.members) fun _ =>
      return_enters _).imp ?_
  rintro st sp _ _ ⟨n, _, _, rfl, ⟨hn, rfl⟩, ms, f, _, rfl, hms, rfl, rfl⟩
  exact ⟨f, by simp, hn, rfl, hms⟩

theorem import_enters (i : Tree.Import) :
    Enters (i.traverse name) fun _ sp i' f => ImportAt sp i i' f := by
  refine ((name_enters i.path).bind (name_stable _) fun _ => return_enters _).imp ?_
  rintro st sp _ _ ⟨n, _, _, rfl, ⟨hn, rfl⟩, rfl, rfl⟩
  exact ⟨[], by simp, hn, rfl, rfl, rfl, rfl⟩

theorem imports_nodes {sp : Spelling} {is : List Tree.Import} {is' : List Node.Import}
    {f : List NodeRef} (h : Along (ImportAt sp) is is' f) : f = [] := by
  induction h with
  | nil => rfl
  | cons head _ ih => rw [head.2.2.2.2, ih, List.append_nil]

theorem unit_enters (u : Tree.CompilationUnit) :
    Enters (unit u) fun st sp u' f => UnitAt ⟨u', st⟩ sp u f := by
  refine ((name_enters u.package).bind (name_stable _) fun _ =>
    (Enters.mapM import_enters import_stable u.imports).bind
      (along_stable_of import_stable u.imports) fun _ =>
    (Enters.mapM class_enters class_stable u.classes).bind
      (along_stable_of class_stable u.classes) fun _ => return_enters _).imp ?_
  rintro st sp _ _ ⟨n, _, _, rfl, ⟨hn, rfl⟩, is, fi, _, rfl, his, cs, f, _, rfl, hcs, rfl, rfl⟩
  obtain rfl : fi = [] := imports_nodes his
  exact ⟨f, by simp, hn, rfl, his, hcs⟩

end Load

/-- Loading keeps the names that are in the table. -/
theorem Program.load_keeps (u : Tree.CompilationUnit) (names : Interner) :
    names.Keeps (Program.load u names).2 := by
  obtain ⟨-, -, hkeeps, -⟩ := Load.unit_enters u { names }
  exact hkeeps

theorem Program.load_blocksSpanned (u : Tree.CompilationUnit) (names : Interner) :
    (Program.load u names).1.store.BlocksSpanned := by
  obtain ⟨-, -, -, hspans, -⟩ := Load.unit_enters u { names }
  exact hspans fun i b span hi => by simp at hi

/-- A loaded unit is stored in distinct nodes, with all its names known. -/
theorem Program.load_unitAt (u : Tree.CompilationUnit) (names : Interner)
    (hfits : (Program.load u names).1.store.arms.size ≤ absentRaw) :
    ∃ fp, UnitAt (Program.load u names).1 (Program.load u names).2.Knows u fp ∧ fp.Nodup := by
  obtain ⟨fp, hadds, -, -, h⟩ := Load.unit_enters u { names }
  obtain ⟨f, hf, hu⟩ := h hfits
  exact ⟨f, hu, hf.nodup_iff.2 hadds.nodup⟩

end TupleAssign
