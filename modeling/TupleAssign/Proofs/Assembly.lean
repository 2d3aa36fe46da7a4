import TupleAssign.Proofs.WellFormed
/-!
# The tree of a well-formed program

What is in reach of a well-formed program is finite and has no cycles, so trees can be put together
from the leaves upwards, and every node gets one. Since every node sits in one slot, the tree of the
unit visits no node twice (`Program.WellFormed.exists_unitAt`).
-/

namespace TupleAssign

open Store

/-! ## Putting a tree together -/

section Assemble

variable {ν : Type} {st : Store} {sp : Spelling ν}

theorem exists_along {α β : Type} {R : α → β → List NodeRef → Prop} {bs : List β}
    (h : ∀ b ∈ bs, ∃ a f, R a b f) : ∃ as fp, Along R as bs fp := by
  induction bs with
  | nil => exact ⟨[], [], .nil⟩
  | cons b bs ih =>
    obtain ⟨a, f, hR⟩ := h b (by simp)
    obtain ⟨as, fp, has⟩ := ih fun b hb => h b (List.mem_cons_of_mem _ hb)
    exact ⟨a :: as, f ++ fp, .cons hR has⟩

/-- Nodes of one sort that are stored as trees are stored as a list of trees of that sort. -/
theorem exists_along_sort {α : Type} {s : NodeSort} (wrap : α → Tree.Any ν)
    (hwrap : ∀ t : Tree.Any ν, t.sort = s → ∃ a, t = wrap a) (ids : List (NodeId s))
    (h : ∀ n ∈ ids.map NodeId.ref, ∃ t f, Stored st sp t n f) :
    ∃ as fp, Along (fun a (i : NodeId s) => Stored st sp (wrap a) i.ref) as ids fp := by
  refine exists_along fun i hi => ?_
  obtain ⟨t, f, ht⟩ := h i.ref (List.mem_map_of_mem hi)
  obtain ⟨a, rfl⟩ := hwrap t ht.sort_eq.symm
  exact ⟨a, f, ht⟩

theorem exists_tys (ids : List TypeId) (h : ∀ n ∈ ids.map NodeId.ref, ∃ t f, Stored st sp t n f) :
    ∃ ts fp, Along (TyAt st sp) ts ids fp :=
  exists_along_sort .ty (fun t ht => by cases t <;> cases ht; exact ⟨_, rfl⟩) ids h

theorem exists_exprs (ids : List ExprId)
    (h : ∀ n ∈ ids.map NodeId.ref, ∃ t f, Stored st sp t n f) :
    ∃ es fp, Along (ExprAt st sp) es ids fp :=
  exists_along_sort .expr (fun t ht => by cases t <;> cases ht; exact ⟨_, rfl⟩) ids h

theorem exists_stmts (ids : List StmtId)
    (h : ∀ n ∈ ids.map NodeId.ref, ∃ t f, Stored st sp t n f) :
    ∃ ss fp, Along (StmtAt st sp) ss ids fp :=
  exists_along_sort .stmt (fun t ht => by cases t <;> cases ht; exact ⟨_, rfl⟩) ids h

theorem exists_arms (ids : List ArmId) (h : ∀ n ∈ ids.map NodeId.ref, ∃ t f, Stored st sp t n f) :
    ∃ as fp, Along (ArmAt st sp) as ids fp :=
  exists_along_sort .arm (fun t ht => by cases t <;> cases ht; exact ⟨_, rfl⟩) ids h

/-- What stands beside an optional entry is optional. -/
theorem Along.exists_toList {α β : Type} {R : α → β → List NodeRef → Prop} {as : List α}
    {o : Option β} {fp : List NodeRef} (h : Along R as o.toList fp) :
    ∃ o' : Option α, as = o'.toList := by
  cases o with
  | none => exact ⟨none, by cases h; rfl⟩
  | some b =>
    cases h with
    | @cons a _ _ _ _ _ _ tail =>
      cases tail
      exact ⟨some a, rfl⟩

theorem Along.single_of_right {α β : Type} {R : α → β → List NodeRef → Prop} {as : List α} {b : β}
    {fp : List NodeRef} (h : Along R as [b] fp) : ∃ a, as = [a] ∧ R a b fp := by
  cases h with
  | @cons a _ f _ _ _ head tail =>
    cases tail
    exact ⟨a, rfl, by simpa using head⟩

/-- Given trees for its slots, an expression node has a tree. -/
theorem exists_exprHead (hsp : ∀ n, ∃ s, sp n s) {node : Node.Expr} {ids : List ExprId}
    (hids : st.operands node.kind = .ok ids) {ts : List (Tree.Ty ν)} {es : List (Tree.Expr ν)}
    (hts : ts.length = node.kind.typeSlots.length) (hes : es.length = ids.length) :
    ∃ e, ExprHead sp node e ∧ e.typeParts = ts ∧ e.operands = es := by
  obtain ⟨kind, span⟩ := node
  -- Only a creation refers to a type; what its operands are tells how many there are.
  have hnil : kind.typeSlots = [] → ts = [] := fun h =>
    List.eq_nil_of_length_eq_zero (by simpa [h] using hts)
  cases kind with
  | int v =>
    cases hids
    obtain rfl := hnil rfl
    obtain rfl := List.eq_nil_of_length_eq_zero hes
    exact ⟨_, .int span v, rfl, rfl⟩
  | bool v =>
    cases hids
    obtain rfl := hnil rfl
    obtain rfl := List.eq_nil_of_length_eq_zero hes
    exact ⟨_, .bool span v, rfl, rfl⟩
  | str n =>
    cases hids
    obtain rfl := hnil rfl
    obtain rfl := List.eq_nil_of_length_eq_zero hes
    obtain ⟨s, hs⟩ := hsp n
    exact ⟨_, .str span hs, rfl, rfl⟩
  | null =>
    cases hids
    obtain rfl := hnil rfl
    obtain rfl := List.eq_nil_of_length_eq_zero hes
    exact ⟨_, .null span, rfl, rfl⟩
  | self =>
    cases hids
    obtain rfl := hnil rfl
    obtain rfl := List.eq_nil_of_length_eq_zero hes
    exact ⟨_, .self span, rfl, rfl⟩
  | ident n =>
    cases hids
    obtain rfl := hnil rfl
    obtain rfl := List.eq_nil_of_length_eq_zero hes
    obtain ⟨s, hs⟩ := hsp n
    exact ⟨_, .ident span hs, rfl, rfl⟩
  | field r n =>
    cases hids
    obtain rfl := hnil rfl
    obtain ⟨e, rfl⟩ := List.length_eq_one_iff.1 hes
    obtain ⟨s, hs⟩ := hsp n
    exact ⟨_, .field span r e hs, rfl, rfl⟩
  | index r i =>
    cases hids
    obtain rfl := hnil rfl
    obtain ⟨e₁, e₂, rfl⟩ := List.length_eq_two.1 hes
    exact ⟨_, .index span r i e₁ e₂, rfl, rfl⟩
  | call r n slice =>
    simp only [operands, bind_eq_ok_iff, ok_pure_iff] at hids
    obtain ⟨args, -, rfl⟩ := hids
    obtain rfl := hnil rfl
    obtain ⟨s, hs⟩ := hsp n
    cases r with
    | none => exact ⟨.call span none s es, .call span slice es rfl hs, rfl, rfl⟩
    | some r =>
      obtain ⟨e, es, rfl⟩ := List.exists_cons_of_length_eq_add_one hes
      exact ⟨.call span (some e) s es, .call span slice es rfl hs, rfl, rfl⟩
  | create t slice =>
    obtain ⟨t', rfl⟩ := List.length_eq_one_iff.1 hts
    exact ⟨_, .create span t t' slice es, rfl, rfl⟩
  | unary op e =>
    cases hids
    obtain rfl := hnil rfl
    obtain ⟨e', rfl⟩ := List.length_eq_one_iff.1 hes
    exact ⟨_, .unary span op e e', rfl, rfl⟩
  | binary op l r =>
    cases hids
    obtain rfl := hnil rfl
    obtain ⟨e₁, e₂, rfl⟩ := List.length_eq_two.1 hes
    exact ⟨_, .binary span op l r e₁ e₂, rfl, rfl⟩
  | conditional c t e =>
    cases hids
    obtain rfl := hnil rfl
    obtain ⟨e₁, e₂, e₃, rfl⟩ := List.length_eq_three.1 hes
    exact ⟨_, .conditional span c t e e₁ e₂ e₃, rfl, rfl⟩
  | assign t v =>
    cases hids
    obtain rfl := hnil rfl
    obtain ⟨e₁, e₂, rfl⟩ := List.length_eq_two.1 hes
    exact ⟨_, .assign span t v e₁ e₂, rfl, rfl⟩

theorem exists_stored_type (hsp : ∀ n, ∃ s, sp n s) (id : TypeId) {ns : List NodeRef}
    (hns : st.slots id.ref = .ok ns) (h : ∀ n ∈ ns, ∃ t f, Stored st sp t n f) :
    ∃ t f, TyAt st sp t id f := by
  obtain ⟨node, hnode, hslots⟩ := slots_type_iff.1 hns
  cases node with
  | primitive p => exact ⟨_, _, tyAt_primitive_iff.2 ⟨hnode, rfl⟩⟩
  | named n slice =>
    simp only [typeSlots, bind_eq_ok_iff, ok_pure_iff] at hslots
    obtain ⟨ids, hids, rfl⟩ := hslots
    obtain ⟨s, hs⟩ := hsp n
    obtain ⟨ts, fp, hts⟩ := exists_tys _ h
    exact ⟨_, _, tyAt_named_iff.2 ⟨n, slice, ids, fp, hnode, hs, hids, hts, rfl⟩⟩
  | array elem =>
    cases hslots
    obtain ⟨ts, fp, hts⟩ := exists_tys [elem] h
    obtain ⟨t, rfl, ht⟩ := hts.single_of_right
    exact ⟨_, _, tyAt_array_iff.2 ⟨elem, fp, hnode, ht, rfl⟩⟩

theorem exists_stored_expr (hsp : ∀ n, ∃ s, sp n s) (id : ExprId) {ns : List NodeRef}
    (hns : st.slots id.ref = .ok ns) (h : ∀ n ∈ ns, ∃ t f, Stored st sp t n f) :
    ∃ e f, ExprAt st sp e id f := by
  obtain ⟨node, ids, hnode, hids, rfl⟩ := slots_expr_iff.1 hns
  obtain ⟨ts, ft, hts⟩ := exists_tys _ fun n hn => h n (List.mem_append_left _ hn)
  obtain ⟨es, fe, hes⟩ := exists_exprs _ fun n hn => h n (List.mem_append_right _ hn)
  obtain ⟨e, hhead, rfl, rfl⟩ := exists_exprHead hsp hids hts.length_eq hes.length_eq
  exact ⟨e, _, exprAt_iff.2 ⟨node, ids, ft, fe, hnode, hhead, hids, hts, hes, rfl⟩⟩

theorem exists_stored_stmt (hsp : ∀ n, ∃ s, sp n s) (id : StmtId) {ns : List NodeRef}
    (hns : st.slots id.ref = .ok ns) (h : ∀ n ∈ ns, ∃ t f, Stored st sp t n f) :
    ∃ s f, StmtAt st sp s id f := by
  obtain ⟨⟨kind, span⟩, hnode, hslots⟩ := slots_stmt_iff.1 hns
  cases kind with
  | expr e =>
    cases hslots
    obtain ⟨es, fp, hes⟩ := exists_exprs [e] h
    obtain ⟨e', rfl, he⟩ := hes.single_of_right
    exact ⟨_, _, stmtAt_expr_iff.2 ⟨e, fp, hnode, he, rfl⟩⟩
  | localVar t n init isFinal =>
    cases hslots
    obtain ⟨ts, ft, hts⟩ := exists_tys [t] fun m hm => h m (by simp_all)
    obtain ⟨t', rfl, ht⟩ := hts.single_of_right
    obtain ⟨es, fi, hes⟩ := exists_exprs _ fun m hm => h m (List.mem_cons_of_mem _ hm)
    obtain ⟨init', rfl⟩ := hes.exists_toList
    obtain ⟨s, hs⟩ := hsp n
    exact ⟨_, _, stmtAt_localVar_iff.2 ⟨t, n, init, ft, fi, hnode, hs, ht, hes, rfl⟩⟩
  | block b =>
    simp only [stmtSlots, bind_eq_ok_iff, ok_pure_iff] at hslots
    obtain ⟨ids, hids, rfl⟩ := hslots
    obtain ⟨ss, fp, hss⟩ := exists_stmts _ h
    exact ⟨.block span ss, _, stmtAt_block_iff.2 ⟨b, ids, fp, hnode, hids, hss, rfl⟩⟩
  | ifElse c t e =>
    cases hslots
    obtain ⟨cs, fc, hcs⟩ := exists_exprs [c] fun m hm => h m (by simp_all)
    obtain ⟨c', rfl, hc⟩ := hcs.single_of_right
    obtain ⟨ss, fs, hss⟩ := exists_stmts (t :: e.toList) fun m hm => h m (by simp_all)
    cases hss with
    | cons head tail =>
      obtain ⟨e', rfl⟩ := tail.exists_toList
      exact ⟨_, _, stmtAt_ifElse_iff.2 ⟨c, t, e, fc, _, _, hnode, hc, head, tail, rfl⟩⟩
  | whileLoop c b =>
    cases hslots
    obtain ⟨cs, fc, hcs⟩ := exists_exprs [c] fun m hm => h m (by simp_all)
    obtain ⟨c', rfl, hc⟩ := hcs.single_of_right
    obtain ⟨ss, fs, hss⟩ := exists_stmts [b] fun m hm => h m (by simp_all)
    obtain ⟨b', rfl, hb⟩ := hss.single_of_right
    exact ⟨_, _, stmtAt_whileLoop_iff.2 ⟨c, b, fc, fs, hnode, hc, hb, rfl⟩⟩
  | switch sel slice =>
    simp only [stmtSlots, bind_eq_ok_iff, ok_pure_iff] at hslots
    obtain ⟨ids, hids, rfl⟩ := hslots
    obtain ⟨es, fs, hes⟩ := exists_exprs [sel] fun m hm => h m (by simp_all)
    obtain ⟨sel', rfl, hsel⟩ := hes.single_of_right
    obtain ⟨as, fa, has⟩ := exists_arms _ fun m hm => h m (List.mem_cons_of_mem _ hm)
    exact ⟨_, _, stmtAt_switch_iff.2 ⟨sel, slice, ids, fs, fa, hnode, hids, hsel, has, rfl⟩⟩
  | returnWith v =>
    cases hslots
    obtain ⟨es, fp, hes⟩ := exists_exprs _ h
    obtain ⟨v', rfl⟩ := hes.exists_toList
    exact ⟨_, _, stmtAt_returnWith_iff.2 ⟨v, fp, hnode, hes, rfl⟩⟩
  | breakOut =>
    exact ⟨.breakOut span, _,
      (stmtAt_leaf_iff .breakOut (by simp [Tree.Stmt.span])).2 ⟨hnode, rfl⟩⟩
  | continueOn =>
    exact ⟨.continueOn span, _,
      (stmtAt_leaf_iff .continueOn (by simp [Tree.Stmt.span])).2 ⟨hnode, rfl⟩⟩
  | empty =>
    exact ⟨.empty span, _, (stmtAt_leaf_iff .empty (by simp [Tree.Stmt.span])).2 ⟨hnode, rfl⟩⟩

theorem exists_stored_arm (id : ArmId) {ns : List NodeRef} (hns : st.slots id.ref = .ok ns)
    (h : ∀ n ∈ ns, ∃ t f, Stored st sp t n f) : ∃ a f, ArmAt st sp a id f := by
  obtain ⟨a, ids, hnode, hids, rfl⟩ := slots_arm_iff.1 hns
  obtain ⟨es, fl, hes⟩ := exists_exprs _ fun n hn => h n (List.mem_append_left _ hn)
  obtain ⟨label, rfl⟩ := hes.exists_toList
  obtain ⟨ss, fs, hss⟩ := exists_stmts _ fun n hn => h n (List.mem_append_right _ hn)
  exact ⟨.mk label ss, _, armAt_iff.2 ⟨a, ids, fl, fs, hnode, hids, hes, hss, rfl⟩⟩

/-- Given trees for what is in its slots, a node has a tree. -/
theorem exists_stored (hsp : ∀ n, ∃ s, sp n s) {n : NodeRef} {ns : List NodeRef}
    (hns : st.slots n = .ok ns) (h : ∀ m ∈ ns, ∃ t f, Stored st sp t m f) :
    ∃ t f, Stored st sp t n f := by
  obtain ⟨sort, i⟩ := n
  cases sort with
  | expr =>
    obtain ⟨e, f, he⟩ := exists_stored_expr hsp ⟨i⟩ hns h
    exact ⟨_, f, he⟩
  | stmt =>
    obtain ⟨s, f, hs⟩ := exists_stored_stmt hsp ⟨i⟩ hns h
    exact ⟨_, f, hs⟩
  | arm =>
    obtain ⟨a, f, ha⟩ := exists_stored_arm ⟨i⟩ hns h
    exact ⟨_, f, ha⟩
  | type =>
    obtain ⟨t, f, ht⟩ := exists_stored_type hsp ⟨i⟩ hns h
    exact ⟨_, f, ht⟩

theorem exists_paramAt (hsp : ∀ n, ∃ s, sp n s) {ps : List Node.Param}
    (h : ∀ n ∈ ps.map (·.type.ref), ∃ t f, Stored st sp t n f) :
    ∃ ps' fp, Along (ParamAt st sp) ps' ps fp := by
  refine exists_along fun p hp => ?_
  obtain ⟨ts, f, hts⟩ := exists_tys [p.type] fun n hn =>
    h n (by
      simp_all only [List.map_cons, List.map_nil, List.mem_singleton]
      exact List.mem_map_of_mem hp)
  obtain ⟨t, rfl, ht⟩ := hts.single_of_right
  obtain ⟨s, hs⟩ := hsp p.name
  exact ⟨⟨t, s, p.span⟩, f, hs, rfl, ht⟩

theorem exists_bodyAt {b : Node.Block} {ids : List StmtId} (hids : st.stmtList b.stmts = .ok ids)
    (h : ∀ n ∈ ids.map NodeId.ref, ∃ t f, Stored st sp t n f) : ∃ b' f, BodyAt st sp b' b f := by
  obtain ⟨ss, fp, hss⟩ := exists_stmts _ h
  exact ⟨⟨ss, b.span⟩, fp, rfl, ids, hids, hss⟩

/-- Given trees for what is in its slots, a member has a tree. -/
theorem exists_memberAt (hsp : ∀ n, ∃ s, sp n s) {m : Node.Member} {ns : List NodeRef}
    (hns : st.memberSlots m = .ok ns) (h : ∀ n ∈ ns, ∃ t f, Stored st sp t n f) :
    ∃ m' f, MemberAt st sp m' m f := by
  cases m with
  | field f =>
    cases hns
    obtain ⟨ts, ft, hts⟩ := exists_tys [f.type] fun n hn => h n (by simp_all)
    obtain ⟨t, rfl, ht⟩ := hts.single_of_right
    obtain ⟨es, fi, hes⟩ := exists_exprs _ fun n hn => h n (List.mem_cons_of_mem _ hn)
    obtain ⟨init, rfl⟩ := hes.exists_toList
    obtain ⟨s, hs⟩ := hsp f.name
    exact ⟨.field ⟨t, s, init, f.isStatic, f.span⟩, _, .field hs rfl rfl ht hes⟩
  | method d =>
    obtain ⟨name, result, params, body, isStatic, span⟩ := d
    obtain ⟨s, hs⟩ := hsp name
    obtain ⟨fb, bs, hbody, htypes⟩ : ∃ fb, ∃ b' : Option (Tree.Body ν),
        Along (BodyAt st sp) b'.toList body.toList fb ∧
        ∀ n ∈ result.toList.map NodeId.ref ++ params.map (·.type.ref), ∃ t f, Stored st sp t n f := by
      cases body with
      | none =>
        cases hns
        exact ⟨[], none, .nil, h⟩
      | some b =>
        simp only [memberSlots, bind_eq_ok_iff, ok_pure_iff] at hns
        obtain ⟨ids, hids, rfl⟩ := hns
        obtain ⟨b', fb, hb⟩ := exists_bodyAt hids fun n hn => h n (List.mem_append_right _ hn)
        exact ⟨fb, some b', Along.single hb, fun n hn => h n (List.mem_append_left _ hn)⟩
    obtain ⟨ts, fr, hts⟩ := exists_tys _ fun n hn => htypes n (List.mem_append_left _ hn)
    obtain ⟨result', rfl⟩ := hts.exists_toList
    obtain ⟨ps, fps, hps⟩ := exists_paramAt hsp fun n hn => htypes n (List.mem_append_right _ hn)
    exact ⟨.method ⟨s, result', ps, bs, isStatic, span⟩, _, .method hs rfl rfl hts hps hbody⟩
  | initializer i =>
    simp only [memberSlots, bind_eq_ok_iff, ok_pure_iff] at hns
    obtain ⟨ids, hids, rfl⟩ := hns
    obtain ⟨b, fb, hb⟩ := exists_bodyAt hids h
    exact ⟨.initializer ⟨b, i.isStatic, i.span⟩, fb, .initializer rfl rfl hb⟩

theorem exists_of_mapM_eq {α β : Type} {f : α → Except Fault β} {as : List α} {bs : List β}
    (h : as.mapM f = .ok bs) : ∀ a ∈ as, ∃ b ∈ bs, f a = .ok b := by
  induction as generalizing bs with
  | nil => simp
  | cons a as ih =>
    rw [List.mapM_cons, bind_eq_ok_iff] at h
    obtain ⟨b, hb, h⟩ := h
    simp only [bind_eq_ok_iff, ok_pure_iff] at h
    obtain ⟨bs', hbs, rfl⟩ := h
    intro a' ha
    rcases List.mem_cons.1 ha with rfl | ha
    · exact ⟨b, by simp, hb⟩
    · obtain ⟨b', hmem, hb'⟩ := ih hbs a' ha
      exact ⟨b', List.mem_cons_of_mem _ hmem, hb'⟩

/-- Given trees for what is in its slots, a unit has a tree. -/
theorem exists_unitAt {p : Program} (hsp : ∀ n, ∃ s, sp n s) {ns : List NodeRef}
    (hns : p.slots .unit = .ok ns) (h : ∀ n ∈ ns, ∃ t f, Stored p.store sp t n f) :
    ∃ u f, UnitAt p sp u f := by
  simp only [Program.slots, bind_eq_ok_iff, ok_pure_iff] at hns
  obtain ⟨nss, hnss, rfl⟩ := hns
  have hmembers := exists_of_mapM_eq hnss
  obtain ⟨package, hpackage⟩ := hsp p.unit.package
  obtain ⟨is, his⟩ : ∃ is, Along (ImportAt sp) is p.unit.imports [] := by
    generalize p.unit.imports = imports
    induction imports with
    | nil => exact ⟨[], .nil⟩
    | cons i imports ih =>
      obtain ⟨is, his⟩ := ih
      obtain ⟨s, hs⟩ := hsp i.path
      exact ⟨⟨s, i.isStatic, i.onDemand, i.span⟩ :: is, .cons ⟨hs, rfl, rfl, rfl, rfl⟩ his⟩
  obtain ⟨cs, fp, hcs⟩ : ∃ cs fp, Along (ClassAt p.store sp) cs p.unit.classes fp := by
    refine exists_along fun c hc => ?_
    obtain ⟨ms, f, hms⟩ : ∃ ms f, Along (MemberAt p.store sp) ms c.members f := by
      refine exists_along fun m hm => ?_
      obtain ⟨ns, hmem, hslots⟩ := hmembers m (List.mem_flatMap.2 ⟨c, hc, hm⟩)
      exact exists_memberAt hsp hslots fun n hn => h n (List.mem_flatten.2 ⟨ns, hmem, hn⟩)
    obtain ⟨s, hs⟩ := hsp c.name
    exact ⟨⟨s, ms, c.span⟩, f, hs, rfl, hms⟩
  exact ⟨⟨package, is, cs, p.unit.span⟩, fp, hpackage, rfl, his, hcs⟩

end Assemble

/-! ## Descent through what is in reach -/

section Descent

variable {ν : Type} {p : Program}

/-- The nodes of a store. -/
def Store.nodes (st : Store) : List NodeRef :=
  [NodeSort.expr, .stmt, .arm, .type].flatMap fun s => (List.range (st.count s)).map (NodeRef.mk s)

theorem Store.mem_nodes {st : Store} {n : NodeRef} : n ∈ st.nodes ↔ st.Old n := by
  obtain ⟨sort, i⟩ := n
  cases sort <;> simp [nodes, Old]

theorem Store.old_of_slots {st : Store} {n : NodeRef} {ns : List NodeRef} (h : st.slots n = .ok ns) :
    st.Old n := by
  obtain ⟨sort, i⟩ := n
  cases sort with
  | expr =>
    obtain ⟨_, _, hnode, -⟩ := slots_expr_iff.1 h
    exact (Array.getElem?_eq_some_iff.1 hnode).1
  | stmt =>
    obtain ⟨_, hnode, -⟩ := slots_stmt_iff.1 h
    exact (Array.getElem?_eq_some_iff.1 hnode).1
  | arm =>
    obtain ⟨_, _, hnode, -⟩ := slots_arm_iff.1 h
    exact (Array.getElem?_eq_some_iff.1 hnode).1
  | type =>
    obtain ⟨_, hnode, -⟩ := slots_type_iff.1 h
    exact (Array.getElem?_eq_some_iff.1 hnode).1

namespace Program.WellFormed

theorem finite_reachable (hp : p.WellFormed) : Finite {h // p.Reachable h} := by
  refine Set.Finite.subset (List.finite_toSet (.unit :: p.store.nodes.map .node)) ?_
  intro h hr
  cases h with
  | unit => simp
  | node n =>
    obtain ⟨ns, hns⟩ := hp.inBounds _ hr
    exact List.mem_cons_of_mem _ (List.mem_map_of_mem (mem_nodes.2 (old_of_slots hns)))

/-- What holds of everything inside holds of all that is in reach, if it passes outwards. -/
theorem induct (hp : p.WellFormed) {P : Holder → Prop}
    (step : ∀ h, p.Reachable h → (∀ h', p.Contains h h' → P h') → P h) :
    ∀ h, p.Reachable h → P h := by
  let inside : {h // p.Reachable h} → {h // p.Reachable h} → Prop :=
    fun a b => Relation.TransGen p.Contains b.1 a.1
  have : Finite {h // p.Reachable h} := hp.finite_reachable
  have : IsTrans _ inside := ⟨fun a b c hab hbc => Relation.TransGen.trans hbc hab⟩
  have : Std.Irrefl inside := ⟨fun a ha => hp.acyclic a.1 a.2 ha⟩
  have hwf : WellFounded inside := Finite.wellFounded_of_trans_of_irrefl inside
  intro h hr
  refine hwf.induction (C := fun a => P a.1) ⟨h, hr⟩ ?_
  intro ⟨h, hr⟩ ih
  refine step h hr fun h' hc => ?_
  obtain ⟨i, n, hn, rfl⟩ := hc
  exact ih ⟨.node n, .slot hr hn⟩ (.single ⟨i, n, hn, rfl⟩)

/-- What holds of the holders of a node holds of all that is in reach, if it passes inwards. -/
theorem induct_outward (hp : p.WellFormed) {P : Holder → Prop}
    (step : ∀ h, p.Reachable h → (∀ h', p.Reachable h' → p.Contains h' h → P h') → P h) :
    ∀ h, p.Reachable h → P h := by
  let around : {h // p.Reachable h} → {h // p.Reachable h} → Prop :=
    fun a b => Relation.TransGen p.Contains a.1 b.1
  have : Finite {h // p.Reachable h} := hp.finite_reachable
  have : IsTrans _ around := ⟨fun a b c hab hbc => Relation.TransGen.trans hab hbc⟩
  have : Std.Irrefl around := ⟨fun a ha => hp.acyclic a.1 a.2 ha⟩
  have hwf : WellFounded around := Finite.wellFounded_of_trans_of_irrefl around
  intro h hr
  refine hwf.induction (C := fun a => P a.1) ⟨h, hr⟩ ?_
  intro ⟨h, hr⟩ ih
  exact step h hr fun h' hr' hc => ih ⟨h', hr'⟩ (.single hc)

theorem exists_stored (hp : p.WellFormed) {sp : Spelling ν} (hsp : ∀ n, ∃ s, sp n s) {n : NodeRef}
    (hn : p.Reachable (.node n)) : ∃ t f, Stored p.store sp t n f := by
  refine hp.induct (P := fun h => ∀ n, h = .node n → ∃ t f, Stored p.store sp t n f) ?_ _ hn n rfl
  rintro _ hr ih n rfl
  obtain ⟨ns, hns⟩ := hp.inBounds _ hr
  refine TupleAssign.exists_stored hsp hns fun m hm => ?_
  obtain ⟨i, hi⟩ := List.mem_iff_getElem?.1 hm
  exact ih (.node m) ⟨i, m, ⟨ns, hns, hi⟩, rfl⟩ m rfl

end Program.WellFormed

/-- The nodes of a stored tree are in reach if its root is. -/
theorem Stored.reachable {sp : Spelling ν} {t : Tree.Any ν} {n : NodeRef} {fp : List NodeRef}
    (h : Stored p.store sp t n fp) (hn : p.Reachable (.node n)) :
    ∀ m ∈ fp, p.Reachable (.node m) := by
  refine Stored.induct (P := fun _ n fp => p.Reachable (.node n) → ∀ m ∈ fp, p.Reachable (.node m))
    ?_ h hn
  intro t n ns fp _ slots ih hn m hm
  rcases List.mem_cons.1 hm with rfl | hm
  · exact hn
  · obtain ⟨_, _, k, hk, f, hR, hf⟩ := ih.exists_of_mem hm
    obtain ⟨i, hi⟩ := List.mem_iff_getElem?.1 hk
    exact hR.2 (.slot hn ⟨ns, slots, hi⟩) m hf

theorem UnitAt.reachable {sp : Spelling ν} {u : Tree.CompilationUnit ν} {fp : List NodeRef}
    (h : UnitAt p sp u fp) : ∀ n ∈ fp, p.Reachable (.node n) := by
  intro n hn
  obtain ⟨ns, hns, hparts⟩ := h.slots
  obtain ⟨_, _, k, hk, f, hR, hf⟩ := hparts.exists_of_mem hn
  obtain ⟨i, hi⟩ := List.mem_iff_getElem?.1 hk
  exact hR.reachable (.slot .unit ⟨ns, hns, hi⟩) n hf

end Descent

/-! ## Every node once -/

section Once

variable {ν : Type} {p : Program}

/-- If only the lists of `m` hold `n`, and each once, `n` occurs as often as `m` does. -/
theorem count_flatMap_le {f : NodeRef → List NodeRef} {n m : NodeRef} {l : List NodeRef}
    (hm : (f m).count n ≤ 1) (h : ∀ k ∈ l, n ∈ f k → k = m) : (l.flatMap f).count n ≤ l.count m := by
  induction l with
  | nil => simp
  | cons k l ih =>
    have hl := ih fun k hk => h k (List.mem_cons_of_mem _ hk)
    rw [List.flatMap_cons, List.count_append, List.count_cons]
    by_cases hk : k = m
    · subst hk
      simp only [beq_self_eq_true, if_true]
      omega
    · have hzero : (f k).count n = 0 :=
        List.count_eq_zero.2 fun hn => hk (h k (by simp) hn)
      simp only [hzero]
      omega

theorem Program.WellFormed.count_slots_le (hp : p.WellFormed) {h : Holder} {ns : List NodeRef}
    (hr : p.Reachable h) (hns : p.slots h = .ok ns) (n : NodeRef) : ns.count n ≤ 1 := by
  refine List.nodup_iff_count_le_one.1 ?_ n
  refine List.nodup_iff_injective_get.2 fun i j hij => Fin.ext ?_
  have hi : p.Holds h i (ns.get i) := ⟨ns, hns, by simp⟩
  have hj : p.Holds h j (ns.get i) := ⟨ns, hns, by rw [hij]; simp⟩
  exact (hp.exclusive _ _ _ _ _ hr hr hi hj).2

/-- The tree of a well-formed program visits no node twice. -/
theorem Program.WellFormed.nodup (hp : p.WellFormed) {sp : Spelling ν} {u : Tree.CompilationUnit ν}
    {fp : List NodeRef} (h : UnitAt p sp u fp) : fp.Nodup := by
  obtain ⟨ns, hns, hperm⟩ := h.perm_slots
  refine List.nodup_iff_count_le_one.2 fun n => ?_
  by_cases hn : n ∈ fp
  swap
  · simp [List.count_eq_zero.2 hn]
  -- A node occurs as often as its holder does, and the unit occurs once.
  refine hp.induct_outward (P := fun h => ∀ n, h = .node n → fp.count n ≤ 1) ?_ _
    (h.reachable n hn) n rfl
  rintro _ hr ih n rfl
  have hslots : ∀ {m}, n ∈ p.store.slotsOf m → ∃ i, p.Holds (.node m) i n := by
    intro m hm
    cases hms : p.store.slots m with
    | ok ms =>
      rw [slotsOf_eq hms] at hm
      obtain ⟨i, hi⟩ := List.mem_iff_getElem?.1 hm
      exact ⟨i, ms, hms, hi⟩
    | error e => simp [slotsOf, hms] at hm
  rw [hperm.count_eq, List.count_append]
  by_cases hunit : n ∈ ns
  · -- The unit holds the node, so no other node does.
    obtain ⟨i, hi⟩ := List.mem_iff_getElem?.1 hunit
    have hzero : (fp.flatMap p.store.slotsOf).count n = 0 := by
      refine List.count_eq_zero.2 fun hmem => ?_
      obtain ⟨m, hm, hnm⟩ := List.mem_flatMap.1 hmem
      obtain ⟨j, hj⟩ := hslots hnm
      cases (hp.exclusive _ _ _ _ _ (h.reachable m hm) .unit hj ⟨ns, hns, hi⟩).1
    have := hp.count_slots_le .unit hns n
    omega
  · have hzero : ns.count n = 0 := List.count_eq_zero.2 hunit
    by_cases hnode : n ∈ fp.flatMap p.store.slotsOf
    swap
    · simp [hzero, List.count_eq_zero.2 hnode]
    -- Only `m` holds the node, in one slot; and `m` occurs once, as it is further out.
    obtain ⟨m, hm, hnm⟩ := List.mem_flatMap.1 hnode
    obtain ⟨i, ms, hms, hi⟩ := hslots hnm
    have hle : (fp.flatMap p.store.slotsOf).count n ≤ fp.count m := by
      refine count_flatMap_le ?_ fun k hk hnk => ?_
      · rw [slotsOf_eq hms]
        exact hp.count_slots_le (h.reachable m hm) hms n
      · obtain ⟨j, hj⟩ := hslots hnk
        cases (hp.exclusive _ _ _ _ _ (h.reachable k hk) (h.reachable m hm) hj ⟨ms, hms, hi⟩).1
        rfl
    have := ih (.node m) (h.reachable m hm) ⟨i, n, ⟨ms, hms, hi⟩, rfl⟩ m rfl
    omega

/-- A well-formed program is a unit stored in distinct nodes. -/
theorem Program.WellFormed.exists_unitAt (hp : p.WellFormed) {sp : Spelling ν}
    (hsp : ∀ n, ∃ s, sp n s) : ∃ u fp, UnitAt p sp u fp ∧ fp.Nodup := by
  obtain ⟨ns, hns⟩ := hp.inBounds .unit .unit
  obtain ⟨u, fp, hu⟩ := TupleAssign.exists_unitAt hsp hns fun n hn => by
    obtain ⟨i, hi⟩ := List.mem_iff_getElem?.1 hn
    exact hp.exists_stored hsp (.slot .unit ⟨ns, hns, hi⟩)
  exact ⟨u, fp, hu, hp.nodup hu⟩

end Once

end TupleAssign
