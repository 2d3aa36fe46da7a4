import TupleAssign.Proofs.Stored
/-!
# Growing stores

`st.Grows st' touched` says how a store may change: tables get longer, and of what was there before
only the statement and arm nodes in `touched` may differ. A stored tree survives every such change
that leaves its statements and arms alone (`Stored.grow`).
-/

namespace TupleAssign

/-- A computation that goes on after another succeeds only if that one does. -/
theorem bind_eq_ok_iff {ε α β : Type} {x : Except ε α} {f : α → Except ε β} {b : β} :
    x >>= f = .ok b ↔ ∃ a, x = .ok a ∧ f a = .ok b := by
  cases x with
  | error e => simp [bind, Except.bind]
  | ok a => simp [bind, Except.bind]

theorem getElem?_of_prefix {α : Type} {t t' : Array α} (h : t.toList <+: t'.toList) {i : Nat} {a : α}
    (ha : t[i]? = some a) : t'[i]? = some a := by
  obtain ⟨rest, hrest⟩ := h
  rw [← Array.getElem?_toList] at ha ⊢
  rw [← hrest, List.getElem?_append_left (List.getElem?_eq_some_iff.1 ha).1, ha]

theorem Slice.read_of_prefix {s : NodeSort} {α : Type} {t t' : Array α}
    (h : t.toList <+: t'.toList) {r : Slice s} {l : List α} (hl : r.read t = .ok l) :
    r.read t' = .ok l := by
  obtain ⟨rest, hrest⟩ := h
  have hsize : t'.size = t.size + rest.length := by
    rw [← Array.length_toList, ← hrest, List.length_append, Array.length_toList]
  unfold Slice.read at hl ⊢
  split at hl
  · next hle =>
    rw [if_pos (by omega)]
    rw [← hl]
    have hstop : r.start + r.len ≤ t.toList.length := by simpa [Slice.stop] using hle
    simp only [Array.toList_extract, ← hrest, List.extract_eq_take_drop, Slice.stop]
    rw [List.drop_append_of_le_length (by omega),
      List.take_append_of_le_length (by rw [List.length_drop]; omega)]
  · cases hl

namespace Store

/-- The store got longer, and of the old nodes at most those in `touched` changed. -/
structure Grows (st st' : Store) (touched : NodeRef → Prop) : Prop where
  exprs : st.exprs.toList <+: st'.exprs.toList
  types : st.types.toList <+: st'.types.toList
  exprLists : st.exprLists.toList <+: st'.exprLists.toList
  stmtLists : st.stmtLists.toList <+: st'.stmtLists.toList
  typeLists : st.typeLists.toList <+: st'.typeLists.toList
  stmts_size : st.stmts.size ≤ st'.stmts.size
  arms_size : st.arms.size ≤ st'.arms.size
  stmts : ∀ i < st.stmts.size, ¬ touched ⟨.stmt, i⟩ → st'.stmts[i]? = st.stmts[i]?
  arms : ∀ i < st.arms.size, ¬ touched ⟨.arm, i⟩ → st'.arms[i]? = st.arms[i]?

/-- Nothing is touched. -/
def nothing : NodeRef → Prop := fun _ => False

namespace Grows

variable {st st' st'' : Store} {T T' U : NodeRef → Prop}

theorem refl (st : Store) (T : NodeRef → Prop) : st.Grows st T where
  exprs := List.prefix_rfl
  types := List.prefix_rfl
  exprLists := List.prefix_rfl
  stmtLists := List.prefix_rfl
  typeLists := List.prefix_rfl
  stmts_size := Nat.le_refl _
  arms_size := Nat.le_refl _
  stmts _ _ _ := rfl
  arms _ _ _ := rfl

theorem trans (h : st.Grows st' T) (h' : st'.Grows st'' T) : st.Grows st'' T where
  exprs := h.exprs.trans h'.exprs
  types := h.types.trans h'.types
  exprLists := h.exprLists.trans h'.exprLists
  stmtLists := h.stmtLists.trans h'.stmtLists
  typeLists := h.typeLists.trans h'.typeLists
  stmts_size := Nat.le_trans h.stmts_size h'.stmts_size
  arms_size := Nat.le_trans h.arms_size h'.arms_size
  stmts i hi hT := (h'.stmts i (Nat.lt_of_lt_of_le hi h.stmts_size) hT).trans (h.stmts i hi hT)
  arms i hi hT := (h'.arms i (Nat.lt_of_lt_of_le hi h.arms_size) hT).trans (h.arms i hi hT)

theorem mono (h : st.Grows st' T) (hT : ∀ n, st.Old n → T n → U n) : st.Grows st' U where
  exprs := h.exprs
  types := h.types
  exprLists := h.exprLists
  stmtLists := h.stmtLists
  typeLists := h.typeLists
  stmts_size := h.stmts_size
  arms_size := h.arms_size
  stmts i hi hU := h.stmts i hi (fun hTi => hU (hT _ hi hTi))
  arms i hi hU := h.arms i hi (fun hTi => hU (hT _ hi hTi))

theorem of_nothing (h : st.Grows st' nothing) : st.Grows st' T := h.mono (fun _ _ hn => hn.elim)

theorem count_le (h : st.Grows st' T) (s : NodeSort) : st.count s ≤ st'.count s := by
  cases s with
  | expr => simpa [count] using h.exprs.length_le
  | stmt => exact h.stmts_size
  | arm => exact h.arms_size
  | type => simpa [count] using h.types.length_le

theorem old (h : st.Grows st' T) {n : NodeRef} (hn : st.Old n) : st'.Old n :=
  Nat.lt_of_lt_of_le hn (h.count_le _)

theorem stmt_eq (h : st.Grows st' T) {i : Nat} {s : Node.Stmt} (hs : st.stmts[i]? = some s)
    (hT : ¬ T ⟨.stmt, i⟩) : st'.stmts[i]? = some s := by
  rw [h.stmts i (Array.getElem?_eq_some_iff.1 hs).1 hT, hs]

theorem arm_eq (h : st.Grows st' T) {i : Nat} {a : Node.Arm} (ha : st.arms[i]? = some a)
    (hT : ¬ T ⟨.arm, i⟩) : st'.arms[i]? = some a := by
  rw [h.arms i (Array.getElem?_eq_some_iff.1 ha).1 hT, ha]

theorem expr_eq (h : st.Grows st' T) {i : Nat} {e : Node.Expr} (he : st.exprs[i]? = some e) :
    st'.exprs[i]? = some e :=
  getElem?_of_prefix h.exprs he

theorem type_eq (h : st.Grows st' T) {i : Nat} {t : Node.Ty} (ht : st.types[i]? = some t) :
    st'.types[i]? = some t :=
  getElem?_of_prefix h.types ht

theorem exprList_eq (h : st.Grows st' T) {r : Slice .expr} {ids : List ExprId}
    (hr : st.exprList r = .ok ids) : st'.exprList r = .ok ids :=
  Slice.read_of_prefix h.exprLists hr

theorem stmtList_eq (h : st.Grows st' T) {r : Slice .stmt} {ids : List StmtId}
    (hr : st.stmtList r = .ok ids) : st'.stmtList r = .ok ids :=
  Slice.read_of_prefix h.stmtLists hr

theorem typeList_eq (h : st.Grows st' T) {r : Slice .type} {ids : List TypeId}
    (hr : st.typeList r = .ok ids) : st'.typeList r = .ok ids :=
  Slice.read_of_prefix h.typeLists hr

end Grows

/-! ## Reading one node -/

variable {st : Store}

theorem expr_eq_ok_iff {id : ExprId} {e : Node.Expr} :
    st.expr id = .ok e ↔ st.exprs[id.index]? = some e := by
  unfold expr
  split <;> simp_all

theorem stmt_eq_ok_iff {id : StmtId} {s : Node.Stmt} :
    st.stmt id = .ok s ↔ st.stmts[id.index]? = some s := by
  unfold stmt
  split <;> simp_all

theorem arm_eq_ok_iff {id : ArmId} {a : Node.Arm} :
    st.arm id = .ok a ↔ st.arms[id.index]? = some a := by
  unfold arm
  split <;> simp_all

theorem type_eq_ok_iff {id : TypeId} {t : Node.Ty} :
    st.type id = .ok t ↔ st.types[id.index]? = some t := by
  unfold type
  split <;> simp_all

/-! ## Slots of a node -/

theorem slots_expr_iff {i : Nat} {ns : List NodeRef} :
    st.slots ⟨.expr, i⟩ = .ok ns ↔ ∃ e ids, st.exprs[i]? = some e ∧ st.operands e.kind = .ok ids ∧
      ns = e.kind.typeSlots.map NodeId.ref ++ ids.map NodeId.ref := by
  simp only [slots, bind_eq_ok_iff, expr_eq_ok_iff, pure, Except.pure, Except.ok.injEq]
  constructor
  · rintro ⟨e, he, ids, hids, rfl⟩
    exact ⟨e, ids, he, hids, rfl⟩
  · rintro ⟨e, ids, he, hids, rfl⟩
    exact ⟨e, he, ids, hids, rfl⟩

theorem slots_stmt_iff {i : Nat} {ns : List NodeRef} :
    st.slots ⟨.stmt, i⟩ = .ok ns ↔ ∃ s, st.stmts[i]? = some s ∧ st.stmtSlots s.kind = .ok ns := by
  simp only [slots, bind_eq_ok_iff, stmt_eq_ok_iff]

theorem slots_arm_iff {i : Nat} {ns : List NodeRef} :
    st.slots ⟨.arm, i⟩ = .ok ns ↔ ∃ a ids, st.arms[i]? = some a ∧ st.stmtList a.stmts = .ok ids ∧
      ns = a.label.toList.map NodeId.ref ++ ids.map NodeId.ref := by
  simp only [slots, bind_eq_ok_iff, arm_eq_ok_iff, pure, Except.pure, Except.ok.injEq]
  constructor
  · rintro ⟨a, ha, ids, hids, rfl⟩
    exact ⟨a, ids, ha, hids, rfl⟩
  · rintro ⟨a, ids, ha, hids, rfl⟩
    exact ⟨a, ha, ids, hids, rfl⟩

theorem slots_type_iff {i : Nat} {ns : List NodeRef} :
    st.slots ⟨.type, i⟩ = .ok ns ↔ ∃ t, st.types[i]? = some t ∧ st.typeSlots t = .ok ns := by
  simp only [slots, bind_eq_ok_iff, type_eq_ok_iff]

/-! ## Slots in a larger store -/

variable {st' : Store} {T : NodeRef → Prop}

theorem Grows.operands_eq (h : st.Grows st' T) {k : Node.ExprKind} {ids : List ExprId}
    (hk : st.operands k = .ok ids) : st'.operands k = .ok ids := by
  cases k with
  | call r n args =>
    simp only [operands, bind_eq_ok_iff] at hk ⊢
    obtain ⟨as, has, hids⟩ := hk
    exact ⟨as, h.exprList_eq has, hids⟩
  | create t args => exact h.exprList_eq hk
  | _ => exact hk

theorem Grows.typeSlots_eq (h : st.Grows st' T) {t : Node.Ty} {ns : List NodeRef}
    (ht : st.typeSlots t = .ok ns) : st'.typeSlots t = .ok ns := by
  cases t with
  | named n args =>
    simp only [typeSlots, bind_eq_ok_iff] at ht ⊢
    obtain ⟨as, has, hns⟩ := ht
    exact ⟨as, h.typeList_eq has, hns⟩
  | _ => exact ht

theorem Grows.stmtSlots_eq (h : st.Grows st' T) {k : Node.StmtKind} {ns : List NodeRef}
    (hk : st.stmtSlots k = .ok ns) : st'.stmtSlots k = .ok ns := by
  cases k with
  | block b =>
    simp only [stmtSlots, bind_eq_ok_iff] at hk ⊢
    obtain ⟨ids, hids, hns⟩ := hk
    exact ⟨ids, h.stmtList_eq hids, hns⟩
  | _ => exact hk

/-- Types and expressions are never changed, so they may be touched. -/
def Spared (T : NodeRef → Prop) (n : NodeRef) : Prop := T n → n.sort = .expr ∨ n.sort = .type

theorem Grows.slots_eq (h : st.Grows st' T) {n : NodeRef} (hn : Spared T n) {ns : List NodeRef}
    (hs : st.slots n = .ok ns) : st'.slots n = .ok ns := by
  obtain ⟨sort, i⟩ := n
  cases sort with
  | expr =>
    obtain ⟨e, ids, he, hids, rfl⟩ := slots_expr_iff.1 hs
    exact slots_expr_iff.2 ⟨e, ids, h.expr_eq he, h.operands_eq hids, rfl⟩
  | stmt =>
    obtain ⟨s, hs, hns⟩ := slots_stmt_iff.1 hs
    refine slots_stmt_iff.2 ⟨s, h.stmt_eq hs (fun hT => ?_), h.stmtSlots_eq hns⟩
    simpa using hn hT
  | arm =>
    obtain ⟨a, ids, ha, hids, rfl⟩ := slots_arm_iff.1 hs
    refine slots_arm_iff.2 ⟨a, ids, h.arm_eq ha (fun hT => ?_), h.stmtList_eq hids, rfl⟩
    simpa using hn hT
  | type =>
    obtain ⟨t, ht, hns⟩ := slots_type_iff.1 hs
    exact slots_type_iff.2 ⟨t, h.type_eq ht, h.typeSlots_eq hns⟩

end Store

/-! ## Stored trees in a larger store -/

section

open Store

variable {ν : Type} {sp sp' : Spelling ν} {st st' : Store} {T : NodeRef → Prop}

theorem TyHead.imp (hsp : ∀ n s, sp n s → sp' n s) {node : Node.Ty} {t : Tree.Ty ν}
    (h : TyHead sp node t) : TyHead sp' node t := by
  cases h <;> constructor
  exact hsp _ _ ‹_›

theorem ExprHead.imp (hsp : ∀ n s, sp n s → sp' n s) {node : Node.Expr} {e : Tree.Expr ν}
    (h : ExprHead sp node e) : ExprHead sp' node e := by
  cases h <;> constructor
  all_goals first | exact hsp _ _ ‹_› | assumption

theorem StmtHead.imp (hsp : ∀ n s, sp n s → sp' n s) {node : Node.Stmt} {s : Tree.Stmt ν}
    (h : StmtHead sp node s) : StmtHead sp' node s := by
  cases h <;> constructor
  all_goals first | exact hsp _ _ ‹_› | assumption

theorem Head.grow (hg : st.Grows st' T) (hsp : ∀ n s, sp n s → sp' n s) {n : NodeRef}
    (hn : Spared T n) {t : Tree.Any ν} (h : Head sp st n t) : Head sp' st' n t := by
  obtain ⟨sort, i⟩ := n
  cases t with
  | ty t =>
    obtain ⟨rfl, node, hnode, head⟩ := h
    exact ⟨rfl, node, hg.type_eq hnode, head.imp hsp⟩
  | expr e =>
    obtain ⟨rfl, node, hnode, head⟩ := h
    exact ⟨rfl, node, hg.expr_eq hnode, head.imp hsp⟩
  | stmt s =>
    obtain ⟨rfl, node, hnode, head⟩ := h
    exact ⟨rfl, node, hg.stmt_eq hnode (fun hT => by simpa using hn hT), head.imp hsp⟩
  | arm a =>
    obtain ⟨rfl, node, hnode, head⟩ := h
    exact ⟨rfl, node, hg.arm_eq hnode (fun hT => by simpa using hn hT), head⟩

/-- A stored tree stays where it is when its statements and arms are not touched, also under a more
generous spelling. -/
theorem Stored.grow (hg : st.Grows st' T) (hsp : ∀ n s, sp n s → sp' n s) {t : Tree.Any ν}
    {n : NodeRef} {fp : List NodeRef} (h : Stored st sp t n fp) (hfp : ∀ m ∈ fp, Spared T m) :
    Stored st' sp' t n fp := by
  revert hfp
  refine Stored.induct (P := fun t n fp => (∀ m ∈ fp, Spared T m) → Stored st' sp' t n fp) ?_ h
  intro t n ns fp head slots ih hfp
  have hn := hfp n (by simp)
  refine .mk (head.grow hg hsp hn) (hg.slots_eq hn slots) (ih.imp ?_)
  exact fun _ _ _ f hf hR => hR.2 (fun m hm => hfp m (List.mem_cons_of_mem n (hf.subset hm)))

/-! Types and expressions are never changed, whatever is touched. -/

/-- A type or an expression. -/
def Tree.Any.inert : Tree.Any ν → Bool
  | .ty _ | .expr _ => true
  | .stmt _ | .arm _ => false

theorem Tree.Any.inert_of_mem_parts {t t' : Tree.Any ν} (ht : t.inert) (h : t' ∈ t.parts) :
    t'.inert := by
  cases t with
  | ty t =>
    cases t with
    | primitive p => simp [Tree.Any.parts] at h
    | named n args =>
      obtain ⟨a, -, rfl⟩ := List.mem_map.1 h
      rfl
    | array elem =>
      obtain rfl := List.mem_singleton.1 h
      rfl
  | expr e =>
    rcases List.mem_append.1 h with h | h <;>
    · obtain ⟨a, -, rfl⟩ := List.mem_map.1 h
      rfl
  | stmt s => cases ht
  | arm a => cases ht

theorem Stored.sort_of_inert {t : Tree.Any ν} {n : NodeRef} {fp : List NodeRef}
    (h : Stored st sp t n fp) (ht : t.inert) : ∀ m ∈ fp, m.sort = .expr ∨ m.sort = .type := by
  refine Stored.induct (P := fun t _ fp => t.inert → ∀ m ∈ fp, m.sort = .expr ∨ m.sort = .type) ?_
    h ht
  intro t n ns fp head _ ih ht m hm
  rcases List.mem_cons.1 hm with rfl | hm
  · rw [head.sort_eq]
    cases t with
    | ty t => exact .inr rfl
    | expr e => exact .inl rfl
    | stmt s => cases ht
    | arm a => cases ht
  · obtain ⟨t', ht', _, _, f, hR, hf⟩ := ih.exists_of_mem hm
    exact hR.2 (Tree.Any.inert_of_mem_parts ht ht') m hf

theorem Stored.grow_inert (hg : st.Grows st' T) (hsp : ∀ n s, sp n s → sp' n s) {t : Tree.Any ν}
    {n : NodeRef} {fp : List NodeRef} (h : Stored st sp t n fp) (ht : t.inert) :
    Stored st' sp' t n fp :=
  h.grow hg hsp fun m hm _ => h.sort_of_inert ht m hm

end

end TupleAssign
