import Mathlib.Data.List.Nodup
import TupleAssign.Proofs.StoredForms
import TupleAssign.Store.Build
/-!
# Building in a store

`st.Adds st' fp` says that `st'` is `st` with more in it and that `fp` lists some of the nodes that
are new. Nodes added one after the other are distinct, so what is added in steps stays free of
repetitions (`Store.Adds.trans`). The rest of the file says what each allocation adds.
-/

namespace TupleAssign

namespace Store

/-- Nothing old has changed, and the nodes listed are distinct and new. -/
structure Adds (st st' : Store) (fp : List NodeRef) : Prop where
  grows : st.Grows st' nothing
  nodup : fp.Nodup
  fresh : ∀ n ∈ fp, ¬ st.Old n
  old : ∀ n ∈ fp, st'.Old n

namespace Adds

variable {st st' st'' : Store} {f f' : List NodeRef}

theorem refl (st : Store) : st.Adds st [] := ⟨.refl st _, .nil, by simp, by simp⟩

theorem of_grows (h : st.Grows st' nothing) : st.Adds st' [] := ⟨h, .nil, by simp, by simp⟩

theorem trans (h : st.Adds st' f) (h' : st'.Adds st'' f') : st.Adds st'' (f ++ f') where
  grows := h.grows.trans h'.grows
  nodup := by
    refine List.nodup_append.2 ⟨h.nodup, h'.nodup, ?_⟩
    rintro n hn _ hn' rfl
    exact h'.fresh n hn' (h.old n hn)
  fresh n hn := by
    rcases List.mem_append.1 hn with hn | hn
    · exact h.fresh n hn
    · exact fun hold => h'.fresh n hn (h.grows.old hold)
  old n hn := by
    rcases List.mem_append.1 hn with hn | hn
    · exact h'.grows.old (h.old n hn)
    · exact h'.old n hn

theorem perm (h : st.Adds st' f) (hp : f.Perm f') : st.Adds st' f' where
  grows := h.grows
  nodup := hp.nodup_iff.1 h.nodup
  fresh n hn := h.fresh n (hp.mem_iff.2 hn)
  old n hn := h.old n (hp.mem_iff.2 hn)

/-- One node more, listed first. -/
theorem cons (h : st.Adds st' f) {n : NodeRef} (h' : st'.Adds st'' [n]) : st.Adds st'' (n :: f) :=
  (h.trans h').perm (List.perm_append_singleton n f)

/-- A list more, which is no node. -/
theorem list (h : st.Adds st' f) (h' : st'.Adds st'' []) : st.Adds st'' f := by
  simpa using h.trans h'

end Adds

/-! ## Single nodes -/

variable (st : Store)

theorem prefix_push {α : Type} (t : Array α) (a : α) : t.toList <+: (t.push a).toList := by
  simp

theorem prefix_append {α : Type} (t : Array α) (l : List α) :
    t.toList <+: (t ++ l.toArray).toList := by
  simp

theorem allocExpr_adds (e : Node.Expr) :
    st.Adds (allocExpr e st).2 [(allocExpr e st).1.ref] where
  grows := { Grows.refl st nothing with exprs := prefix_push st.exprs e }
  nodup := by simp
  fresh := by simp [allocExpr, Old, count]
  old := by simp [allocExpr, Old, count]

@[simp]
theorem exprs_allocExpr (e : Node.Expr) :
    (allocExpr e st).2.exprs[(allocExpr e st).1.index]? = some e := by
  simp [allocExpr]

theorem allocType_adds (t : Node.Ty) :
    st.Adds (allocType t st).2 [(allocType t st).1.ref] where
  grows := { Grows.refl st nothing with types := prefix_push st.types t }
  nodup := by simp
  fresh := by simp [allocType, Old, count]
  old := by simp [allocType, Old, count]

@[simp]
theorem types_allocType (t : Node.Ty) :
    (allocType t st).2.types[(allocType t st).1.index]? = some t := by
  simp [allocType]

theorem allocStmt_adds (s : Node.Stmt) :
    st.Adds (allocStmt s st).2 [(allocStmt s st).1.ref] where
  grows := { Grows.refl st nothing with
    stmts_size := by simp [allocStmt]
    stmts := fun i hi _ => by simp [allocStmt, Array.getElem?_push, Nat.ne_of_lt hi] }
  nodup := by simp
  fresh := by simp [allocStmt, Old, count]
  old := by simp [allocStmt, Old, count]

@[simp]
theorem stmts_allocStmt (s : Node.Stmt) :
    (allocStmt s st).2.stmts[(allocStmt s st).1.index]? = some s := by
  simp [allocStmt]

/-! ## Lists -/

theorem Slice.read_append {s : NodeSort} {α : Type} (t : Array α) (l : List α) :
    (⟨t.size, l.length⟩ : Slice s).read (t ++ l.toArray) = .ok l := by
  simp [Slice.read, Slice.stop, List.extract_eq_take_drop]

theorem allocExprList_adds (ids : List ExprId) : st.Adds (allocExprList ids st).2 [] :=
  .of_grows { Grows.refl st nothing with exprLists := prefix_append st.exprLists ids }

@[simp]
theorem exprList_allocExprList (ids : List ExprId) :
    (allocExprList ids st).2.exprList (allocExprList ids st).1 = .ok ids :=
  Slice.read_append st.exprLists ids

theorem allocStmtList_adds (ids : List StmtId) : st.Adds (allocStmtList ids st).2 [] :=
  .of_grows { Grows.refl st nothing with stmtLists := prefix_append st.stmtLists ids }

@[simp]
theorem stmtList_allocStmtList (ids : List StmtId) :
    (allocStmtList ids st).2.stmtList (allocStmtList ids st).1 = .ok ids :=
  Slice.read_append st.stmtLists ids

theorem allocTypeList_adds (ids : List TypeId) : st.Adds (allocTypeList ids st).2 [] :=
  .of_grows { Grows.refl st nothing with typeLists := prefix_append st.typeLists ids }

@[simp]
theorem typeList_allocTypeList (ids : List TypeId) :
    (allocTypeList ids st).2.typeList (allocTypeList ids st).1 = .ok ids :=
  Slice.read_append st.typeLists ids

/-! ## Arms -/

/-- The ids of arms entered side by side. -/
def armIds (start count : Nat) : List ArmId := (List.range count).map fun i => ⟨start + i⟩

theorem allocArms_adds (as : List Node.Arm) :
    st.Adds (allocArms as st).2 ((armIds st.arms.size as.length).map NodeId.ref) where
  grows := { Grows.refl st nothing with
    arms_size := by simp [allocArms]
    arms := fun i hi _ => by simp [allocArms, Array.getElem?_append, hi] }
  nodup := by
    rw [List.nodup_map_iff NodeId.ref_injective, armIds]
    exact List.nodup_range.map fun i j h => by simpa using h
  fresh := by simp [armIds, Old, count]
  old := by
    simp only [armIds, Old, count, allocArms, List.mem_map, List.mem_range]
    rintro n ⟨_, ⟨i, hi, rfl⟩, rfl⟩
    simpa using hi

theorem arms_allocArms (as : List Node.Arm) {i : Nat} {a : Node.Arm} (ha : as[i]? = some a) :
    (allocArms as st).2.arms[st.arms.size + i]? = some a := by
  simp [allocArms, Array.getElem?_append, ha]

theorem mapM_eq_ok_map {α β ε : Type} {f : α → Except ε β} {g : α → β} {l : List α}
    (h : ∀ a ∈ l, f a = .ok (g a)) : l.mapM f = .ok (l.map g) := by
  induction l with
  | nil => rfl
  | cons a l ih =>
    have hl := ih fun a ha => h a (List.mem_cons_of_mem _ ha)
    simp [List.mapM_cons, h a (by simp), hl, bind, Except.bind, pure, Except.pure]

/-- Arms that all fit below the largest id can be enumerated. -/
theorem ids_allocArms (as : List Node.Arm) (h : (allocArms as st).2.arms.size ≤ absentRaw) :
    (allocArms as st).1.ids (allocArms as st).1.len = .ok (armIds st.arms.size as.length) := by
  simp only [allocArms, Array.size_append, List.size_toArray] at h ⊢
  simp only [Slice.ids, Nat.min_self, armIds]
  refine mapM_eq_ok_map fun i hi => if_pos ?_
  have := List.mem_range.1 hi
  omega

/-! ## Exchanges -/

theorem setStmtKind_eq {st : Store} {id : StmtId} {s : Node.Stmt} (kind : Node.StmtKind)
    (h : st.stmts[id.index]? = some s) :
    ∃ st', st.setStmtKind id kind = .ok st' ∧ st'.stmts[id.index]? = some { s with kind } ∧
      st.Grows st' (fun n => id.ref = n) := by
  have hlt := (Array.getElem?_eq_some_iff.1 h).1
  refine ⟨_, by simp only [setStmtKind, stmt_eq_ok_iff.2 h]; rfl, by simp [hlt], ?_⟩
  refine { Grows.refl st _ with stmts_size := by simp, stmts := fun i _ hi => ?_ }
  have hne : id.index ≠ i := fun he => hi (by rw [← he]; rfl)
  exact Array.getElem?_setIfInBounds_ne hne

theorem setArmStmts_eq {st : Store} {id : ArmId} {a : Node.Arm} (stmts : Slice .stmt)
    (h : st.arms[id.index]? = some a) :
    ∃ st', st.setArmStmts id stmts = .ok st' ∧ st'.arms[id.index]? = some { a with stmts } ∧
      st.Grows st' (fun n => id.ref = n) := by
  have hlt := (Array.getElem?_eq_some_iff.1 h).1
  refine ⟨_, by simp only [setArmStmts, arm_eq_ok_iff.2 h]; rfl, by simp [hlt], ?_⟩
  refine { Grows.refl st _ with arms_size := by simp, arms := fun i _ hi => ?_ }
  have hne : id.index ≠ i := fun he => hi (by rw [← he]; rfl)
  exact Array.getElem?_setIfInBounds_ne hne

end Store

end TupleAssign
