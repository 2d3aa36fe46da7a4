import TupleAssign.Proofs.Building
/-!
# Writes

A write is a single call on a store. It enters a node, a row of switch arms or a list, or it
exchanges the kind of a statement or the list of an arm. `Write.run` carries it out and gives the
answer to it, an id or a slice.

`Write.kept` says what the answer is good for after any further writes: expressions, types and lists
read as they were entered, a statement reads with the kind and an arm with the list that was given
to it last. An id is the length that its table had (`Write.index_eq`), and a slice covers exactly
the stretch by which its table got longer (`Write.slice_eq`).
-/

namespace TupleAssign

open Store

/-! ## Calls and answers -/

inductive Answer where
  | id {s : NodeSort} (i : NodeId s)
  | slice {s : NodeSort} (r : Slice s)
  | done
  | fault (f : Fault)

inductive Write where
  | expr (e : Node.Expr)
  | stmt (s : Node.Stmt)
  | type (t : Node.Ty)
  | arms (as : List Node.Arm)
  | exprList (ids : List ExprId)
  | stmtList (ids : List StmtId)
  | typeList (ids : List TypeId)
  | setKind (id : StmtId) (kind : Node.StmtKind)
  | setStmts (id : ArmId) (stmts : Slice .stmt)

namespace Write

/-- An exchange that fails leaves the store as it is. -/
def attempt (f : Store → Except Fault Store) : StateM Store Answer := fun st =>
  match f st with
  | .ok st' => (.done, st')
  | .error e => (.fault e, st)

def run : Write → StateM Store Answer
  | .expr e => do return .id (← allocExpr e)
  | .stmt s => do return .id (← allocStmt s)
  | .type t => do return .id (← allocType t)
  | .arms as => do return .slice (← allocArms as)
  | .exprList ids => do return .slice (← allocExprList ids)
  | .stmtList ids => do return .slice (← allocStmtList ids)
  | .typeList ids => do return .slice (← allocTypeList ids)
  | .setKind id kind => attempt (·.setStmtKind id kind)
  | .setStmts id stmts => attempt (·.setArmStmts id stmts)

/-- The sort of the nodes that a write enters. -/
def sort? : Write → Option NodeSort
  | .expr _ => some .expr
  | .stmt _ => some .stmt
  | .type _ => some .type
  | .arms _ => some .arm
  | .exprList _ | .stmtList _ | .typeList _ | .setKind _ _ | .setStmts _ _ => none

/-- The node that a write changes. -/
def target? : Write → Option NodeRef
  | .setKind id _ => some id.ref
  | .setStmts id _ => some id.ref
  | _ => none

/-- The kind that a write gives to a statement. -/
def kindFor? (id : StmtId) : Write → Option Node.StmtKind
  | .setKind id' kind => if id' = id then some kind else none
  | _ => none

/-- The list that a write gives to an arm. -/
def stmtsFor? (id : ArmId) : Write → Option (Slice .stmt)
  | .setStmts id' stmts => if id' = id then some stmts else none
  | _ => none

end Write

/-- The kind that a statement was given last. -/
def lastKind (ws : List Write) (id : StmtId) : Option Node.StmtKind :=
  (ws.filterMap (Write.kindFor? id)).getLast?

/-- The list that an arm was given last. -/
def lastStmts (ws : List Write) (id : ArmId) : Option (Slice .stmt) :=
  (ws.filterMap (Write.stmtsFor? id)).getLast?

namespace Store

/-- The store after some writes. -/
def after (st : Store) (ws : List Write) : Store := ws.foldl (fun st w => (w.run st).2) st

@[simp]
theorem after_nil (st : Store) : st.after [] = st := rfl

@[simp]
theorem after_cons (st : Store) (w : Write) (ws : List Write) :
    st.after (w :: ws) = (w.run st).2.after ws := rfl

@[simp]
theorem after_append (st : Store) (ws ws' : List Write) :
    st.after (ws ++ ws') = (st.after ws).after ws' := List.foldl_append

/-- The length of the table that slices of a sort are taken from. -/
def listed (st : Store) : NodeSort → Nat
  | .expr => st.exprLists.size
  | .stmt => st.stmtLists.size
  | .arm => st.arms.size
  | .type => st.typeLists.size

theorem Grows.listed_le {st st' : Store} {T : NodeRef → Prop} (h : st.Grows st' T) (s : NodeSort) :
    st.listed s ≤ st'.listed s := by
  cases s with
  | expr => simpa [listed] using h.exprLists.length_le
  | stmt => simpa [listed] using h.stmtLists.length_le
  | arm => exact h.arms_size
  | type => simpa [listed] using h.typeLists.length_le

end Store

/-! ## One write -/

namespace Write

variable {st : Store}

theorem run_setKind {id : StmtId} {s : Node.Stmt} (kind : Node.StmtKind)
    (h : st.stmts[id.index]? = some s) :
    ((setKind id kind).run st).1 = .done ∧
      ((setKind id kind).run st).2.stmts[id.index]? = some { s with kind } ∧
      st.Grows ((setKind id kind).run st).2 (fun n => id.ref = n) := by
  obtain ⟨st', hset, hs, hg⟩ := setStmtKind_eq kind h
  have hrun : (setKind id kind).run st = (.done, st') := by simp only [run, attempt, hset]
  rw [hrun]
  exact ⟨rfl, hs, hg⟩

theorem run_setKind_of_none {id : StmtId} (kind : Node.StmtKind) (h : st.stmts[id.index]? = none) :
    (setKind id kind).run st = (.fault (.noNode .stmt id.index), st) := by
  simp only [run, attempt, setStmtKind, Store.stmt, h]
  rfl

theorem run_setStmts {id : ArmId} {a : Node.Arm} (stmts : Slice .stmt)
    (h : st.arms[id.index]? = some a) :
    ((setStmts id stmts).run st).1 = .done ∧
      ((setStmts id stmts).run st).2.arms[id.index]? = some { a with stmts } ∧
      st.Grows ((setStmts id stmts).run st).2 (fun n => id.ref = n) := by
  obtain ⟨st', hset, ha, hg⟩ := setArmStmts_eq stmts h
  have hrun : (setStmts id stmts).run st = (.done, st') := by simp only [run, attempt, hset]
  rw [hrun]
  exact ⟨rfl, ha, hg⟩

theorem run_setStmts_of_none {id : ArmId} (stmts : Slice .stmt) (h : st.arms[id.index]? = none) :
    (setStmts id stmts).run st = (.fault (.noNode .arm id.index), st) := by
  simp only [run, attempt, setArmStmts, Store.arm, h]
  rfl

theorem grows (w : Write) (st : Store) : st.Grows (w.run st).2 (fun n => w.target? = some n) := by
  cases w with
  | expr e => exact (allocExpr_adds st e).grows.of_nothing
  | stmt s => exact (allocStmt_adds st s).grows.of_nothing
  | type t => exact (allocType_adds st t).grows.of_nothing
  | arms as => exact (allocArms_adds st as).grows.of_nothing
  | exprList ids => exact (allocExprList_adds st ids).grows.of_nothing
  | stmtList ids => exact (allocStmtList_adds st ids).grows.of_nothing
  | typeList ids => exact (allocTypeList_adds st ids).grows.of_nothing
  | setKind id kind =>
    cases h : st.stmts[id.index]? with
    | none =>
      rw [run_setKind_of_none kind h]
      exact .refl st _
    | some s => exact (run_setKind kind h).2.2.mono fun _ _ hn => congrArg some hn
  | setStmts id stmts =>
    cases h : st.arms[id.index]? with
    | none =>
      rw [run_setStmts_of_none stmts h]
      exact .refl st _
    | some a => exact (run_setStmts stmts h).2.2.mono fun _ _ hn => congrArg some hn

/-- A write gives a statement the kind it names it for, and no other. -/
theorem stmts_run (w : Write) {i : Nat} {s : Node.Stmt} (h : st.stmts[i]? = some s) :
    (w.run st).2.stmts[i]? = some (((w.kindFor? ⟨i⟩).map fun kind => { s with kind }).getD s) := by
  cases w with
  | setKind id kind =>
    by_cases hid : id = ⟨i⟩
    · subst hid
      simpa [kindFor?] using (run_setKind kind h).2.1
    · have hne : (setKind id kind).target? ≠ some ⟨.stmt, i⟩ := fun he =>
        hid (NodeId.ref_injective (Option.some.inj he))
      simpa [kindFor?, hid] using ((setKind id kind).grows st).stmt_eq h hne
  | setStmts id stmts =>
    refine ((setStmts id stmts).grows st).stmt_eq h fun he => ?_
    cases congrArg NodeRef.sort (Option.some.inj he)
  | _ => exact (grows _ st).stmt_eq h nofun

/-- A write gives an arm the list it names it for, and no other. -/
theorem arms_run (w : Write) {i : Nat} {a : Node.Arm} (h : st.arms[i]? = some a) :
    (w.run st).2.arms[i]? =
      some (((w.stmtsFor? ⟨i⟩).map fun stmts => { a with stmts }).getD a) := by
  cases w with
  | setStmts id stmts =>
    by_cases hid : id = ⟨i⟩
    · subst hid
      simpa [stmtsFor?] using (run_setStmts stmts h).2.1
    · have hne : (setStmts id stmts).target? ≠ some ⟨.arm, i⟩ := fun he =>
        hid (NodeId.ref_injective (Option.some.inj he))
      simpa [stmtsFor?, hid] using ((setStmts id stmts).grows st).arm_eq h hne
  | setKind id kind =>
    refine ((setKind id kind).grows st).arm_eq h fun he => ?_
    cases congrArg NodeRef.sort (Option.some.inj he)
  | _ => exact (grows _ st).arm_eq h nofun

/-- An exchange answers neither an id nor a slice. -/
theorem answer_of_target {w : Write} {a : Answer} (h : (w.run st).1 = a) (hw : w.target?.isSome) :
    a = .done ∨ ∃ f, a = .fault f := by
  subst h
  cases w with
  | setKind id kind =>
    cases hs : st.stmts[id.index]? with
    | none => exact .inr ⟨_, congrArg Prod.fst (run_setKind_of_none kind hs)⟩
    | some s => exact .inl (run_setKind kind hs).1
  | setStmts id stmts =>
    cases ha : st.arms[id.index]? with
    | none => exact .inr ⟨_, congrArg Prod.fst (run_setStmts_of_none stmts ha)⟩
    | some a => exact .inl (run_setStmts stmts ha).1
  | _ => cases hw

/-- The id of a new node is the length of its table. -/
theorem index_eq {w : Write} {s : NodeSort} {i : NodeId s} (h : (w.run st).1 = .id i) :
    i.index = st.count s ∧ i.index + 1 = (w.run st).2.count s := by
  cases w with
  | expr e | stmt s | type t =>
    cases h
    exact ⟨rfl, (Array.size_push _).symm⟩
  | arms as | exprList ids | stmtList ids | typeList ids => cases h
  | setKind id kind | setStmts id stmts =>
    rcases answer_of_target h rfl with hdone | ⟨f, hf⟩
    · cases hdone
    · cases hf

/-- A slice is what its table got longer by. -/
theorem slice_eq {w : Write} {s : NodeSort} {r : Slice s} (h : (w.run st).1 = .slice r) :
    r.start = st.listed s ∧ r.stop = (w.run st).2.listed s := by
  cases w with
  | arms as | exprList ids | stmtList ids | typeList ids =>
    cases h
    exact ⟨rfl, (@Array.size_append _ _ (List.toArray _)).symm⟩
  | expr e | stmt s | type t => cases h
  | setKind id kind | setStmts id stmts =>
    rcases answer_of_target h rfl with hdone | ⟨f, hf⟩
    · cases hdone
    · cases hf

/-- A write makes no table longer but the one it enters nodes in. -/
theorem count_run {w : Write} {s : NodeSort} (h : w.sort? ≠ some s) :
    (w.run st).2.count s = st.count s := by
  cases w with
  | setKind id kind =>
    simp only [run, attempt, setStmtKind, Store.stmt]
    cases s <;> cases st.stmts[id.index]? <;> simp [count, bind, Except.bind, pure, Except.pure]
  | setStmts id stmts =>
    simp only [run, attempt, setArmStmts, Store.arm]
    cases s <;> cases st.arms[id.index]? <;> simp [count, bind, Except.bind, pure, Except.pure]
  | exprList ids | stmtList ids | typeList ids => cases s <;> rfl
  | expr e | stmt e | type e | arms e =>
    cases s with
    | _ => first | rfl | exact (h rfl).elim

end Write

/-! ## Many writes -/

namespace Store

theorem grows_after (st : Store) (ws : List Write) :
    st.Grows (st.after ws) (fun n => ∃ w ∈ ws, w.target? = some n) := by
  induction ws generalizing st with
  | nil => exact .refl st _
  | cons w ws ih =>
    have hw := (w.grows st).mono (U := fun n => ∃ w' ∈ w :: ws, w'.target? = some n)
      fun n _ hn => ⟨w, List.mem_cons_self, hn⟩
    refine hw.trans ((ih _).mono fun n _ hn => ?_)
    obtain ⟨w', hw', hn⟩ := hn
    exact ⟨w', List.mem_cons_of_mem w hw', hn⟩

theorem count_after {ws : List Write} {s : NodeSort} (st : Store) (h : ∀ w ∈ ws, w.sort? ≠ some s) :
    (st.after ws).count s = st.count s := by
  induction ws generalizing st with
  | nil => rfl
  | cons w ws ih =>
    rw [after_cons, ih _ fun w' hw' => h w' (List.mem_cons_of_mem w hw'),
      Write.count_run (h w List.mem_cons_self)]

/-- If each write replaces a part of what is read by the part it gives, then in the end the part is
the one given last. -/
theorem read_after {α β : Type} (read : Store → Option β) (given? : Write → Option α)
    (put : α → β → β) (hput : ∀ a a' b, put a' (put a b) = put a' b)
    (hstep : ∀ w st b, read st = some b →
      read (w.run st).2 = some (((given? w).map (put · b)).getD b))
    (ws : List Write) {st : Store} {b : β} (h : read st = some b) :
    read (st.after ws) = some (((ws.filterMap given?).getLast?.map (put · b)).getD b) := by
  induction ws generalizing st b with
  | nil => exact h
  | cons w ws ih =>
    rw [after_cons, ih (hstep w st b h), List.filterMap_cons]
    cases given? w with
    | none => rfl
    | some a =>
      rw [List.getLast?_cons]
      cases (ws.filterMap given?).getLast? with
      | none => rfl
      | some a' => exact congrArg some (hput a a' b)

theorem stmt_after (ws : List Write) {st : Store} {id : StmtId} {s : Node.Stmt}
    (h : st.stmt id = .ok s) :
    (st.after ws).stmt id = .ok ⟨(lastKind ws id).getD s.kind, s.span⟩ := by
  have hread := read_after (fun st => st.stmts[id.index]?) (Write.kindFor? id)
    (fun kind (s : Node.Stmt) => { s with kind }) (fun _ _ _ => rfl)
    (fun w _ _ hs => w.stmts_run hs) ws (stmt_eq_ok_iff.1 h)
  rw [stmt_eq_ok_iff, hread, lastKind]
  cases (ws.filterMap (Write.kindFor? id)).getLast? <;> rfl

theorem arm_after (ws : List Write) {st : Store} {id : ArmId} {a : Node.Arm}
    (h : st.arm id = .ok a) :
    (st.after ws).arm id = .ok ⟨a.label, (lastStmts ws id).getD a.stmts, a.span⟩ := by
  have hread := read_after (fun st => st.arms[id.index]?) (Write.stmtsFor? id)
    (fun stmts (a : Node.Arm) => { a with stmts }) (fun _ _ _ => rfl)
    (fun w _ _ ha => w.arms_run ha) ws (arm_eq_ok_iff.1 h)
  rw [arm_eq_ok_iff, hread, lastStmts]
  cases (ws.filterMap (Write.stmtsFor? id)).getLast? <;> rfl

end Store

/-! ## What an answer is good for -/

/-- What was written reads from the answer to the write, after `later` was written too. -/
inductive Kept (st : Store) (later : List Write) : Write → Answer → Prop
  | expr {e : Node.Expr} {i : ExprId} (h : st.expr i = .ok e) : Kept st later (.expr e) (.id i)
  | type {t : Node.Ty} {i : TypeId} (h : st.type i = .ok t) : Kept st later (.type t) (.id i)
  | stmt {s : Node.Stmt} {i : StmtId}
      (h : st.stmt i = .ok ⟨(lastKind later i).getD s.kind, s.span⟩) :
      Kept st later (.stmt s) (.id i)
  | arms {as : List Node.Arm} {r : Slice .arm} {ids : List ArmId} (hids : r.ids r.len = .ok ids)
      (hvalid : ∀ i ∈ ids, i.isValid)
      (h : List.Forall₂
        (fun i a => st.arm i = .ok ⟨a.label, (lastStmts later i).getD a.stmts, a.span⟩) ids as) :
      Kept st later (.arms as) (.slice r)
  | exprList {ids : List ExprId} {r : Slice .expr} (h : st.exprList r = .ok ids) :
      Kept st later (.exprList ids) (.slice r)
  | stmtList {ids : List StmtId} {r : Slice .stmt} (h : st.stmtList r = .ok ids) :
      Kept st later (.stmtList ids) (.slice r)
  | typeList {ids : List TypeId} {r : Slice .type} (h : st.typeList r = .ok ids) :
      Kept st later (.typeList ids) (.slice r)
  | setKind {id : StmtId} {kind : Node.StmtKind} {s : Node.Stmt} (h : st.stmt id = .ok s)
      (hkind : s.kind = (lastKind later id).getD kind) : Kept st later (.setKind id kind) .done
  | setStmts {id : ArmId} {stmts : Slice .stmt} {a : Node.Arm} (h : st.arm id = .ok a)
      (hstmts : a.stmts = (lastStmts later id).getD stmts) :
      Kept st later (.setStmts id stmts) .done
  | fault {w : Write} {f : Fault} (h : w.target?.isSome) : Kept st later w (.fault f)

theorem isValid_of_lt {s : NodeSort} {i : NodeId s} (h : i.index < absentRaw) : i.isValid := by
  simp only [NodeId.isValid, bne_iff_ne, ne_eq]
  exact Nat.ne_of_lt h

theorem Write.kept (w : Write) (st : Store) (later : List Write)
    (hfits : ((w.run st).2.after later).arms.size ≤ absentRaw) :
    Kept ((w.run st).2.after later) later w (w.run st).1 := by
  have hg := (w.run st).2.grows_after later
  cases w with
  | expr e => exact .expr (expr_eq_ok_iff.2 (hg.expr_eq (exprs_allocExpr st e)))
  | type t => exact .type (type_eq_ok_iff.2 (hg.type_eq (types_allocType st t)))
  | stmt s => exact .stmt (stmt_after later (stmt_eq_ok_iff.2 (stmts_allocStmt st s)))
  | arms as =>
    have hle : (allocArms as st).2.arms.size ≤ absentRaw := Nat.le_trans hg.arms_size hfits
    refine .arms (ids_allocArms st as hle) (fun i hi => ?_) ?_
    · have hold := (allocArms_adds st as).old i.ref (List.mem_map_of_mem hi)
      exact isValid_of_lt (Nat.lt_of_lt_of_le hold hle)
    · refine List.forall₂_iff_get.2 ⟨by simp [armIds], fun i _ hi => ?_⟩
      have hread : ((Write.arms as).run st).2.arm ⟨st.arms.size + i⟩ = .ok (as.get ⟨i, hi⟩) :=
        arm_eq_ok_iff.2 (arms_allocArms st as (List.getElem?_eq_getElem hi))
      simpa [armIds] using arm_after later hread
  | exprList ids => exact .exprList (hg.exprList_eq (exprList_allocExprList st ids))
  | stmtList ids => exact .stmtList (hg.stmtList_eq (stmtList_allocStmtList st ids))
  | typeList ids => exact .typeList (hg.typeList_eq (typeList_allocTypeList st ids))
  | setKind id kind =>
    cases h : st.stmts[id.index]? with
    | none =>
      rw [run_setKind_of_none kind h]
      exact .fault rfl
    | some s =>
      obtain ⟨hdone, hs, -⟩ := run_setKind kind h
      rw [hdone]
      exact .setKind (stmt_after later (stmt_eq_ok_iff.2 hs)) rfl
  | setStmts id stmts =>
    cases h : st.arms[id.index]? with
    | none =>
      rw [run_setStmts_of_none stmts h]
      exact .fault rfl
    | some a =>
      obtain ⟨hdone, ha, -⟩ := run_setStmts stmts h
      rw [hdone]
      exact .setStmts (arm_after later (arm_eq_ok_iff.2 ha)) rfl

end TupleAssign
