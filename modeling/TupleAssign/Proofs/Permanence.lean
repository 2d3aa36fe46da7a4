import TupleAssign.Proofs.TypeCopies
import TupleAssign.Proofs.Writes
/-!
# Ids and slices are permanent

A session carries out operations one after the other, from an empty store on. Each operation is made
of writes (`Op.exists_runsAs`), so a session is one long list of writes, kept here in a record that
has the writes of each operation side by side (`Recorded`).

`perform_permanent` says what someone may rely on who holds an id or a slice from any point of a
session. The one operation whose answer is not the length its table had before is the copy of a type
that has parts: the copies of the parts are entered first (`copyType_array_behind`).
-/

namespace TupleAssign

open Store

/-! ## Operations -/

inductive Op where
  | write (w : Write)
  | expr (span : Span) (kind : Node.ExprKind)
  | call (span : Span) (receiver : Option ExprId) (method : Name) (args : List ExprId)
  | create (span : Span) (type : TypeId) (args : List ExprId)
  | stmt (span : Span) (kind : Node.StmtKind)
  | assignStmt (span : Span) (name : Name) (value : ExprId)
  | block (span : Span) (stmts : List StmtId)
  | blockStmt (span : Span) (stmts : List StmtId)
  | switchStmt (span : Span) (selector : ExprId) (arms : List (Option ExprId × List StmtId))
  | namedType (name : Name) (args : List TypeId)
  | copyType (id : TypeId)

/-- The arms of a switch whose statement lists lie one behind the other. -/
def armsFrom (span : Span) (start : Nat) : List (Option ExprId × List StmtId) → List Node.Arm
  | [] => []
  | (label, stmts) :: arms =>
    ⟨label, ⟨start, stmts.length⟩, span⟩ :: armsFrom span (start + stmts.length) arms

def Answer.ofExcept {s : NodeSort} : Except Fault (NodeId s) → Answer
  | .ok i => .id i
  | .error f => .fault f

/-- Enters types and lists of types. -/
def Write.isOfTypes : Write → Bool
  | .type _ | .typeList _ => true
  | _ => false

namespace Op

def run : Op → StateM Store Answer
  | .write w => w.run
  | .expr span kind => do return .id (← Build.expr span kind)
  | .call span receiver method args => do return .id (← Build.call span receiver method args)
  | .create span type args => do return .id (← Build.create span type args)
  | .stmt span kind => do return .id (← Build.stmt span kind)
  | .assignStmt span name value => do return .id (← Build.assignStmt span name value)
  | .block span stmts => do return .slice (← Build.block span stmts).stmts
  | .blockStmt span stmts => do return .id (← Build.blockStmt span stmts)
  | .switchStmt span selector arms => do return .id (← Build.switchStmt span selector arms)
  | .namedType name args => do return .id (← Build.namedType name args)
  | .copyType id => do return .ofExcept (← (Store.copyType id).run)

/-- The writes of an operation on a store, in order. -/
inductive Writes (st : Store) : Op → List Write → Prop
  | write (w : Write) : Writes st (.write w) [w]
  | expr (span : Span) (kind : Node.ExprKind) : Writes st (.expr span kind) [.expr ⟨kind, span⟩]
  | call (span : Span) (receiver : Option ExprId) (method : Name) (args : List ExprId) :
      Writes st (.call span receiver method args)
        [.exprList args, .expr ⟨.call receiver method ⟨st.exprLists.size, args.length⟩, span⟩]
  | create (span : Span) (type : TypeId) (args : List ExprId) :
      Writes st (.create span type args)
        [.exprList args, .expr ⟨.create type ⟨st.exprLists.size, args.length⟩, span⟩]
  | stmt (span : Span) (kind : Node.StmtKind) : Writes st (.stmt span kind) [.stmt ⟨kind, span⟩]
  | assignStmt (span : Span) (name : Name) (value : ExprId) :
      Writes st (.assignStmt span name value)
        [.expr ⟨.ident name, span⟩, .expr ⟨.assign ⟨st.exprs.size⟩ value, span⟩,
          .stmt ⟨.expr ⟨st.exprs.size + 1⟩, span⟩]
  | block (span : Span) (stmts : List StmtId) : Writes st (.block span stmts) [.stmtList stmts]
  | blockStmt (span : Span) (stmts : List StmtId) :
      Writes st (.blockStmt span stmts)
        [.stmtList stmts, .stmt ⟨.block ⟨⟨st.stmtLists.size, stmts.length⟩, span⟩, span⟩]
  | switchStmt (span : Span) (selector : ExprId) (arms : List (Option ExprId × List StmtId)) :
      Writes st (.switchStmt span selector arms)
        (arms.map (fun arm => .stmtList arm.2) ++
          [.arms (armsFrom span st.stmtLists.size arms),
            .stmt ⟨.switch selector ⟨st.arms.size, arms.length⟩, span⟩])
  | namedType (name : Name) (args : List TypeId) :
      Writes st (.namedType name args)
        [.typeList args, .type (.named name ⟨st.typeLists.size, args.length⟩)]
  | copyType (id : TypeId) {ws : List Write} (h : ∀ w ∈ ws, w.isOfTypes) :
      Writes st (.copyType id) ws

/-- The operation does what these writes do, and answers what the last of them answers. Only a copy
may break off before its last write. -/
structure RunsAs (st : Store) (op : Op) (ws : List Write) : Prop where
  writes : op.Writes st ws
  store_eq : (op.run st).2 = st.after ws
  answer_eq : (∃ id f, op = .copyType id ∧ (op.run st).1 = .fault f) ∨
    ∃ before w, ws = before ++ [w] ∧ (op.run st).1 = (w.run (st.after before)).1

end Op

/-! ## Switches -/

/-- What the arms of a switch are entered as, and the store with their statement lists. -/
theorem makeArms_eq (span : Span) (arms : List Load.ArmDraft) (st : Store) :
    arms.mapM (Load.makeArm span) st =
      (armsFrom span st.stmtLists.size arms, st.after (arms.map fun arm => .stmtList arm.2)) := by
  induction arms generalizing st with
  | nil => rfl
  | cons arm arms ih =>
    have hsize : (allocStmtList arm.2 st).2.stmtLists.size = st.stmtLists.size + arm.2.length := by
      simp [allocStmtList]
    rw [Load.mapM_makeArm_cons, ih, hsize]
    rfl

theorem length_armsFrom (span : Span) (start : Nat) (arms : List Load.ArmDraft) :
    (armsFrom span start arms).length = arms.length := by
  induction arms generalizing start with
  | nil => rfl
  | cons arm arms ih => exact congrArg (· + 1) (ih _)

/-- The statement lists of a switch are no nodes. -/
theorem count_after_lists (st : Store) (arms : List Load.ArmDraft) (s : NodeSort) :
    (st.after (arms.map fun arm => .stmtList arm.2)).count s = st.count s := by
  refine st.count_after fun w hw => ?_
  obtain ⟨arm, -, rfl⟩ := List.mem_map.1 hw
  exact nofun

theorem switchStmt_after (span : Span) (selector : ExprId)
    (arms : List (Option ExprId × List StmtId)) (st : Store) :
    Build.switchStmt span selector arms st =
      allocStmt ⟨.switch selector ⟨st.arms.size, arms.length⟩, span⟩
        (st.after (arms.map (fun arm => .stmtList arm.2) ++
          [.arms (armsFrom span st.stmtLists.size arms)])) := by
  have hslice : (allocArms (armsFrom span st.stmtLists.size arms)
      (st.after (arms.map fun arm => .stmtList arm.2))).1 = ⟨st.arms.size, arms.length⟩ := by
    have hsize : (st.after (arms.map fun arm => .stmtList arm.2)).arms.size = st.arms.size :=
      count_after_lists st arms .arm
    simp only [allocArms, hsize, length_armsFrom]
  rw [Load.switchStmt_eq, makeArms_eq, after_append]
  simp only [hslice]
  rfl

/-! ## Copies of types -/

/-- The id is that of a type entered last. -/
def LastType (st : Store) (ws : List Write) (id : TypeId) : Prop :=
  ∃ before t, ws = before ++ [.type t] ∧ id = ⟨(st.after before).types.size⟩

/-- The edit enters types and lists of types and nothing else, also when it breaks off. Of what it
gives in the end `Q` holds. -/
def Edit.EntersTypes {α : Type} (Q : Store → List Write → α → Prop) (m : Edit α) : Prop :=
  ∀ st : Store, ∃ ws : List Write, (∀ w ∈ ws, w.isOfTypes) ∧ (m.run.run st).2 = st.after ws ∧
    ∀ a, (m.run.run st).1 = .ok a → Q st ws a

/-- No demand on what an edit gives. -/
def Edit.anyResult {α : Type} (_ : Store) (_ : List Write) (_ : α) : Prop := True

namespace Edit.EntersTypes

variable {α β : Type}

theorem pure (a : α) : EntersTypes anyResult (Pure.pure a : Edit α) :=
  fun _ => ⟨[], by simp, rfl, fun _ _ => trivial⟩

theorem get : EntersTypes anyResult (MonadState.get : Edit Store) :=
  fun _ => ⟨[], by simp, rfl, fun _ _ => trivial⟩

theorem ofExcept (x : Except Fault α) : EntersTypes anyResult (liftExcept x : Edit α) := by
  intro st
  cases x <;> exact ⟨[], by simp, rfl, fun _ _ => trivial⟩

theorem allocTypeList (ids : List TypeId) :
    EntersTypes anyResult (liftM (Store.allocTypeList ids) : Edit (Slice .type)) :=
  fun _ => ⟨[.typeList ids], by simp [Write.isOfTypes], rfl, fun _ _ => trivial⟩

theorem allocType (t : Node.Ty) :
    EntersTypes LastType (liftM (Store.allocType t) : Edit TypeId) := by
  refine fun st => ⟨[.type t], by simp [Write.isOfTypes], rfl, fun id hid => ?_⟩
  exact ⟨[], t, rfl, (Except.ok.inj hid).symm⟩

theorem any {Q : Store → List Write → α → Prop} {m : Edit α} (h : EntersTypes Q m) :
    EntersTypes anyResult m := by
  intro st
  obtain ⟨ws, htypes, hst, -⟩ := h st
  exact ⟨ws, htypes, hst, fun _ _ => trivial⟩

theorem bind {P : Store → List Write → α → Prop} {Q : Store → List Write → β → Prop} {m : Edit α}
    {k : α → Edit β} (h : EntersTypes P m) (hk : ∀ a, EntersTypes Q (k a))
    (hQ : ∀ st ws ws' b, Q (st.after ws) ws' b → Q st (ws ++ ws') b) : EntersTypes Q (m >>= k) := by
  intro st
  obtain ⟨ws, htypes, hst, -⟩ := h st
  change ∃ ws : List Write, _ ∧
    (ExceptT.bindCont k (m.run.run st).1 (m.run.run st).2).2 = st.after ws ∧
    ∀ b, (ExceptT.bindCont k (m.run.run st).1 (m.run.run st).2).1 = .ok b → Q st ws b
  generalize m.run.run st = res at hst
  obtain ⟨a, st'⟩ := res
  obtain rfl : st' = st.after ws := hst
  cases a with
  | error f => exact ⟨ws, htypes, rfl, nofun⟩
  | ok a =>
    obtain ⟨ws', htypes', hst', hb⟩ := hk a (st.after ws)
    refine ⟨ws ++ ws', fun w hw => ?_, hst'.trans (st.after_append ws ws').symm,
      fun b h => hQ st ws ws' b (hb b h)⟩
    rcases List.mem_append.1 hw with hw | hw
    · exact htypes w hw
    · exact htypes' w hw

theorem mapM {f : α → Edit β} (h : ∀ a, EntersTypes anyResult (f a)) (as : List α) :
    EntersTypes anyResult (as.mapM f) := by
  induction as with
  | nil => exact pure []
  | cons a as ih =>
    rw [List.mapM_cons]
    refine (h a).bind (fun _ => ih.bind (fun _ => pure _) ?_) ?_
    all_goals exact fun _ _ _ _ _ => trivial

theorem lastType_append (st : Store) (ws ws' : List Write) (id : TypeId)
    (h : LastType (st.after ws) ws' id) : LastType st (ws ++ ws') id := by
  obtain ⟨before, t, rfl, rfl⟩ := h
  exact ⟨ws ++ before, t, (List.append_assoc ..).symm, by rw [after_append]⟩

theorem copyTypeTo (levels : Nat) (id : TypeId) :
    EntersTypes LastType (Store.copyTypeTo levels id) := by
  induction levels generalizing id with
  | zero => exact fun _ => ⟨[], by simp, rfl, nofun⟩
  | succ levels ih =>
    rw [Store.copyTypeTo]
    refine get.bind (fun st => ?_) lastType_append
    refine (ofExcept _).bind (fun node => ?_) lastType_append
    cases node with
    | primitive p => exact allocType _
    | named name args =>
      refine get.bind (fun st => ?_) lastType_append
      refine (ofExcept _).bind (fun parts => ?_) lastType_append
      refine (mapM (fun part => (ih part).any) parts).bind (fun copies => ?_) lastType_append
      exact (allocTypeList copies).bind (fun list => allocType _) lastType_append
    | array elem => exact (ih elem).bind (fun copy => allocType _) lastType_append

theorem copyType (id : TypeId) : EntersTypes LastType (Store.copyType id) :=
  get.bind (fun _ => copyTypeTo _ id) lastType_append

end Edit.EntersTypes

theorem Edit.exists_of_run_bind {α β : Type} {m : Edit α} {k : α → Edit β} {st st' : Store} {b : β}
    (h : (m >>= k).run.run st = (.ok b, st')) :
    ∃ a st₁, m.run.run st = (.ok a, st₁) ∧ (k a).run.run st₁ = (.ok b, st') := by
  change ExceptT.bindCont k (m.run.run st).1 (m.run.run st).2 = (.ok b, st') at h
  generalize m.run.run st = res at h
  obtain ⟨a, st₁⟩ := res
  cases a with
  | error f => cases h
  | ok a => exact ⟨a, st₁, rfl, h⟩

theorem Edit.eq_of_run_liftExcept {α : Type} {x : Except Fault α} {a : α} {st st' : Store}
    (h : (liftExcept x : Edit α).run.run st = (.ok a, st')) : x = .ok a ∧ st' = st := by
  cases x with
  | error f => cases h
  | ok b => cases h; exact ⟨rfl, rfl⟩

namespace Edit.EntersTypes

variable {α : Type} {Q : Store → List Write → α → Prop} {st st' : Store}

theorem types_le {m : Edit α} (h : EntersTypes Q m) {r : Except Fault α}
    (hrun : m.run.run st = (r, st')) : st.types.size ≤ st'.types.size := by
  obtain ⟨ws, -, hst, -⟩ := h st
  rw [hrun] at hst
  obtain rfl : st' = st.after ws := hst
  exact (st.grows_after ws).count_le .type

theorem types_lt {m : Edit TypeId} (h : EntersTypes LastType m) {id : TypeId}
    (hrun : m.run.run st = (.ok id, st')) : st.types.size < st'.types.size := by
  obtain ⟨ws, -, hst, hlast⟩ := h st
  rw [hrun] at hst hlast
  obtain rfl : st' = st.after ws := hst
  obtain ⟨before, t, rfl, -⟩ := hlast id rfl
  have hle := (st.grows_after before).count_le .type
  have hnew : ((Write.type t).run (st.after before)).1 =
      .id (⟨(st.after before).types.size⟩ : TypeId) := rfl
  have hsize := (Write.index_eq hnew).2
  rw [after_append]
  exact Nat.lt_of_le_of_lt hle (Nat.lt_of_lt_of_eq (Nat.lt_succ_self _) hsize)

end Edit.EntersTypes

/-- A type that refers to further types. -/
def Node.Ty.hasParts : Node.Ty → Bool
  | .primitive _ => false
  | .named _ args => !args.isEmpty
  | .array _ => true

theorem types_size_of_mapM_copyTypeTo {levels : Nat} {ids copies : List TypeId} {st st' : Store}
    (h : (ids.mapM (copyTypeTo levels)).run.run st = (.ok copies, st')) :
    st'.types.size = st.types.size ↔ ids = [] := by
  cases ids with
  | nil =>
    cases h
    simp
  | cons id ids =>
    rw [List.mapM_cons] at h
    obtain ⟨copy, st₁, hcopy, h⟩ := Edit.exists_of_run_bind h
    obtain ⟨rest, st₂, hrest, h⟩ := Edit.exists_of_run_bind h
    cases h
    have hlt := (Edit.EntersTypes.copyTypeTo levels id).types_lt hcopy
    have hle := (Edit.EntersTypes.mapM (fun id => (Edit.EntersTypes.copyTypeTo levels id).any)
      ids).types_le hrest
    exact ⟨fun heq => by omega, fun hnil => by cases hnil⟩

/-- The copy of a type comes right behind the types that were there exactly if the type has no
parts. -/
theorem index_copyType {id copy : TypeId} {st st' : Store}
    (h : (Store.copyType id).run.run st = (.ok copy, st')) :
    ∃ t, st.type id = .ok t ∧ (copy.index = st.types.size ↔ t.hasParts = false) := by
  obtain ⟨_, _, hget, h⟩ := Edit.exists_of_run_bind h
  cases hget
  rw [copyTypeTo] at h
  obtain ⟨_, _, hget, h⟩ := Edit.exists_of_run_bind h
  cases hget
  obtain ⟨t, _, ht, h⟩ := Edit.exists_of_run_bind h
  obtain ⟨ht, rfl⟩ := Edit.eq_of_run_liftExcept ht
  refine ⟨t, ht, ?_⟩
  cases t with
  | primitive p =>
    cases h
    simp [Node.Ty.hasParts]
  | array elem =>
    obtain ⟨_, st₁, helem, h⟩ := Edit.exists_of_run_bind h
    have hlt := (Edit.EntersTypes.copyTypeTo _ elem).types_lt helem
    cases h
    simp only [Node.Ty.hasParts, Bool.true_eq_false, iff_false]
    exact Nat.ne_of_gt hlt
  | named name args =>
    obtain ⟨_, _, hget, h⟩ := Edit.exists_of_run_bind h
    cases hget
    obtain ⟨parts, _, hparts, h⟩ := Edit.exists_of_run_bind h
    obtain ⟨hparts, rfl⟩ := Edit.eq_of_run_liftExcept hparts
    obtain ⟨copies, st₁, hcopies, h⟩ := Edit.exists_of_run_bind h
    obtain ⟨list, _, hlist, h⟩ := Edit.exists_of_run_bind h
    cases hlist
    cases h
    have hlen := Slice.length_of_read hparts
    simp only [Node.Ty.hasParts, Slice.isEmpty, Bool.not_eq_false', beq_iff_eq, ← hlen,
      List.length_eq_zero_iff]
    exact types_size_of_mapM_copyTypeTo hcopies

/-! ## Operations are made of writes -/

namespace Op

theorem RunsAs.of_last {op : Op} {st : Store} {ws : List Write} (before : List Write) (w : Write)
    (hws : ws = before ++ [w]) (hwrites : op.Writes st ws)
    (hrun : op.run st = w.run (st.after before)) : op.RunsAs st ws := by
  subst hws
  exact ⟨hwrites, by rw [hrun, after_append]; rfl, .inr ⟨before, w, rfl, by rw [hrun]⟩⟩

theorem exists_runsAs (op : Op) (st : Store) : ∃ ws, op.RunsAs st ws := by
  cases op with
  | write w => exact ⟨_, .of_last [] w rfl (.write w) rfl⟩
  | expr span kind => exact ⟨_, .of_last [] _ rfl (.expr span kind) rfl⟩
  | call span receiver method args =>
    exact ⟨_, .of_last [.exprList args] _ rfl (.call span receiver method args) rfl⟩
  | create span type args =>
    exact ⟨_, .of_last [.exprList args] _ rfl (.create span type args) rfl⟩
  | stmt span kind => exact ⟨_, .of_last [] _ rfl (.stmt span kind) rfl⟩
  | assignStmt span name value =>
    refine ⟨_, .of_last [_, _] _ rfl (.assignStmt span name value) ?_⟩
    -- The id of the assignment is the length of a table to which the target was just added.
    exact congrArg (fun n => (Write.stmt ⟨.expr ⟨n⟩, span⟩).run (st.after
      [.expr ⟨.ident name, span⟩, .expr ⟨.assign ⟨st.exprs.size⟩ value, span⟩])) (Array.size_push _)
  | block span stmts => exact ⟨_, .of_last [] _ rfl (.block span stmts) rfl⟩
  | blockStmt span stmts =>
    exact ⟨_, .of_last [.stmtList stmts] _ rfl (.blockStmt span stmts) rfl⟩
  | switchStmt span selector arms =>
    refine ⟨_, .of_last _ _ (List.append_assoc _ [_] [_]).symm (.switchStmt span selector arms) ?_⟩
    exact congrArg (fun x : StmtId × Store => (Answer.id x.1, x.2))
      (switchStmt_after span selector arms st)
  | namedType name args =>
    exact ⟨_, .of_last [.typeList args] _ rfl (.namedType name args) rfl⟩
  | copyType id =>
    obtain ⟨ws, htypes, hst, hlast⟩ := Edit.EntersTypes.copyType id st
    refine ⟨ws, .copyType id htypes, hst, ?_⟩
    cases hrun : ((Store.copyType id).run.run st).1 with
    | error f => exact .inl ⟨id, f, rfl, congrArg Answer.ofExcept hrun⟩
    | ok copy =>
      obtain ⟨before, t, hws, hcopy⟩ := hlast copy hrun
      refine .inr ⟨before, .type t, hws, ?_⟩
      rw [hcopy] at hrun
      exact congrArg Answer.ofExcept hrun

theorem index_add_one {op : Op} {st : Store} {s : NodeSort} {i : NodeId s}
    (h : (op.run st).1 = .id i) : i.index + 1 = (op.run st).2.count s := by
  obtain ⟨ws, hruns⟩ := op.exists_runsAs st
  rcases hruns.answer_eq with ⟨_, f, -, hf⟩ | ⟨before, w, rfl, hanswer⟩
  · cases hf.symm.trans h
  · rw [hruns.store_eq, after_append]
    exact (Write.index_eq (hanswer.symm.trans h)).2

theorem index_eq_of_ne {op : Op} {st : Store} {s : NodeSort} {i : NodeId s}
    (h : (op.run st).1 = .id i) (hop : ∀ id, op ≠ .copyType id) : i.index = st.count s := by
  cases op with
  | write w => exact (Write.index_eq h).1
  | expr | call | create | stmt | assignStmt | blockStmt | namedType =>
    cases h
    rfl
  | block => cases h
  | switchStmt span selector arms =>
    have hrun := congrArg (fun x : StmtId × Store => Answer.id x.1)
      (switchStmt_after span selector arms st)
    cases hrun.symm.trans h
    rw [after_append]
    exact count_after_lists st arms .stmt
  | copyType id => exact (hop id rfl).elim

/-- The operation copies a type that has parts. -/
def CopiesParts (st : Store) (op : Op) : Prop :=
  ∃ id t, op = .copyType id ∧ st.type id = .ok t ∧ t.hasParts

theorem copiesParts_iff {st : Store} {id : TypeId} {t : Node.Ty} (ht : st.type id = .ok t) :
    (Op.copyType id).CopiesParts st ↔ t.hasParts := by
  constructor
  · rintro ⟨id', t', hid, ht', hparts⟩
    cases hid
    cases ht.symm.trans ht'
    exact hparts
  · exact fun hparts => ⟨id, t, rfl, ht, hparts⟩

/-- Only the copy of a type with parts does not come right behind the nodes that were there. -/
theorem index_eq_iff {op : Op} {st : Store} {s : NodeSort} {i : NodeId s}
    (h : (op.run st).1 = .id i) : i.index = st.count s ↔ ¬ op.CopiesParts st := by
  by_cases hop : ∃ id, op = .copyType id
  · obtain ⟨id, rfl⟩ := hop
    cases hrun : (Store.copyType id).run.run st with
    | mk r st' =>
      have hanswer : ((Op.copyType id).run st).1 = .ofExcept r :=
        congrArg (fun x : Except Fault TypeId × Store => Answer.ofExcept x.1) hrun
      cases r with
      | error f => cases hanswer.symm.trans h
      | ok copy =>
        cases hanswer.symm.trans h
        obtain ⟨t, ht, hiff⟩ := index_copyType hrun
        rw [copiesParts_iff ht, Bool.not_eq_true]
        exact hiff
  · refine ⟨?_, fun _ => index_eq_of_ne h fun id hid => hop ⟨id, hid⟩⟩
    rintro - ⟨id, _, hid, -⟩
    exact hop ⟨id, hid⟩

end Op

/-! ## Sessions -/

namespace Store

/-- The store after some operations. -/
def perform (st : Store) (ops : List Op) : Store := ops.foldl (fun st op => (op.run st).2) st

theorem perform_append (st : Store) (ops ops' : List Op) :
    st.perform (ops ++ ops') = (st.perform ops).perform ops' := List.foldl_append

/-- Every node has an id that is not the absent one. -/
def Addressable (st : Store) : Prop := ∀ s, st.count s ≤ absentRaw

theorem Grows.addressable {st st' : Store} {T : NodeRef → Prop} (h : st.Grows st' T)
    (hst' : st'.Addressable) : st.Addressable :=
  fun s => Nat.le_trans (h.count_le s) (hst' s)

end Store

/-- The writes of some operations, those of each side by side. -/
inductive Recorded : Store → List Op → List (List Write) → Prop
  | nil (st : Store) : Recorded st [] []
  | cons {st : Store} {op : Op} {ops : List Op} {ws : List Write} {log : List (List Write)}
      (head : op.RunsAs st ws) (tail : Recorded (op.run st).2 ops log) :
      Recorded st (op :: ops) (ws :: log)

theorem exists_recorded (ops : List Op) (st : Store) : ∃ log, Recorded st ops log := by
  induction ops generalizing st with
  | nil => exact ⟨[], .nil st⟩
  | cons op ops ih =>
    obtain ⟨ws, head⟩ := op.exists_runsAs st
    obtain ⟨log, tail⟩ := ih (op.run st).2
    exact ⟨ws :: log, .cons head tail⟩

/-- After each of the operations the store is as the writes up to it leave it. -/
theorem Recorded.perform_take {st : Store} {ops : List Op} {log : List (List Write)}
    (h : Recorded st ops log) (k : Nat) :
    st.perform (ops.take k) = st.after (log.take k).flatten := by
  induction h generalizing k with
  | nil st => simp [perform]
  | @cons st op ops ws log head tail ih =>
    cases k with
    | zero => rfl
    | succ k =>
      rw [List.take_succ_cons, List.take_succ_cons, List.flatten_cons, after_append,
        ← head.store_eq, ← ih k]
      rfl

theorem Recorded.perform_eq {st : Store} {ops : List Op} {log : List (List Write)}
    (h : Recorded st ops log) : st.perform ops = st.after log.flatten := by
  have htake := h.perform_take (ops.length + log.length)
  rwa [List.take_of_length_le (Nat.le_add_right ..), List.take_of_length_le (Nat.le_add_left ..)]
    at htake

theorem perform_grows (st : Store) (ops : List Op) : ∃ T, st.Grows (st.perform ops) T := by
  obtain ⟨log, h⟩ := exists_recorded ops st
  rw [h.perform_eq]
  exact ⟨_, st.grows_after _⟩

/-- What may be relied on in a session. An id is valid and the length its table had when the node
was entered, which is the length before the operation unless that copies a type with parts. What was
written reads from the answer to it at every later point, and slices of one table do not overlap. -/
theorem perform_permanent (ops : List Op) (hids : (perform {} ops).Addressable) :
    (∀ before op rest s (i : NodeId s), ops = before ++ op :: rest →
      (op.run (perform {} before)).1 = .id i →
        i.isValid ∧ i.index + 1 = (perform {} (before ++ [op])).count s ∧
          (i.index = (perform {} before).count s ↔ ¬ op.CopiesParts (perform {} before))) ∧
    ∃ log, Recorded {} ops log ∧
      (∀ k, perform {} (ops.take k) = after {} (log.take k).flatten) ∧
      (∀ before w later rest, log.flatten = before ++ w :: (later ++ rest) →
        let answer := (w.run (after {} before)).1
        (∀ s (i : NodeId s), answer = .id i → i.isValid ∧ i.index = (after {} before).count s) ∧
          Kept (after {} (before ++ w :: later)) later w answer) ∧
      ∀ before w between w' rest s (r r' : Slice s),
        log.flatten = before ++ w :: (between ++ w' :: rest) →
        (w.run (after {} before)).1 = .slice r →
        (w'.run (after {} (before ++ w :: between))).1 = .slice r' → r.stop ≤ r'.start := by
  obtain ⟨log, hlog⟩ := exists_recorded ops {}
  refine ⟨?_, log, hlog, hlog.perform_take, ?_, ?_⟩
  · rintro before op rest s i rfl hanswer
    have hop : (op.run (perform {} before)).2 = perform {} (before ++ [op]) :=
      (perform_append {} before [op]).symm
    have hadd := Op.index_add_one hanswer
    rw [hop] at hadd
    refine ⟨?_, hadd, Op.index_eq_iff hanswer⟩
    obtain ⟨T, hgrows⟩ := perform_grows (perform {} (before ++ [op])) rest
    rw [← perform_append, List.append_assoc] at hgrows
    exact isValid_of_lt (Nat.lt_of_lt_of_le (by omega) (hgrows.addressable hids s))
  · intro before w later rest hsplit answer
    rw [hlog.perform_eq, hsplit] at hids
    have hlater : (after {} (before ++ w :: later)).Addressable := by
      refine (grows_after _ rest).addressable ?_
      rwa [← after_append, List.append_assoc, List.cons_append]
    rw [after_append, after_cons] at hlater ⊢
    refine ⟨fun s i hi => ?_, w.kept _ later (hlater .arm)⟩
    obtain ⟨hindex, hadd⟩ := Write.index_eq hi
    have hle := ((w.run (after {} before)).2.grows_after later).addressable hlater s
    exact ⟨isValid_of_lt (by omega), hindex⟩
  · intro before w between w' rest s r r' hsplit hr hr'
    rw [(Write.slice_eq hr).2, (Write.slice_eq hr').1, after_append, after_cons]
    exact ((w.run (after {} before)).2.grows_after between).listed_le s

/-- A type with an argument and its copy, a call, and a switch of which an arm is given another list
and a statement another kind. -/
def mixedOps : List Op :=
  [.write (.type (.primitive .int)),
    .namedType ⟨1⟩ [⟨0⟩],
    .copyType ⟨1⟩,
    .expr ⟨0, 1⟩ (.int 7),
    .call ⟨0, 4⟩ none ⟨2⟩ [⟨0⟩],
    .stmt ⟨0, 5⟩ (.expr ⟨1⟩),
    .switchStmt ⟨6, 9⟩ ⟨0⟩ [(some ⟨0⟩, [⟨0⟩]), (none, [])],
    .block ⟨6, 9⟩ [⟨0⟩, ⟨1⟩],
    .write (.setStmts ⟨1⟩ ⟨1, 2⟩),
    .write (.setKind ⟨0⟩ .empty)]

theorem perform_permanent_mixedOps :
    (perform {} mixedOps).Addressable ∧
      (Op.copyType ⟨1⟩).CopiesParts (perform {} (mixedOps.take 2)) ∧
      ∃ log, Recorded {} mixedOps log ∧
        ∀ before w later rest, log.flatten = before ++ w :: (later ++ rest) →
          Kept (after {} (before ++ w :: later)) later w (w.run (after {} before)).1 := by
  have hids : (perform {} mixedOps).Addressable := by
    intro s
    cases s <;> decide +kernel
  obtain ⟨hindex, log, hlog, -, hkept, -⟩ := perform_permanent mixedOps hids
  have hcopy := hindex (mixedOps.take 2) (.copyType ⟨1⟩) (mixedOps.drop 3) .type ⟨3⟩ rfl rfl
  have hbehind : 3 ≠ (perform {} (mixedOps.take 2)).count .type := by decide +kernel
  exact ⟨hids, not_not.1 (mt hcopy.2.2.2 hbehind), log, hlog,
    fun before w later rest h => (hkept before w later rest h).2⟩

/-- The copy of an array comes behind the copy of its element type, not right behind the types that
were there. -/
theorem copyType_array_behind :
    let before : List Op := [.write (.type (.primitive .int)), .write (.type (.array ⟨0⟩))]
    (perform {} (before ++ [.copyType ⟨1⟩])).Addressable ∧
      ((Op.copyType ⟨1⟩).run (perform {} before)).1 = .id (⟨3⟩ : TypeId) ∧
      (perform {} before).count .type = 2 := by
  refine ⟨fun s => ?_, rfl, rfl⟩
  cases s <;> decide +kernel

end TupleAssign
