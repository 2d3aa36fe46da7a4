import TupleAssign.Desugar
import TupleAssign.Proofs.Growth
/-!
# What a walk carries through

A walk over a stored unit opens and closes frames and scopes, declares, and handles the unpackings
that it reads. A relation between states that each of these steps respects holds between the states
before and after a whole walk, over whatever program (`Carried.walk`).
-/

namespace TupleAssign.Desugar

theorem run_bind_eq_ok_iff {α β : Type} {m : Walk α} {k : α → Walk β} {s s'' : State} {b : β} :
    (m >>= k) s = .ok (b, s'') ↔ ∃ a s', m s = .ok (a, s') ∧ k a s' = .ok (b, s'') :=
  (bind_eq_ok_iff (x := m s) (f := fun p => k p.1 p.2)).trans Prod.exists

theorem read_eq_ok {α : Type} {f : Store → Except Fault α} {s s' : State} {a : α}
    (h : Walk.read f s = .ok (a, s')) : f s.program.store = .ok a ∧ s' = s := by
  obtain ⟨_, _, hget, hlift⟩ := run_bind_eq_ok_iff.1 h
  cases hget
  cases hf : f s.program.store with
  | error e =>
    rw [hf] at hlift
    cases hlift
  | ok a' =>
    rw [hf] at hlift
    cases hlift
    exact ⟨rfl, rfl⟩

/-- What is found at an assignment is the unpacking of the tree that is read there. -/
theorem unpackingAt?_eq_ok {r : Resolver Name} {id value : ExprId} {s s' : State}
    {found : Option (Unpacking Name × List ExprId)}
    (h : Walk.unpackingAt? r id value s = .ok (found, s')) :
    s' = s ∧ ∀ u ids, found = some (u, ids) →
      ∃ tree, s.program.store.exprTree id = .ok tree ∧ r.unpacking? tree = some u := by
  obtain ⟨tree, s₁, hread, hrest⟩ := run_bind_eq_ok_iff.1 h
  obtain ⟨htree, rfl⟩ := read_eq_ok hread
  cases hu : r.unpacking? tree with
  | none =>
    rw [hu] at hrest
    cases hrest
    refine ⟨rfl, fun _ _ hsome => ?_⟩
    cases hsome
  | some u =>
    rw [hu] at hrest
    obtain ⟨ids, s₂, hids, hpure⟩ := run_bind_eq_ok_iff.1 hrest
    obtain ⟨-, rfl⟩ := read_eq_ok hids
    cases hpure
    refine ⟨rfl, fun _ _ hsome => ?_⟩
    cases hsome
    exact ⟨tree, htree, hu⟩

theorem handle_eq_ok {u : Unpacking Name} {ids : List ExprId} {s s' : State} {a : Unit}
    (h : Walk.handle u ids s = .ok (a, s')) : s.handle u ids = .ok s' := by
  rw [Walk.handle] at h
  obtain ⟨_, _, hget, hrest⟩ := run_bind_eq_ok_iff.1 h
  cases hget
  obtain ⟨_, _, hlift, hset⟩ := run_bind_eq_ok_iff.1 hrest
  obtain ⟨_, hhandle, hpure⟩ := bind_eq_ok_iff.1 hlift
  cases hpure
  cases hset
  exact hhandle

/-- A relation between the states before and after a part of a walk. What happens inside a frame or
a scope may be seen with the frame or scope open; an unpacking is one that was read. -/
structure Carried (r : Resolver Name) (R : State → State → Prop) : Prop where
  refl : ∀ s, R s s
  trans : ∀ {s s' s''}, R s s' → R s' s'' → R s s''
  frame : ∀ {s s' : State} (f : Frame), R { s with path := f :: s.path } s' →
    R s { s' with path := s'.path.tail }
  scope : ∀ {s s' : State}, R { s with scopes := s.scopes.push } s' →
    R s { s' with scopes := s'.scopes.pop }
  declare : ∀ (s : State) name type offset,
    R s { s with scopes := s.scopes.declare name type offset }
  handle : ∀ {s s' : State} {id tree u ids}, s.program.store.exprTree id = .ok tree →
    r.unpacking? tree = some u → s.handle u ids = .ok s' → R s s'

/-- Wherever the walk starts, if it ends, then in a state that is related to the first. -/
def Obeys {α : Type} (R : State → State → Prop) (m : Walk α) : Prop :=
  ∀ s a s', m s = .ok (a, s') → R s s'

namespace Carried

variable {r : Resolver Name} {R : State → State → Prop} {α β : Type}
variable (hR : Carried r R)

include hR

theorem pure (a : α) : Obeys R (Pure.pure a) := by
  rintro s _ _ ⟨⟩
  exact hR.refl s

theorem bind {m : Walk α} {k : α → Walk β} (h : Obeys R m) (hk : ∀ a, Obeys R (k a)) :
    Obeys R (m >>= k) := by
  intro s b s'' hrun
  obtain ⟨a, s', hm, hrest⟩ := run_bind_eq_ok_iff.1 hrun
  exact hR.trans (h s a s' hm) (hk a s' b s'' hrest)

theorem ofExcept (x : Except Fault α) : Obeys R (liftExcept x : Walk α) := by
  intro s a s' hrun
  cases x with
  | error f => cases hrun
  | ok a =>
    cases hrun
    exact hR.refl s

theorem read (f : Store → Except Fault α) : Obeys R (Walk.read f) := by
  intro s a s' hrun
  obtain ⟨-, rfl⟩ := read_eq_ok hrun
  exact hR.refl s'

theorem withFrame (f : Frame) {act : Walk Unit} (h : Obeys R act) :
    Obeys R (Walk.withFrame f act) := by
  intro s a s' hrun
  obtain ⟨_, _, hopen, hrest⟩ := run_bind_eq_ok_iff.1 hrun
  cases hopen
  obtain ⟨_, s₁, hact, hclose⟩ := run_bind_eq_ok_iff.1 hrest
  cases hclose
  exact hR.frame f (h _ _ s₁ hact)

theorem inScope {act : Walk Unit} (h : Obeys R act) : Obeys R (Walk.inScope act) := by
  intro s a s' hrun
  obtain ⟨_, _, hopen, hrest⟩ := run_bind_eq_ok_iff.1 hrun
  cases hopen
  obtain ⟨_, s₁, hact, hclose⟩ := run_bind_eq_ok_iff.1 hrest
  cases hclose
  exact hR.scope (h _ _ s₁ hact)

theorem declaring (name : Name) (type : TypeId) (offset : Nat) :
    Obeys R (Walk.declare name type offset) := by
  rintro s _ _ ⟨⟩
  exact hR.declare s name type offset

theorem forM {f : α → Walk Unit} (h : ∀ a, Obeys R (f a)) (as : List α) : Obeys R (as.forM f) := by
  induction as with
  | nil => exact hR.pure ()
  | cons a as ih => exact hR.bind (h a) fun _ => ih

theorem optionForM {f : α → Walk Unit} (h : ∀ a, Obeys R (f a)) (o : Option α) :
    Obeys R (o.forM f) := by
  cases o with
  | none => exact hR.pure ()
  | some a => exact h a

theorem exprTo (levels : Nat) (id : ExprId) : Obeys R (Walk.exprTo r levels id) := by
  induction levels generalizing id with
  | zero =>
    rintro s _ _ ⟨⟩
  | succ levels ih =>
    rw [Walk.exprTo]
    refine hR.withFrame _ (hR.bind (hR.read _) fun node => ?_)
    cases node.kind with
    | int | bool | str | null | self | ident => exact hR.pure ()
    | field receiver name => exact ih receiver
    | index receiver index => exact hR.bind (ih receiver) fun _ => ih index
    | call receiver method args =>
      exact hR.bind (hR.optionForM ih receiver) fun _ =>
        hR.bind (hR.read _) fun ids => hR.forM ih ids
    | create type args => exact hR.bind (hR.read _) fun ids => hR.forM ih ids
    | unary op operand => exact ih operand
    | binary op left right => exact hR.bind (ih left) fun _ => ih right
    | conditional cond thenExpr elseExpr =>
      exact hR.bind (ih cond) fun _ => hR.bind (ih thenExpr) fun _ => ih elseExpr
    | assign target value =>
      intro s a s' hrun
      obtain ⟨found, s₁, hfound, hrest⟩ := run_bind_eq_ok_iff.1 hrun
      obtain ⟨rfl, hfound⟩ := unpackingAt?_eq_ok hfound
      cases found with
      | none => exact hR.bind (ih target) (fun _ => ih value) _ a s' hrest
      | some found =>
        obtain ⟨tree, htree, hunpacking⟩ := hfound found.1 found.2 rfl
        exact hR.handle htree hunpacking (handle_eq_ok hrest)

theorem expr (id : ExprId) : Obeys R (Walk.expr r id) :=
  hR.bind (fun s _ _ hrun => by cases hrun; exact hR.refl s) fun _ => hR.exprTo _ id

theorem stmtTo (levels : Nat) (id : StmtId) : Obeys R (Walk.stmtTo r levels id) := by
  induction levels generalizing id with
  | zero =>
    rintro s _ _ ⟨⟩
  | succ levels ih =>
    rw [Walk.stmtTo]
    refine hR.withFrame _ (hR.bind (hR.read _) fun node => ?_)
    have hlist : ∀ slice, Obeys R (do
        (← Walk.read (·.stmtList slice)).forM (Walk.stmtTo r levels)) := fun slice =>
      hR.bind (hR.read _) fun ids => hR.forM ih ids
    cases node.kind with
    | expr e => exact hR.expr e
    | localVar type name init isFinal =>
      exact hR.bind (hR.declaring _ _ _) fun _ => hR.optionForM (hR.expr) init
    | block b => exact hR.withFrame _ (hR.inScope (hlist b.stmts))
    | ifElse cond thenBranch elseBranch =>
      exact hR.bind (hR.expr cond) fun _ => hR.bind (hR.inScope (ih thenBranch)) fun _ =>
        hR.optionForM (fun e => hR.inScope (ih e)) elseBranch
    | whileLoop cond body =>
      exact hR.bind (hR.expr cond) fun _ => hR.inScope (ih body)
    | switch selector arms =>
      refine hR.bind (hR.expr selector) fun _ => hR.inScope ?_
      refine hR.bind (hR.ofExcept _) fun ids => hR.forM (fun arm => ?_) ids
      exact hR.bind (hR.read _) fun node => hR.bind (hR.optionForM (hR.expr) node.label)
        fun _ => hR.bind (hR.read _) fun node => hR.withFrame _ (hlist node.stmts)
    | returnWith value => exact hR.optionForM (hR.expr) value
    | breakOut | continueOn | empty => exact hR.pure ()

theorem stmts (slice : Slice .stmt) : Obeys R (Walk.stmts r slice) :=
  hR.bind (fun s _ _ hrun => by cases hrun; exact hR.refl s) fun _ =>
    hR.bind (hR.read _) fun ids => hR.forM (hR.stmtTo _) ids

theorem method (m : MethodRef) (d : Node.Method) : Obeys R (Walk.method r m d) := by
  refine hR.withFrame _ (hR.inScope (hR.bind ?_ fun _ => ?_))
  · exact hR.forM (fun p => hR.declaring p.name p.type p.span.start) d.params
  · refine hR.optionForM (fun b => ?_) d.body
    exact hR.withFrame (.container (.body m)) (hR.inScope (hR.stmts b.stmts))

theorem member (m : MethodRef) (d : Node.Member) : Obeys R (Walk.member r m d) := by
  cases d with
  | field f => exact hR.optionForM (fun e => hR.withFrame _ (hR.expr e)) f.init
  | method d => exact hR.method m d
  | initializer i => exact hR.withFrame _ (hR.inScope (hR.stmts i.body.stmts))

theorem declareField (d : Node.Member) : Obeys R (Walk.declareField d) := by
  cases d with
  | field f => exact hR.declaring _ _ _
  | method d => exact hR.pure ()
  | initializer i => exact hR.pure ()

theorem cls (index : Nat) (c : Node.Class) : Obeys R (Walk.cls r index c) :=
  hR.inScope (hR.bind (hR.forM (hR.declareField) c.members) fun _ =>
    hR.forM (fun d => hR.member ⟨index, d.2⟩ d.1) c.members.zipIdx)

theorem unit (u : Node.CompilationUnit) : Obeys R (Walk.unit r u) := by
  refine hR.forM ?_ u.classes.zipIdx
  rintro ⟨c, i⟩
  exact hR.cls i c

omit hR in
/-- The walk over a program leads from the start to a related state. -/
theorem walk {config : DesugarConfig} {p : Program} {names : Interner} {s : State}
    (hR : Carried (resolver config.marker p.unit names).1 R)
    (h : Desugar.walk config p names = .ok s) :
    ∃ reserved, p.identifiers = .ok reserved ∧ R (start config p names reserved) s := by
  simp only [Desugar.walk, bind_eq_ok_iff] at h
  obtain ⟨reserved, hreserved, ⟨_, s'⟩, hrun, h⟩ := h
  cases h
  exact ⟨reserved, hreserved, hR.unit _ _ _ _ hrun⟩

end Carried

end TupleAssign.Desugar
