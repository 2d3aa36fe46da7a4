import TupleAssign.Store
import TupleAssign.Tree
/-!
# Stored trees

What it means that a store holds a tree: `Stored st sp t n fp` says that the node `n` is the root of
a copy of `t` in `st`, made of exactly the nodes `fp`, the root first. Types, expressions,
statements and arms are treated alike: a node has a head, compared with the head of the tree, and
slots, which hold the parts of the tree in order.

Names are compared through a spelling, which relates a name to what it may stand for in the tree. So
one relation serves trees that hold the names themselves, trees whose names are spelled out by a
table, and tables that know all the names of a store or only some.
-/

namespace TupleAssign

/-- A node of a store, whatever its sort. -/
structure NodeRef where
  sort : NodeSort
  index : Nat
deriving DecidableEq

def NodeId.ref {s : NodeSort} (i : NodeId s) : NodeRef := ⟨s, i.index⟩

theorem NodeId.ref_injective {s : NodeSort} : Function.Injective (NodeId.ref (s := s)) := by
  rintro ⟨i⟩ ⟨j⟩ h
  simpa [NodeId.ref] using h

@[simp]
theorem NodeId.ref_inj {s : NodeSort} {i j : NodeId s} : i.ref = j.ref ↔ i = j :=
  NodeId.ref_injective.eq_iff

@[simp]
theorem NodeId.sort_ref {s : NodeSort} (i : NodeId s) : i.ref.sort = s := rfl

@[simp]
theorem NodeId.index_ref {s : NodeSort} (i : NodeId s) : i.ref.index = i.index := rfl

/-! ## Slots -/

/-- The types that an expression node refers to. -/
def Node.ExprKind.typeSlots : Node.ExprKind → List TypeId
  | .create t _ => [t]
  | _ => []

namespace Store

variable (st : Store)

/-- How many nodes of a sort there are. -/
def count : NodeSort → Nat
  | .expr => st.exprs.size
  | .stmt => st.stmts.size
  | .arm => st.arms.size
  | .type => st.types.size

/-- The direct subexpressions of an expression node, in source order. -/
def operands : Node.ExprKind → Except Fault (List ExprId)
  | .int _ | .bool _ | .str _ | .null | .self | .ident _ => return []
  | .field r _ => return [r]
  | .index r i => return [r, i]
  | .call r _ args => return r.toList ++ (← st.exprList args)
  | .create _ args => st.exprList args
  | .unary _ e => return [e]
  | .binary _ l r => return [l, r]
  | .conditional c t e => return [c, t, e]
  | .assign t v => return [t, v]

def typeSlots : Node.Ty → Except Fault (List NodeRef)
  | .primitive _ => return []
  | .named _ args => return (← st.typeList args).map NodeId.ref
  | .array elem => return [elem.ref]

def stmtSlots : Node.StmtKind → Except Fault (List NodeRef)
  | .expr e => return [e.ref]
  | .localVar t _ init _ => return t.ref :: init.toList.map NodeId.ref
  | .block b => return (← st.stmtList b.stmts).map NodeId.ref
  | .ifElse c t e => return c.ref :: t.ref :: e.toList.map NodeId.ref
  | .whileLoop c b => return [c.ref, b.ref]
  | .switch sel arms => return sel.ref :: (← arms.ids arms.len).map NodeId.ref
  | .returnWith v => return v.toList.map NodeId.ref
  | .breakOut | .continueOn | .empty => return []

/-- The nodes that the slots of a node hold, in source order. A node that is not there, and one of
whose slices is not, is a fault. -/
def slots (n : NodeRef) : Except Fault (List NodeRef) :=
  match n.sort with
  | .expr => do
    let e ← st.expr ⟨n.index⟩
    return e.kind.typeSlots.map NodeId.ref ++ (← st.operands e.kind).map NodeId.ref
  | .stmt => do st.stmtSlots (← st.stmt ⟨n.index⟩).kind
  | .arm => do
    let a ← st.arm ⟨n.index⟩
    return a.label.toList.map NodeId.ref ++ (← st.stmtList a.stmts).map NodeId.ref
  | .type => do st.typeSlots (← st.type ⟨n.index⟩)

end Store

/-! ## Parts of a tree -/

namespace Tree

/-- A tree of whatever sort. -/
inductive Any (ν : Type := String) where
  | ty (t : Ty ν)
  | expr (e : Expr ν)
  | stmt (s : Stmt ν)
  | arm (a : Arm ν)

variable {ν : Type}

def Any.sort : Any ν → NodeSort
  | .ty _ => .type
  | .expr _ => .expr
  | .stmt _ => .stmt
  | .arm _ => .arm

/-- The types that stand directly in an expression. -/
def Expr.typeParts : Expr ν → List (Ty ν)
  | .create _ t _ => [t]
  | _ => []

/-- The direct subexpressions, in source order. -/
def Expr.operands : Expr ν → List (Expr ν)
  | .int _ _ | .bool _ _ | .str _ _ | .null _ | .self _ | .ident _ _ => []
  | .field _ r _ => [r]
  | .index _ r i => [r, i]
  | .call _ r _ args => r.toList ++ args
  | .create _ _ args => args
  | .unary _ _ e => [e]
  | .binary _ _ l r => [l, r]
  | .conditional _ c t e => [c, t, e]
  | .assign _ t v => [t, v]

/-- The direct parts of a tree, in source order. -/
def Any.parts : Any ν → List (Any ν)
  | .ty (.primitive _) => []
  | .ty (.named _ args) => args.map .ty
  | .ty (.array elem) => [.ty elem]
  | .expr e => e.typeParts.map .ty ++ e.operands.map .expr
  | .stmt (.expr _ e) => [.expr e]
  | .stmt (.localVar _ t _ init _) => .ty t :: init.toList.map .expr
  | .stmt (.block _ ss) => ss.map .stmt
  | .stmt (.ifElse _ c t e) => .expr c :: .stmt t :: e.toList.map .stmt
  | .stmt (.whileLoop _ c b) => [.expr c, .stmt b]
  | .stmt (.switch _ sel arms) => .expr sel :: arms.map .arm
  | .stmt (.returnWith _ v) => v.toList.map .expr
  | .stmt (.breakOut _) | .stmt (.continueOn _) | .stmt (.empty _) => []
  | .arm (.mk label ss) => label.toList.map .expr ++ ss.map .stmt

end Tree

/-! ## Heads -/

/-- What a name may stand for. -/
abbrev Spelling (ν : Type := String) := Name → ν → Prop

/-- Every name stands for one thing. -/
abbrev Spells {ν : Type} (f : Name → ν) : Spelling ν := fun n x => f n = x

/-- Every name stands for itself. -/
abbrev Verbatim : Spelling Name := Spells fun n => n

/-- Every name stands for what the table says. -/
abbrev Interner.Reads (names : Interner) : Spelling := Spells names.lookup

/-- Only names that are in the table stand for something. -/
def Interner.Knows (names : Interner) : Spelling := fun n s => names.strings[n.index]? = some s

section Heads

variable {ν : Type} (sp : Spelling ν)

inductive TyHead : Node.Ty → Tree.Ty ν → Prop
  | primitive (p : Primitive) : TyHead (.primitive p) (.primitive p)
  | named {n : Name} {s : ν} (slice : Slice .type) (args : List (Tree.Ty ν)) (h : sp n s) :
    TyHead (.named n slice) (.named s args)
  | array (id : TypeId) (t : Tree.Ty ν) : TyHead (.array id) (.array t)

inductive ExprHead : Node.Expr → Tree.Expr ν → Prop
  | int (span : Span) (v : Int) : ExprHead ⟨.int v, span⟩ (.int span v)
  | bool (span : Span) (v : Bool) : ExprHead ⟨.bool v, span⟩ (.bool span v)
  | str {n : Name} {s : ν} (span : Span) (h : sp n s) : ExprHead ⟨.str n, span⟩ (.str span s)
  | null (span : Span) : ExprHead ⟨.null, span⟩ (.null span)
  | self (span : Span) : ExprHead ⟨.self, span⟩ (.self span)
  | ident {n : Name} {s : ν} (span : Span) (h : sp n s) :
    ExprHead ⟨.ident n, span⟩ (.ident span s)
  | field {n : Name} {s : ν} (span : Span) (r : ExprId) (r' : Tree.Expr ν) (h : sp n s) :
    ExprHead ⟨.field r n, span⟩ (.field span r' s)
  | index (span : Span) (r i : ExprId) (r' i' : Tree.Expr ν) :
    ExprHead ⟨.index r i, span⟩ (.index span r' i')
  | call {n : Name} {s : ν} {r : Option ExprId} {r' : Option (Tree.Expr ν)} (span : Span)
      (slice : Slice .expr) (args : List (Tree.Expr ν)) (hr : r.isSome = r'.isSome) (h : sp n s) :
    ExprHead ⟨.call r n slice, span⟩ (.call span r' s args)
  | create (span : Span) (t : TypeId) (t' : Tree.Ty ν) (slice : Slice .expr)
      (args : List (Tree.Expr ν)) :
    ExprHead ⟨.create t slice, span⟩ (.create span t' args)
  | unary (span : Span) (op : UnaryOp) (e : ExprId) (e' : Tree.Expr ν) :
    ExprHead ⟨.unary op e, span⟩ (.unary span op e')
  | binary (span : Span) (op : BinaryOp) (l r : ExprId) (l' r' : Tree.Expr ν) :
    ExprHead ⟨.binary op l r, span⟩ (.binary span op l' r')
  | conditional (span : Span) (c t e : ExprId) (c' t' e' : Tree.Expr ν) :
    ExprHead ⟨.conditional c t e, span⟩ (.conditional span c' t' e')
  | assign (span : Span) (t v : ExprId) (t' v' : Tree.Expr ν) :
    ExprHead ⟨.assign t v, span⟩ (.assign span t' v')

inductive StmtHead : Node.Stmt → Tree.Stmt ν → Prop
  | expr (span : Span) (e : ExprId) (e' : Tree.Expr ν) : StmtHead ⟨.expr e, span⟩ (.expr span e')
  | localVar {n : Name} {s : ν} {i : Option ExprId} {i' : Option (Tree.Expr ν)} (span : Span)
      (t : TypeId) (t' : Tree.Ty ν) (isFinal : Bool) (hi : i.isSome = i'.isSome) (h : sp n s) :
    StmtHead ⟨.localVar t n i isFinal, span⟩ (.localVar span t' s i' isFinal)
  | block (span : Span) (b : Node.Block) (ss : List (Tree.Stmt ν)) :
    StmtHead ⟨.block b, span⟩ (.block span ss)
  | ifElse {e : Option StmtId} {e' : Option (Tree.Stmt ν)} (span : Span) (c : ExprId)
      (c' : Tree.Expr ν) (t : StmtId) (t' : Tree.Stmt ν) (he : e.isSome = e'.isSome) :
    StmtHead ⟨.ifElse c t e, span⟩ (.ifElse span c' t' e')
  | whileLoop (span : Span) (c : ExprId) (c' : Tree.Expr ν) (b : StmtId) (b' : Tree.Stmt ν) :
    StmtHead ⟨.whileLoop c b, span⟩ (.whileLoop span c' b')
  | switch (span : Span) (sel : ExprId) (sel' : Tree.Expr ν) (slice : Slice .arm)
      (arms : List (Tree.Arm ν)) :
    StmtHead ⟨.switch sel slice, span⟩ (.switch span sel' arms)
  | returnWith {v : Option ExprId} {v' : Option (Tree.Expr ν)} (span : Span)
      (hv : v.isSome = v'.isSome) :
    StmtHead ⟨.returnWith v, span⟩ (.returnWith span v')
  | breakOut (span : Span) : StmtHead ⟨.breakOut, span⟩ (.breakOut span)
  | continueOn (span : Span) : StmtHead ⟨.continueOn, span⟩ (.continueOn span)
  | empty (span : Span) : StmtHead ⟨.empty, span⟩ (.empty span)

/-- An arm has a span of its own in the store only. -/
inductive ArmHead : Node.Arm → Tree.Arm ν → Prop
  | mk {label : Option ExprId} {label' : Option (Tree.Expr ν)} (slice : Slice .stmt) (span : Span)
      (ss : List (Tree.Stmt ν)) (hl : label.isSome = label'.isSome) :
    ArmHead ⟨label, slice, span⟩ (.mk label' ss)

/-- The node is there and agrees with the tree in everything but its parts. -/
def Head (st : Store) (n : NodeRef) : Tree.Any ν → Prop
  | .ty t => n.sort = .type ∧ ∃ node, st.types[n.index]? = some node ∧ TyHead sp node t
  | .expr e => n.sort = .expr ∧ ∃ node, st.exprs[n.index]? = some node ∧ ExprHead sp node e
  | .stmt s => n.sort = .stmt ∧ ∃ node, st.stmts[n.index]? = some node ∧ StmtHead sp node s
  | .arm a => n.sort = .arm ∧ ∃ node, st.arms[n.index]? = some node ∧ ArmHead node a

end Heads

/-! ## Lists side by side -/

/-- The two lists match entry by entry, and the nodes of the entries make up the nodes of the
whole. -/
inductive Along {α β : Type} (R : α → β → List NodeRef → Prop) :
    List α → List β → List NodeRef → Prop
  | nil : Along R [] [] []
  | cons {a : α} {b : β} {f : List NodeRef} {as : List α} {bs : List β} {fs : List NodeRef}
      (head : R a b f) (tail : Along R as bs fs) : Along R (a :: as) (b :: bs) (f ++ fs)

namespace Along

variable {α β γ δ : Type} {R S : α → β → List NodeRef → Prop}

theorem length_eq {as : List α} {bs : List β} {fp : List NodeRef} (h : Along R as bs fp) :
    as.length = bs.length := by
  induction h with
  | nil => rfl
  | cons _ _ ih => simp [ih]

@[simp]
theorem nil_iff {bs : List β} {fp : List NodeRef} : Along R [] bs fp ↔ bs = [] ∧ fp = [] := by
  constructor
  · intro h
    cases h
    exact ⟨rfl, rfl⟩
  · rintro ⟨rfl, rfl⟩
    exact .nil

theorem cons_iff {a : α} {as : List α} {bs : List β} {fp : List NodeRef} :
    Along R (a :: as) bs fp ↔
      ∃ b bs' f fs, bs = b :: bs' ∧ fp = f ++ fs ∧ R a b f ∧ Along R as bs' fs := by
  constructor
  · intro h
    cases h with
    | cons head tail => exact ⟨_, _, _, _, rfl, rfl, head, tail⟩
  · rintro ⟨b, bs', f, fs, rfl, rfl, head, tail⟩
    exact .cons head tail

theorem cons_cons_iff {a : α} {as : List α} {b : β} {bs : List β} {fp : List NodeRef} :
    Along R (a :: as) (b :: bs) fp ↔ ∃ f fs, fp = f ++ fs ∧ R a b f ∧ Along R as bs fs := by
  constructor
  · intro h
    cases h with
    | cons head tail => exact ⟨_, _, rfl, head, tail⟩
  · rintro ⟨f, fs, rfl, head, tail⟩
    exact .cons head tail

theorem single {a : α} {b : β} {f : List NodeRef} (h : R a b f) : Along R [a] [b] f := by
  simpa using Along.cons h .nil

theorem single_iff {a : α} {b : β} {fp : List NodeRef} : Along R [a] [b] fp ↔ R a b fp := by
  simp [cons_cons_iff]

theorem append {as as' : List α} {bs bs' : List β} {f f' : List NodeRef} (h : Along R as bs f)
    (h' : Along R as' bs' f') : Along R (as ++ as') (bs ++ bs') (f ++ f') := by
  induction h with
  | nil => exact h'
  | cons head _ ih => simpa [List.append_assoc] using Along.cons head ih

/-- Two concatenations match piece by piece if their first pieces are of one length. -/
theorem append_iff {as as' : List α} {bs bs' : List β} {fp : List NodeRef}
    (hlen : as.length = bs.length) :
    Along R (as ++ as') (bs ++ bs') fp ↔
      ∃ f f', fp = f ++ f' ∧ Along R as bs f ∧ Along R as' bs' f' := by
  constructor
  · intro h
    induction as generalizing bs fp with
    | nil =>
      obtain rfl := List.eq_nil_of_length_eq_zero hlen.symm
      exact ⟨[], fp, rfl, .nil, h⟩
    | cons a as ih =>
      obtain ⟨b, bs, rfl⟩ := List.exists_cons_of_length_eq_add_one hlen.symm
      obtain ⟨f, fs, rfl, head, tail⟩ := cons_cons_iff.1 h
      obtain ⟨g, g', rfl, hg, hg'⟩ := ih (by simpa using hlen) tail
      exact ⟨f ++ g, g', by simp, .cons head hg, hg'⟩
  · rintro ⟨f, f', rfl, h, h'⟩
    exact h.append h'

theorem map_iff {f : γ → α} {g : δ → β} {cs : List γ} {ds : List δ} {fp : List NodeRef} :
    Along R (cs.map f) (ds.map g) fp ↔ Along (fun c d => R (f c) (g d)) cs ds fp := by
  constructor
  · intro h
    induction cs generalizing ds fp with
    | nil => simp_all
    | cons c cs ih =>
      cases ds with
      | nil => cases h
      | cons d ds =>
        obtain ⟨f₁, fs, rfl, head, tail⟩ := cons_cons_iff.1 h
        exact .cons head (ih tail)
  · intro h
    induction h with
    | nil => exact .nil
    | cons head _ ih => exact .cons head ih

theorem imp {as : List α} {bs : List β} {fp : List NodeRef}
    (hRS : ∀ a ∈ as, ∀ b f, f.Sublist fp → R a b f → S a b f) (h : Along R as bs fp) :
    Along S as bs fp := by
  induction h with
  | nil => exact .nil
  | cons head _ ih =>
    refine .cons (hRS _ (by simp) _ _ (List.sublist_append_left _ _) head) (ih ?_)
    exact fun a ha b f hf => hRS a (by simp [ha]) b f (hf.trans (List.sublist_append_right _ _))

/-- Every node of the whole is a node of some entry. -/
theorem exists_of_mem {as : List α} {bs : List β} {fp : List NodeRef} (h : Along R as bs fp)
    {n : NodeRef} (hn : n ∈ fp) : ∃ a ∈ as, ∃ b ∈ bs, ∃ f, R a b f ∧ n ∈ f := by
  induction h with
  | nil => simp at hn
  | cons head _ ih =>
    rcases List.mem_append.1 hn with hn | hn
    · exact ⟨_, by simp, _, by simp, _, head, hn⟩
    · obtain ⟨a, ha, b, hb, f, hR, hf⟩ := ih hn
      exact ⟨a, by simp [ha], b, by simp [hb], f, hR, hf⟩

theorem exists_of_mem_right {as : List α} {bs : List β} {fp : List NodeRef} (h : Along R as bs fp)
    {b : β} (hb : b ∈ bs) : ∃ a ∈ as, ∃ f, f.Sublist fp ∧ R a b f := by
  induction h with
  | nil => simp at hb
  | cons head _ ih =>
    rcases List.mem_cons.1 hb with rfl | hb
    · exact ⟨_, by simp, _, List.sublist_append_left _ _, head⟩
    · obtain ⟨a, ha, f, hf, hR⟩ := ih hb
      exact ⟨a, by simp [ha], f, hf.trans (List.sublist_append_right _ _), hR⟩

/-- Matching optional entries are both there or both not. -/
theorem toList_isSome {o : Option α} {o' : Option β} {fp : List NodeRef}
    (h : Along R o.toList o'.toList fp) : o.isSome = o'.isSome := by
  have := h.length_eq
  cases o <;> cases o' <;> simp_all

end Along

/-! ## Stored trees -/

/-- The tree is stored at the node, in exactly the given nodes. -/
inductive Stored {ν : Type} (st : Store) (sp : Spelling ν) :
    Tree.Any ν → NodeRef → List NodeRef → Prop
  | mk {t : Tree.Any ν} {n : NodeRef} {ns fp : List NodeRef} (head : Head sp st n t)
      (slots : st.slots n = .ok ns) (parts : Along (Stored st sp) t.parts ns fp) :
    Stored st sp t n (n :: fp)

abbrev TyAt {ν : Type} (st : Store) (sp : Spelling ν) (t : Tree.Ty ν) (id : TypeId)
    (fp : List NodeRef) : Prop :=
  Stored st sp (.ty t) id.ref fp

abbrev ExprAt {ν : Type} (st : Store) (sp : Spelling ν) (e : Tree.Expr ν) (id : ExprId)
    (fp : List NodeRef) : Prop :=
  Stored st sp (.expr e) id.ref fp

abbrev StmtAt {ν : Type} (st : Store) (sp : Spelling ν) (s : Tree.Stmt ν) (id : StmtId)
    (fp : List NodeRef) : Prop :=
  Stored st sp (.stmt s) id.ref fp

abbrev ArmAt {ν : Type} (st : Store) (sp : Spelling ν) (a : Tree.Arm ν) (id : ArmId)
    (fp : List NodeRef) : Prop :=
  Stored st sp (.arm a) id.ref fp

section Basics

variable {ν : Type} {st : Store} {sp : Spelling ν}

/-- Induction along a stored tree: a property of all parts passes to the whole. -/
theorem Stored.induct {P : Tree.Any ν → NodeRef → List NodeRef → Prop}
    (step : ∀ t n ns fp, Head sp st n t → st.slots n = .ok ns →
      Along (fun t n f => Stored st sp t n f ∧ P t n f) t.parts ns fp → P t n (n :: fp))
    {t : Tree.Any ν} {n : NodeRef} {fp : List NodeRef} (h : Stored st sp t n fp) : P t n fp :=
  @Stored.rec ν st sp (fun t n f _ => P t n f)
    (fun as bs f _ => Along (fun t n f => Stored st sp t n f ∧ P t n f) as bs f)
    (fun head slots _ ih => step _ _ _ _ head slots ih) .nil
    (fun head _ ih₁ ih₂ => .cons ⟨head, ih₁⟩ ih₂) t n fp h

/-- A node that is in its table. -/
def Store.Old (st : Store) (n : NodeRef) : Prop := n.index < st.count n.sort

theorem Head.sort_eq {n : NodeRef} {t : Tree.Any ν} (h : Head sp st n t) : n.sort = t.sort := by
  cases t <;> exact h.1

theorem Head.old {n : NodeRef} {t : Tree.Any ν} (h : Head sp st n t) : st.Old n := by
  obtain ⟨sort, i⟩ := n
  cases t <;>
  · obtain ⟨rfl, node, hnode, -⟩ := h
    obtain ⟨hlt, -⟩ := Array.getElem?_eq_some_iff.1 hnode
    exact hlt

theorem Stored.sort_eq {t : Tree.Any ν} {n : NodeRef} {fp : List NodeRef}
    (h : Stored st sp t n fp) : n.sort = t.sort := by
  cases h with
  | mk head _ _ => exact head.sort_eq

theorem Stored.head_mem {t : Tree.Any ν} {n : NodeRef} {fp : List NodeRef}
    (h : Stored st sp t n fp) : n ∈ fp := by
  cases h with
  | mk _ _ _ => exact List.mem_cons_self

theorem Stored.old {t : Tree.Any ν} {n : NodeRef} {fp : List NodeRef} (h : Stored st sp t n fp) :
    ∀ m ∈ fp, st.Old m := by
  refine Stored.induct (P := fun _ _ fp => ∀ m ∈ fp, st.Old m) ?_ h
  intro t n ns fp head _ ih m hm
  rcases List.mem_cons.1 hm with rfl | hm
  · exact head.old
  · obtain ⟨_, _, _, _, f, hR, hf⟩ := ih.exists_of_mem hm
    exact hR.2 m hf

theorem Along.old {ts : List (Tree.Any ν)} {ns fp : List NodeRef}
    (h : Along (Stored st sp) ts ns fp) : ∀ m ∈ fp, st.Old m := by
  intro m hm
  obtain ⟨_, _, _, _, f, hR, hf⟩ := h.exists_of_mem hm
  exact hR.old m hf

end Basics

end TupleAssign
