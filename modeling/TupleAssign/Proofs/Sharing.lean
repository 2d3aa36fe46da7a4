import TupleAssign.Proofs.Expanding
/-!
# Trees with shared nodes

A tree may be read from nodes that it shares, with itself or with other trees. Nothing is known of
such nodes but that reading them succeeds, and that is all that is asked for here. What can be read
reads as the same tree in every store that has grown (`Store.Grows.readExpr`), and a type that can be
read can be copied; the copy shares no node with anything (`Store.copyType_of_read`).
-/

namespace TupleAssign

theorem mapM_cons_eq_ok_iff {ε α β : Type} {f : α → Except ε β} {a : α} {as : List α}
    {bs : List β} :
    (a :: as).mapM f = .ok bs ↔ ∃ b bs', f a = .ok b ∧ as.mapM f = .ok bs' ∧ bs = b :: bs' := by
  rw [List.mapM_cons, bind_eq_ok_iff]
  constructor
  · rintro ⟨b, hb, h⟩
    obtain ⟨bs', hbs', h⟩ := bind_eq_ok_iff.1 h
    cases h
    exact ⟨b, bs', hb, hbs', rfl⟩
  · rintro ⟨b, bs', hb, hbs', rfl⟩
    exact ⟨b, hb, bind_eq_ok_iff.2 ⟨bs', hbs', rfl⟩⟩

theorem length_of_mapM {ε α β : Type} {f : α → Except ε β} {as : List α} {bs : List β}
    (h : as.mapM f = .ok bs) : bs.length = as.length := by
  induction as generalizing bs with
  | nil =>
    cases h
    rfl
  | cons a as ih =>
    obtain ⟨b, bs, -, hbs, rfl⟩ := mapM_cons_eq_ok_iff.1 h
    rw [List.length_cons, List.length_cons, ih hbs]

/-! ## Computations that succeed more often -/

/-- Where the first computation succeeds, the second does, with the same result. -/
def Extends {ε α : Type} (x y : Except ε α) : Prop := ∀ a, x = .ok a → y = .ok a

namespace Extends

variable {ε α β : Type}

theorem refl (x : Except ε α) : Extends x x := fun _ h => h

theorem error (e : ε) (y : Except ε α) : Extends (.error e) y := by
  intro a h
  cases h

theorem bind {x y : Except ε α} {f g : α → Except ε β} (h : Extends x y)
    (hf : ∀ a, Extends (f a) (g a)) : Extends (x >>= f) (y >>= g) := by
  intro b hb
  obtain ⟨a, ha, hb⟩ := bind_eq_ok_iff.1 hb
  exact bind_eq_ok_iff.2 ⟨a, h a ha, hf a b hb⟩

/-- The result is put to use in one way. -/
theorem ret {x y : Except ε α} (h : Extends x y) (f : α → β) :
    Extends (x >>= fun a => pure (f a)) (y >>= fun a => pure (f a)) :=
  h.bind fun _ => refl _

theorem mapM {f g : α → Except ε β} (h : ∀ a, Extends (f a) (g a)) (as : List α) :
    Extends (as.mapM f) (as.mapM g) := by
  induction as with
  | nil => exact refl _
  | cons a as ih =>
    rw [List.mapM_cons, List.mapM_cons]
    exact (h a).bind fun _ => ih.ret _

theorem optionMapM {f g : α → Except ε β} (h : ∀ a, Extends (f a) (g a)) (o : Option α) :
    Extends (o.mapM f) (o.mapM g) := by
  cases o with
  | none => exact refl _
  | some a => exact (h a).ret some

end Extends

namespace Store

variable {ν : Type} {spell : Name → ν} {st st' : Store} {T : NodeRef → Prop}

/-! ## Reading in a store that has grown -/

namespace Grows

theorem type_extends (hg : st.Grows st' T) (id : TypeId) : Extends (st.type id) (st'.type id) :=
  fun _ h => type_eq_ok_iff.2 (hg.type_eq (type_eq_ok_iff.1 h))

theorem expr_extends (hg : st.Grows st' T) (id : ExprId) : Extends (st.expr id) (st'.expr id) :=
  fun _ h => expr_eq_ok_iff.2 (hg.expr_eq (expr_eq_ok_iff.1 h))

theorem stmt_extends (hg : st.Grows st' nothing) (id : StmtId) :
    Extends (st.stmt id) (st'.stmt id) :=
  fun _ h => stmt_eq_ok_iff.2 (hg.stmt_eq (stmt_eq_ok_iff.1 h) fun hn => hn)

theorem arm_extends (hg : st.Grows st' nothing) (id : ArmId) : Extends (st.arm id) (st'.arm id) :=
  fun _ h => arm_eq_ok_iff.2 (hg.arm_eq (arm_eq_ok_iff.1 h) fun hn => hn)

theorem typeList_extends (hg : st.Grows st' T) (r : Slice .type) :
    Extends (st.typeList r) (st'.typeList r) :=
  fun _ h => hg.typeList_eq h

theorem exprList_extends (hg : st.Grows st' T) (r : Slice .expr) :
    Extends (st.exprList r) (st'.exprList r) :=
  fun _ h => hg.exprList_eq h

theorem stmtList_extends (hg : st.Grows st' T) (r : Slice .stmt) :
    Extends (st.stmtList r) (st'.stmtList r) :=
  fun _ h => hg.stmtList_eq h

theorem readTypeTo (hg : st.Grows st' T) {l l' : Nat} (hl : l ≤ l') (id : TypeId) :
    Extends (st.readTypeTo spell l id) (st'.readTypeTo spell l' id) := by
  induction l generalizing l' id with
  | zero => exact .error _ _
  | succ l ih =>
    obtain ⟨l', rfl⟩ := Nat.exists_eq_add_of_lt hl
    have hparts := fun id => ih (Nat.le_add_right l l') id
    rw [Store.readTypeTo, Store.readTypeTo]
    refine (hg.type_extends id).bind fun node => ?_
    cases node with
    | primitive p => exact .refl _
    | named n args =>
      exact (hg.typeList_extends args).bind fun ids => (Extends.mapM hparts ids).ret _
    | array elem => exact (hparts elem).ret _

theorem readType (hg : st.Grows st' T) (id : TypeId) :
    Extends (st.readType spell id) (st'.readType spell id) :=
  hg.readTypeTo (Nat.succ_le_succ (hg.count_le .type)) id

theorem readExprTo (hg : st.Grows st' T) {l l' : Nat} (hl : l ≤ l') (id : ExprId) :
    Extends (st.readExprTo spell l id) (st'.readExprTo spell l' id) := by
  induction l generalizing l' id with
  | zero => exact .error _ _
  | succ l ih =>
    obtain ⟨l', rfl⟩ := Nat.exists_eq_add_of_lt hl
    have hparts := fun id => ih (Nat.le_add_right l l') id
    rw [Store.readExprTo, Store.readExprTo]
    refine (hg.expr_extends id).bind fun node => ?_
    obtain ⟨kind, span⟩ := node
    cases kind with
    | int | bool | str | null | self | ident => exact .refl _
    | field r n => exact (hparts r).ret _
    | unary op e => exact (hparts e).ret _
    | index a b | binary _ a b | assign a b => exact (hparts a).bind fun _ => (hparts b).ret _
    | conditional c t e =>
      exact (hparts c).bind fun _ => (hparts t).bind fun _ => (hparts e).ret _
    | call r n args =>
      exact (Extends.optionMapM hparts r).bind fun _ =>
        (hg.exprList_extends args).bind fun ids => (Extends.mapM hparts ids).ret _
    | create t args =>
      exact (hg.readType t).bind fun _ =>
        (hg.exprList_extends args).bind fun ids => (Extends.mapM hparts ids).ret _

theorem readExpr (hg : st.Grows st' T) (id : ExprId) :
    Extends (st.readExpr spell id) (st'.readExpr spell id) :=
  hg.readExprTo (Nat.succ_le_succ (hg.count_le .expr)) id

theorem readStmtTo (hg : st.Grows st' nothing) {l l' : Nat} (hl : l ≤ l') (id : StmtId) :
    Extends (st.readStmtTo spell l id) (st'.readStmtTo spell l' id) := by
  induction l generalizing l' id with
  | zero => exact .error _ _
  | succ l ih =>
    obtain ⟨l', rfl⟩ := Nat.exists_eq_add_of_lt hl
    have hparts := fun id => ih (Nat.le_add_right l l') id
    have hexpr : ∀ id, Extends (st.readExpr spell id) (st'.readExpr spell id) := hg.readExpr
    rw [Store.readStmtTo, Store.readStmtTo]
    refine (hg.stmt_extends id).bind fun node => ?_
    obtain ⟨kind, span⟩ := node
    cases kind with
    | breakOut | continueOn | empty => exact .refl _
    | expr e => exact (hexpr e).ret _
    | localVar t n init isFinal =>
      exact (hg.readType t).bind fun _ => (Extends.optionMapM hexpr init).ret _
    | block b => exact (hg.stmtList_extends b.stmts).bind fun ids => (Extends.mapM hparts ids).ret _
    | ifElse c t e =>
      exact (hexpr c).bind fun _ => (hparts t).bind fun _ => (Extends.optionMapM hparts e).ret _
    | whileLoop c b => exact (hexpr c).bind fun _ => (hparts b).ret _
    | switch sel arms =>
      refine (hexpr sel).bind fun _ => (Extends.refl _).bind fun ids => ?_
      refine (Extends.mapM (fun id => ?_) ids).ret _
      exact (hg.arm_extends id).bind fun a => (Extends.optionMapM hexpr a.label).bind fun _ =>
        (hg.stmtList_extends a.stmts).bind fun ids => (Extends.mapM hparts ids).ret _
    | returnWith v => exact (Extends.optionMapM hexpr v).ret _

theorem readStmt (hg : st.Grows st' nothing) (id : StmtId) :
    Extends (st.readStmt spell id) (st'.readStmt spell id) :=
  hg.readStmtTo (Nat.succ_le_succ (hg.count_le .stmt)) id

end Grows

/-! ## Copies -/

/-- A type that can be read is a primitive one or has parts that can be read. -/
theorem readTypeTo_eq_ok_iff {levels : Nat} {id : TypeId} {t : Tree.Ty ν} :
    st.readTypeTo spell (levels + 1) id = .ok t ↔
      (∃ p, st.type id = .ok (.primitive p) ∧ t = .primitive p) ∨
      (∃ n args ids ts, st.type id = .ok (.named n args) ∧ st.typeList args = .ok ids ∧
        ids.mapM (st.readTypeTo spell levels) = .ok ts ∧ t = .named (spell n) ts) ∨
      ∃ elem e, st.type id = .ok (.array elem) ∧ st.readTypeTo spell levels elem = .ok e ∧
        t = .array e := by
  constructor
  · intro h
    rw [readTypeTo] at h
    obtain ⟨node, hnode, h⟩ := bind_eq_ok_iff.1 h
    cases node with
    | primitive p =>
      cases h
      exact .inl ⟨p, hnode, rfl⟩
    | named n args =>
      obtain ⟨ids, hids, h⟩ := bind_eq_ok_iff.1 h
      obtain ⟨ts, hts, h⟩ := bind_eq_ok_iff.1 h
      cases h
      exact .inr (.inl ⟨n, args, ids, ts, hnode, hids, hts, rfl⟩)
    | array elem =>
      obtain ⟨e, he, h⟩ := bind_eq_ok_iff.1 h
      cases h
      exact .inr (.inr ⟨elem, e, hnode, he, rfl⟩)
  · rintro (⟨p, hnode, rfl⟩ | ⟨n, args, ids, ts, hnode, hids, hts, rfl⟩ |
      ⟨elem, e, hnode, he, rfl⟩)
    all_goals
      rw [readTypeTo]
      refine bind_eq_ok_iff.2 ⟨_, hnode, ?_⟩
    · rfl
    · exact bind_eq_ok_iff.2 ⟨ids, hids, bind_eq_ok_iff.2 ⟨ts, hts, rfl⟩⟩
    · exact bind_eq_ok_iff.2 ⟨e, he, rfl⟩

/-- Copies of a list of types, if each one can be copied wherever it can be read. The store grows
with every copy, and what is left to copy can still be read. -/
theorem copyTypesTo_of_read {levels : Nat}
    (hcopy : ∀ {st : Store} {id : TypeId} {t : Tree.Ty ν}, st.readTypeTo spell levels id = .ok t →
      ∃ id' st' f, (copyTypeTo levels id).run.run st = (.ok id', st') ∧ st.Adds st' f ∧
        TyAt st' (Spells spell) t id' f)
    {ids : List TypeId} {ts : List (Tree.Ty ν)} (h : ids.mapM (st.readTypeTo spell levels) = .ok ts) :
    ∃ ids' st' f, (ids.mapM (copyTypeTo levels)).run.run st = (.ok ids', st') ∧ st.Adds st' f ∧
      Along (TyAt st' (Spells spell)) ts ids' f := by
  induction ids generalizing st ts with
  | nil =>
    cases h
    exact ⟨[], st, [], rfl, .refl st, .nil⟩
  | cons id ids ih =>
    obtain ⟨t, ts, ht, hts, rfl⟩ := mapM_cons_eq_ok_iff.1 h
    obtain ⟨id', st₁, f₁, hrun₁, hadds₁, htype⟩ := hcopy ht
    have hrest := Extends.mapM (hadds₁.grows.readTypeTo (Nat.le_refl levels)) ids ts hts
    obtain ⟨ids', st₂, f₂, hrun₂, hadds₂, htypes⟩ := ih hrest
    refine ⟨id' :: ids', st₂, f₁ ++ f₂, ?_, hadds₁.trans hadds₂,
      .cons (htype.grow_inert hadds₂.grows (fun _ _ hn => hn) rfl) htypes⟩
    rw [List.mapM_cons, Edit.run_bind hrun₁, Edit.run_bind hrun₂]
    rfl

theorem copyTypeTo_of_read {levels : Nat} {id : TypeId} {t : Tree.Ty ν}
    (h : st.readTypeTo spell levels id = .ok t) :
    ∃ id' st' f, (copyTypeTo levels id).run.run st = (.ok id', st') ∧ st.Adds st' f ∧
      TyAt st' (Spells spell) t id' f := by
  induction levels generalizing st id t with
  | zero => cases h
  | succ levels ih =>
    rcases readTypeTo_eq_ok_iff.1 h with ⟨p, hnode, rfl⟩ | ⟨n, args, ids, ts, hnode, hids, hts, rfl⟩ |
      ⟨elem, e, hnode, he, rfl⟩
    · exact copyTypeTo_primitive levels (type_eq_ok_iff.1 hnode)
    · obtain ⟨ids', st₁, f, hrun, hadds, hcopies⟩ := copyTypesTo_of_read ih hts
      exact copyTypeTo_named (type_eq_ok_iff.1 hnode) rfl hids hrun hadds hcopies
    · obtain ⟨e', st₁, f, hrun, hadds, hcopy⟩ := ih he
      exact copyTypeTo_array (type_eq_ok_iff.1 hnode) hrun hadds hcopy

/-- A type that can be read can be copied, into nodes that are new and distinct. -/
theorem copyType_of_read {id : TypeId} {t : Tree.Ty ν} (h : st.readType spell id = .ok t) :
    ∃ id' st' f, (copyType id).run.run st = (.ok id', st') ∧ st.Adds st' f ∧
      TyAt st' (Spells spell) t id' f := by
  obtain ⟨id', st', f, hrun, hcopy⟩ := copyTypeTo_of_read h
  refine ⟨id', st', f, ?_, hcopy⟩
  rw [copyType, Edit.run_bind Edit.run_get]
  exact hrun

end Store

end TupleAssign
