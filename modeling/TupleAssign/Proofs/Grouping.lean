import TupleAssign.Tree.Print
/-!
# How text groups expressions

Operands that are binary, conditional or assignment expressions are written in parentheses, but a
unary one is not. So what is written behind a unary receiver belongs to the operand of its operator:
`Expr.grouped` is the expression as its text groups it. It has the same text (`render_grouped`), and
where no receiver is a unary expression it only lacks the spans (`grouped_eq_bare`).
-/

namespace TupleAssign.Tree

/-- The expression with `k` applied below its unary operators. -/
def Expr.inside (k : Expr → Expr) : Expr → Expr
  | .unary s op e => .unary s op (e.inside k)
  | e => k e

mutual

/-- The expression as its text groups it, without spans. A unary operator on a receiver goes
outside. -/
def Expr.grouped : Expr → Expr
  | .int _ v => .int {} v
  | .bool _ v => .bool {} v
  | .str _ s => .str {} s
  | .null _ => .null {}
  | .self _ => .self {}
  | .ident _ n => .ident {} n
  | .field _ r n => r.grouped.inside fun r => .field {} r n
  | .index _ r i => r.grouped.inside fun r => .index {} r i.grouped
  | .call _ none n args => .call {} none n (Expr.groupedAll args)
  | .call _ (some r) n args => r.grouped.inside fun r => .call {} (some r) n (Expr.groupedAll args)
  | .create _ t args => .create {} t (Expr.groupedAll args)
  | .unary _ op e => .unary {} op e.grouped
  | .binary _ op l r => .binary {} op l.grouped r.grouped
  | .conditional _ c t e => .conditional {} c.grouped t.grouped e.grouped
  | .assign _ t v => .assign {} t.grouped v.grouped

def Expr.groupedAll : List Expr → List Expr
  | [] => []
  | e :: es => e.grouped :: Expr.groupedAll es

end

mutual

/-- The expression without its spans. -/
def Expr.bare : Expr → Expr
  | .int _ v => .int {} v
  | .bool _ v => .bool {} v
  | .str _ s => .str {} s
  | .null _ => .null {}
  | .self _ => .self {}
  | .ident _ n => .ident {} n
  | .field _ r n => .field {} r.bare n
  | .index _ r i => .index {} r.bare i.bare
  | .call _ none n args => .call {} none n (Expr.bareAll args)
  | .call _ (some r) n args => .call {} (some r.bare) n (Expr.bareAll args)
  | .create _ t args => .create {} t (Expr.bareAll args)
  | .unary _ op e => .unary {} op e.bare
  | .binary _ op l r => .binary {} op l.bare r.bare
  | .conditional _ c t e => .conditional {} c.bare t.bare e.bare
  | .assign _ t v => .assign {} t.bare v.bare

def Expr.bareAll : List Expr → List Expr
  | [] => []
  | e :: es => e.bare :: Expr.bareAll es

end

def Expr.isUnary : Expr → Bool
  | .unary _ _ _ => true
  | _ => false

mutual

/-- Whether no receiver is a unary expression. -/
def Expr.hasPlainReceivers : Expr → Bool
  | .int _ _ | .bool _ _ | .str _ _ | .null _ | .self _ | .ident _ _ => true
  | .field _ r _ => !r.isUnary && r.hasPlainReceivers
  | .index _ r i => !r.isUnary && r.hasPlainReceivers && i.hasPlainReceivers
  | .call _ none _ args => Expr.havePlainReceivers args
  | .call _ (some r) _ args => !r.isUnary && r.hasPlainReceivers && Expr.havePlainReceivers args
  | .create _ _ args => Expr.havePlainReceivers args
  | .unary _ _ e => e.hasPlainReceivers
  | .binary _ _ l r => l.hasPlainReceivers && r.hasPlainReceivers
  | .conditional _ c t e => c.hasPlainReceivers && t.hasPlainReceivers && e.hasPlainReceivers
  | .assign _ t v => t.hasPlainReceivers && v.hasPlainReceivers

def Expr.havePlainReceivers : List Expr → Bool
  | [] => true
  | e :: es => e.hasPlainReceivers && Expr.havePlainReceivers es

end

theorem inside_of_not_unary {k : Expr → Expr} {e : Expr} (h : e.isUnary = false) :
    e.inside k = k e := by
  cases e <;> first | rfl | simp [Expr.isUnary] at h

theorem isUnary_eq_false {e : Expr} (h : ∀ s op e', e = .unary s op e' → False) :
    e.isUnary = false := by
  cases e with
  | unary s op e => exact (h s op e rfl).elim
  | _ => rfl

theorem isUnary_of_isCompound {e : Expr} (h : e.isCompound = true) : e.isUnary = false := by
  cases e with
  | unary s op e => cases h
  | _ => rfl

theorem isUnary_bare (e : Expr) : e.bare.isUnary = e.isUnary := by
  cases e with
  | call s r n args => cases r <;> rfl
  | _ => rfl

mutual

theorem grouped_eq_bare : ∀ e : Expr, e.hasPlainReceivers = true → e.grouped = e.bare
  | .int _ _, _ | .bool _ _, _ | .str _ _, _ | .null _, _ | .self _, _ | .ident _ _, _ => rfl
  | .field _ r n, h => by
    simp only [Expr.hasPlainReceivers, Bool.and_eq_true, Bool.not_eq_true'] at h
    rw [Expr.grouped, Expr.bare, grouped_eq_bare r h.2,
      inside_of_not_unary ((isUnary_bare r).trans h.1)]
  | .index _ r i, h => by
    simp only [Expr.hasPlainReceivers, Bool.and_eq_true, Bool.not_eq_true'] at h
    rw [Expr.grouped, Expr.bare, grouped_eq_bare r h.1.2, grouped_eq_bare i h.2,
      inside_of_not_unary ((isUnary_bare r).trans h.1.1)]
  | .call _ none n args, h => by
    rw [Expr.grouped, Expr.bare, groupedAll_eq_bareAll args h]
  | .call _ (some r) n args, h => by
    simp only [Expr.hasPlainReceivers, Bool.and_eq_true, Bool.not_eq_true'] at h
    rw [Expr.grouped, Expr.bare, grouped_eq_bare r h.1.2, groupedAll_eq_bareAll args h.2,
      inside_of_not_unary ((isUnary_bare r).trans h.1.1)]
  | .create _ t args, h => by
    rw [Expr.grouped, Expr.bare, groupedAll_eq_bareAll args h]
  | .unary _ op e, h => by
    rw [Expr.grouped, Expr.bare, grouped_eq_bare e h]
  | .binary _ op l r, h => by
    simp only [Expr.hasPlainReceivers, Bool.and_eq_true] at h
    rw [Expr.grouped, Expr.bare, grouped_eq_bare l h.1, grouped_eq_bare r h.2]
  | .conditional _ c t e, h => by
    simp only [Expr.hasPlainReceivers, Bool.and_eq_true] at h
    rw [Expr.grouped, Expr.bare, grouped_eq_bare c h.1.1, grouped_eq_bare t h.1.2,
      grouped_eq_bare e h.2]
  | .assign _ t v, h => by
    simp only [Expr.hasPlainReceivers, Bool.and_eq_true] at h
    rw [Expr.grouped, Expr.bare, grouped_eq_bare t h.1, grouped_eq_bare v h.2]

theorem groupedAll_eq_bareAll : ∀ es : List Expr, Expr.havePlainReceivers es = true →
    Expr.groupedAll es = Expr.bareAll es
  | [], _ => rfl
  | e :: es, h => by
    simp only [Expr.havePlainReceivers, Bool.and_eq_true] at h
    rw [Expr.groupedAll, Expr.bareAll, grouped_eq_bare e h.1, groupedAll_eq_bareAll es h.2]

end

/-! ## Grouping keeps the text -/

/-- What `k` adds is written behind its argument. -/
structure Appends (k : Expr → Expr) (suffix : String) : Prop where
  render : ∀ e, (k e).render = e.asOperand e.render ++ suffix
  isCompound : ∀ e, (k e).isCompound = false

theorem appends_field (n : String) : Appends (fun r => .field {} r n) ("." ++ n) :=
  ⟨fun e => by simp [Expr.render, String.append_assoc], fun _ => rfl⟩

theorem appends_index (i : Expr) : Appends (fun r => .index {} r i) ("[" ++ i.render ++ "]") :=
  ⟨fun e => by simp [Expr.render, String.append_assoc], fun _ => rfl⟩

theorem appends_call (n : String) (args : List Expr) :
    Appends (fun r => .call {} (some r) n args) ("." ++ n ++ argumentList (Expr.renderAll args)) :=
  ⟨fun e => by simp [Expr.render, String.append_assoc], fun _ => rfl⟩

theorem Appends.inside {k : Expr → Expr} {suffix : String} (hk : Appends k suffix) :
    Appends (Expr.inside k) suffix := by
  have both : ∀ e : Expr, (e.inside k).render = e.asOperand e.render ++ suffix ∧
      (e.inside k).isCompound = false := by
    intro e
    induction e using Expr.inside.induct with
    | case1 s op e ih =>
      obtain ⟨hrender, hcompound⟩ := ih
      refine ⟨?_, rfl⟩
      rw [Expr.inside, Expr.render, hrender, Expr.asOperand, hcompound]
      simp [Expr.asOperand, Expr.isCompound, Expr.render, String.append_assoc]
    | case2 e he =>
      rw [inside_of_not_unary (isUnary_eq_false he)]
      exact ⟨hk.render e, hk.isCompound e⟩
  exact ⟨fun e => (both e).1, fun e => (both e).2⟩

theorem isCompound_grouped (e : Expr) : e.grouped.isCompound = e.isCompound := by
  cases e with
  | field s r n => exact (appends_field n).inside.isCompound r.grouped
  | index s r i => exact (appends_index i.grouped).inside.isCompound r.grouped
  | call s r n args =>
    cases r with
    | none => rfl
    | some r => exact (appends_call n (Expr.groupedAll args)).inside.isCompound r.grouped
  | _ => rfl

theorem asOperand_grouped (e : Expr) (text : String) :
    e.grouped.asOperand text = e.asOperand text := by
  rw [Expr.asOperand, Expr.asOperand, isCompound_grouped]

mutual

/-- Regrouping an expression does not show in its text. -/
theorem render_grouped : ∀ e : Expr, e.grouped.render = e.render
  | .int _ _ | .bool _ _ | .str _ _ | .null _ | .self _ | .ident _ _ => rfl
  | .field s r n => by
    rw [Expr.grouped, (appends_field n).inside.render, asOperand_grouped, render_grouped r,
      ← (appends_field n).render]
    rfl
  | .index s r i => by
    rw [Expr.grouped, (appends_index i.grouped).inside.render, asOperand_grouped, render_grouped r,
      render_grouped i, ← (appends_index i).render]
    rfl
  | .call s none n args => by
    rw [Expr.grouped, Expr.render, Expr.render, renderAll_grouped args]
  | .call s (some r) n args => by
    rw [Expr.grouped, (appends_call n (Expr.groupedAll args)).inside.render, asOperand_grouped,
      render_grouped r, renderAll_grouped args, ← (appends_call n args).render]
    rfl
  | .create s t args => by
    rw [Expr.grouped, Expr.render, Expr.render, renderAll_grouped args]
  | .unary s op e => by
    rw [Expr.grouped, Expr.render, Expr.render, asOperand_grouped, render_grouped e]
  | .binary s op l r => by
    rw [Expr.grouped, Expr.render, Expr.render, asOperand_grouped, asOperand_grouped,
      render_grouped l, render_grouped r]
  | .conditional s c t e => by
    rw [Expr.grouped, Expr.render, Expr.render, asOperand_grouped, asOperand_grouped,
      asOperand_grouped, render_grouped c, render_grouped t, render_grouped e]
  | .assign s t v => by
    rw [Expr.grouped, Expr.render, Expr.render, render_grouped t, render_grouped v]

theorem renderAll_grouped :
    ∀ es : List Expr, Expr.renderAll (Expr.groupedAll es) = Expr.renderAll es
  | [] => rfl
  | e :: es => by
    rw [Expr.groupedAll, Expr.renderAll, Expr.renderAll, render_grouped e, renderAll_grouped es]

end

end TupleAssign.Tree
