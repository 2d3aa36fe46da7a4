import TupleAssign.Proofs.Grouping
import TupleAssign.Proofs.StmtWords
/-!
# Which `if` an `else` belongs to

Only blocks are written with braces, so an `else` is written alike whether it belongs to an `if` or
to one that ends the branch of that `if`. A reader gives it to the last `if` that has none yet:
`Stmt.grouped` is the statement as its text groups it. It has the same words (`words_grouped`).
-/

namespace TupleAssign.Tree

/-! ## Open statements -/

/-- Whether the statement ends in an `if` that could still take an `else`. -/
def Stmt.endsOpen : Stmt → Bool
  | .ifElse _ _ _ none => true
  | .ifElse _ _ _ (some e) => e.endsOpen
  | .whileLoop _ _ b => b.endsOpen
  | _ => false

/-- The statement with an `else` for the last `if` that has none. -/
def Stmt.attach : Stmt → Stmt → Stmt
  | .ifElse s c t none, e =>
    if t.endsOpen then .ifElse s c (t.attach e) none else .ifElse s c t (some e)
  | .ifElse s c t (some u), e => .ifElse s c t (some (u.attach e))
  | .whileLoop s c b, e => .whileLoop s c (b.attach e)
  | s, _ => s

/-- The `if` that is read where an `else` is written behind the branch `t`. -/
def Stmt.withElse (c : Expr) (t e : Stmt) : Stmt :=
  if t.endsOpen then .ifElse {} c (t.attach e) none else .ifElse {} c t (some e)

/-! ## Grouping -/

mutual

/-- The statement as its text groups it, without spans. -/
def Stmt.grouped : Stmt → Stmt
  | .expr _ e => .expr {} e.grouped
  | .localVar _ t n init isFinal => .localVar {} t n (init.map Expr.grouped) isFinal
  | .block _ ss => .block {} (Stmt.groupedAll ss)
  | .ifElse _ c t none => .ifElse {} c.grouped t.grouped none
  | .ifElse _ c t (some e) => Stmt.withElse c.grouped t.grouped e.grouped
  | .whileLoop _ c b => .whileLoop {} c.grouped b.grouped
  | .switch _ c arms => .switch {} c.grouped (Stmt.groupedArms arms)
  | .returnWith _ e => .returnWith {} (e.map Expr.grouped)
  | .breakOut _ => .breakOut {}
  | .continueOn _ => .continueOn {}
  | .empty _ => .empty {}

def Stmt.groupedAll : List Stmt → List Stmt
  | [] => []
  | s :: ss => s.grouped :: Stmt.groupedAll ss

def Stmt.groupedArms : List Arm → List Arm
  | [] => []
  | .mk label ss :: arms =>
    .mk (label.map Expr.grouped) (Stmt.groupedAll ss) :: Stmt.groupedArms arms

end

mutual

/-- The statement without its spans. -/
def Stmt.bare : Stmt → Stmt
  | .expr _ e => .expr {} e.bare
  | .localVar _ t n init isFinal => .localVar {} t n (init.map Expr.bare) isFinal
  | .block _ ss => .block {} (Stmt.bareAll ss)
  | .ifElse _ c t none => .ifElse {} c.bare t.bare none
  | .ifElse _ c t (some e) => .ifElse {} c.bare t.bare (some e.bare)
  | .whileLoop _ c b => .whileLoop {} c.bare b.bare
  | .switch _ c arms => .switch {} c.bare (Stmt.bareArms arms)
  | .returnWith _ e => .returnWith {} (e.map Expr.bare)
  | .breakOut _ => .breakOut {}
  | .continueOn _ => .continueOn {}
  | .empty _ => .empty {}

def Stmt.bareAll : List Stmt → List Stmt
  | [] => []
  | s :: ss => s.bare :: Stmt.bareAll ss

def Stmt.bareArms : List Arm → List Arm
  | [] => []
  | .mk label ss :: arms => .mk (label.map Expr.bare) (Stmt.bareAll ss) :: Stmt.bareArms arms

end

mutual

/-- Whether no branch before an `else` ends in an `if` that could take it. -/
def Stmt.hasClearElses : Stmt → Bool
  | .expr _ _ | .localVar _ _ _ _ _ => true
  | .returnWith _ _ | .breakOut _ | .continueOn _ | .empty _ => true
  | .block _ ss => Stmt.haveClearElses ss
  | .ifElse _ _ t none => t.hasClearElses
  | .ifElse _ _ t (some e) => !t.endsOpen && t.hasClearElses && e.hasClearElses
  | .whileLoop _ _ b => b.hasClearElses
  | .switch _ _ arms => Stmt.armsHaveClearElses arms

def Stmt.haveClearElses : List Stmt → Bool
  | [] => true
  | s :: ss => s.hasClearElses && Stmt.haveClearElses ss

def Stmt.armsHaveClearElses : List Arm → Bool
  | [] => true
  | .mk _ ss :: arms => Stmt.haveClearElses ss && Stmt.armsHaveClearElses arms

end

theorem endsOpen_bare : ∀ s : Stmt, s.bare.endsOpen = s.endsOpen
  | .ifElse _ _ _ none => rfl
  | .ifElse _ _ _ (some e) => endsOpen_bare e
  | .whileLoop _ _ b => endsOpen_bare b
  | .expr _ _ | .localVar _ _ _ _ _ | .block _ _ | .switch _ _ _ | .returnWith _ _ | .breakOut _
  | .continueOn _ | .empty _ => rfl

/-! ## Grouping keeps the words -/

theorem words_attach {e : Stmt} : ∀ {t : Stmt}, t.endsOpen = true →
    (t.attach e).words = t.words ++ "else".toList :: e.words
  | .ifElse s c t none, _ => by
    unfold Stmt.attach
    split
    · rename_i hopen
      rw [words_ifElse_none, words_ifElse_none, words_attach hopen, List.append_assoc]
    · rw [words_ifElse_none, words_ifElse_some, List.append_assoc]
  | .ifElse s c t (some u), h => by
    rw [Stmt.attach, words_ifElse_some, words_ifElse_some, words_attach (t := u) h]
    simp
  | .whileLoop s c b, h => by
    rw [Stmt.attach, words_whileLoop, words_whileLoop, words_attach (t := b) h, List.append_assoc]

theorem words_withElse (c : Expr) (t e : Stmt) :
    (Stmt.withElse c t e).words =
      words ("if (" ++ c.render ++ ")").toList ++ (t.words ++ "else".toList :: e.words) := by
  unfold Stmt.withElse
  split
  · rename_i hopen
    rw [words_ifElse_none, words_attach hopen]
  · rw [words_ifElse_some]

theorem withInit_grouped (text : String) (init : Option Expr) :
    withInit text (init.map Expr.grouped) = withInit text init := by
  cases init with
  | none => rfl
  | some e => simp [withInit, render_grouped]

theorem labelText_grouped (label : Option Expr) :
    labelText (label.map Expr.grouped) = labelText label := by
  cases label with
  | none => rfl
  | some e => simp [labelText, render_grouped]

mutual

/-- Regrouping a statement does not show in its words. -/
theorem words_grouped : ∀ s : Stmt, s.grouped.words = s.words
  | .expr _ e => by
    rw [Stmt.grouped, words_of_not_isBlock rfl, words_of_not_isBlock rfl, Stmt.inner, Stmt.inner,
      render_grouped]
  | .localVar _ t n init isFinal => by
    rw [Stmt.grouped, words_of_not_isBlock rfl, words_of_not_isBlock rfl, Stmt.inner, Stmt.inner,
      withInit_grouped]
  | .block _ ss => by rw [Stmt.grouped, words_block, words_block, words_groupedAll ss]
  | .ifElse _ c t none => by
    rw [Stmt.grouped, words_ifElse_none, words_ifElse_none, render_grouped, words_grouped t]
  | .ifElse _ c t (some e) => by
    rw [Stmt.grouped, words_withElse, words_ifElse_some, render_grouped, words_grouped t,
      words_grouped e]
  | .whileLoop _ c b => by
    rw [Stmt.grouped, words_whileLoop, words_whileLoop, render_grouped, words_grouped b]
  | .switch _ c arms => by
    rw [Stmt.grouped, words_switch, words_switch, render_grouped, words_groupedArms arms]
  | .returnWith _ none => rfl
  | .returnWith _ (some e) => by
    rw [Stmt.grouped, Option.map_some, words_of_not_isBlock rfl, words_of_not_isBlock rfl,
      Stmt.inner, Stmt.inner, render_grouped]
  | .breakOut _ | .continueOn _ | .empty _ => rfl

theorem words_groupedAll : ∀ ss : List Stmt,
    (Stmt.groupedAll ss).flatMap Stmt.words = ss.flatMap Stmt.words
  | [] => rfl
  | s :: ss => by
    rw [Stmt.groupedAll, List.flatMap_cons, List.flatMap_cons, words_grouped s, words_groupedAll ss]

theorem words_groupedArms : ∀ arms : List Arm,
    (Stmt.groupedArms arms).flatMap Arm.words = arms.flatMap Arm.words
  | [] => rfl
  | .mk label ss :: arms => by
    rw [Stmt.groupedArms, List.flatMap_cons, List.flatMap_cons, words_groupedArms arms, Arm.words,
      Arm.words, Arm.label, Arm.label, Arm.stmts, Arm.stmts, labelText_grouped, words_groupedAll ss]

end

end TupleAssign.Tree
