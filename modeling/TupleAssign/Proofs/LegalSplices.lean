import TupleAssign.Proofs.Splicing
/-!
# Legal splices

A splice is legal if the first occurrence of a statement gave way to other statements and the rest
of the list stayed. `checkSplice` accepts the legal splices and nothing else
(`checkSplice_eq_ok_iff`).

It takes a position from the list before the splice and cuts the list after it there. The lists come
from outside and may be of any length, so that these cuts stay within the lists is a fact of its
own. `checkSpliceWithin` makes the same comparisons and gives up at the first cut that would leave
its list; it never gives up (`checkSpliceWithin_eq`).
-/

namespace TupleAssign

variable {before after inserted : List StmtId} {replaced : StmtId}

/-! ## What is accepted -/

theorem eq_of_checkSplice (h : checkSplice before after replaced inserted = .ok ()) :
    ∃ pre post, before = pre ++ replaced :: post ∧ replaced ∉ pre ∧
      after = pre ++ (inserted ++ post) := by
  unfold checkSplice at h
  split at h
  · cases h
  · next position hposition =>
    obtain ⟨pre, post, rfl, hpre, rfl⟩ := idxOf?_eq_some_iff.1 hposition
    refine ⟨pre, post, rfl, hpre, ?_⟩
    dsimp only at h
    split_ifs at h with hlength hhead hmiddle htail
    rw [Decidable.not_not] at hhead hmiddle htail
    -- The three comparisons cover the list from end to end.
    calc after
        = after.take pre.length ++ ((after.drop pre.length).take inserted.length ++
            (after.drop pre.length).drop inserted.length) := by
          rw [List.take_append_drop, List.take_append_drop]
      _ = pre ++ (inserted ++ post) := by
          rw [hhead, hmiddle, List.drop_drop, htail]
          simp

theorem checkSplice_eq_ok_iff :
    checkSplice before after replaced inserted = .ok () ↔
      ∃ pre post, before = pre ++ replaced :: post ∧ replaced ∉ pre ∧
        after = pre ++ (inserted ++ post) := by
  constructor
  · exact eq_of_checkSplice
  · rintro ⟨pre, post, rfl, hpre, rfl⟩
    exact checkSplice_once hpre

/-! ## Cuts -/

/-- The entries of a list from one position up to another, if the positions are in order and the
list reaches that far. -/
def cut? (l : List StmtId) (start stop : Nat) : Option (List StmtId) :=
  if start ≤ stop ∧ stop ≤ l.length then some ((l.drop start).take (stop - start)) else none

/-- A difference, unless it is below zero. -/
def minus? (m n : Nat) : Option Nat := if n ≤ m then some (m - n) else none

theorem cut?_eq {l : List StmtId} {start stop : Nat} (h : start ≤ stop) (h' : stop ≤ l.length) :
    cut? l start stop = some ((l.drop start).take (stop - start)) :=
  if_pos ⟨h, h'⟩

theorem cut?_head {l : List StmtId} {stop : Nat} (h : stop ≤ l.length) :
    cut? l 0 stop = some (l.take stop) := by
  rw [cut?_eq (Nat.zero_le stop) h, List.drop_zero, Nat.sub_zero]

theorem cut?_tail {l : List StmtId} {start : Nat} (h : start ≤ l.length) :
    cut? l start l.length = some (l.drop start) := by
  rw [cut?_eq h (Nat.le_refl _), List.take_of_length_le (Nat.le_of_eq List.length_drop)]

/-- The comparisons of `checkSplice`, where no list is cut behind its end and nothing is taken from
zero. All cuts of the new list are made before the first comparison. -/
def checkSpliceWithin (before after : List StmtId) (replaced : StmtId) (inserted : List StmtId) :
    Option (Except SpliceError Unit) :=
  match before.idxOf? replaced with
  | none => some (.error (.notInOldList replaced))
  | some position => do
    let others ← minus? before.length 1
    let expected := others + inserted.length
    if after.length ≠ expected then return .error (.wrongLength after.length expected)
    let head ← cut? after 0 position
    let middle ← cut? after position (position + inserted.length)
    let tail ← cut? after (position + inserted.length) after.length
    let oldHead ← cut? before 0 position
    if head ≠ oldHead then return .error .headChanged
    if middle ≠ inserted then return .error (.insertedNotFound position)
    let oldTail ← cut? before (position + 1) before.length
    if tail ≠ oldTail then return .error .tailChanged
    return .ok ()

theorem checkSpliceWithin_eq (before after : List StmtId) (replaced : StmtId)
    (inserted : List StmtId) :
    checkSpliceWithin before after replaced inserted =
      some (checkSplice before after replaced inserted) := by
  unfold checkSpliceWithin checkSplice
  cases hposition : before.idxOf? replaced with
  | none => rfl
  | some position =>
    obtain ⟨pre, post, hbefore, -, hpre⟩ := idxOf?_eq_some_iff.1 hposition
    have hlt : position < before.length := by
      rw [hbefore, List.length_append, List.length_cons]
      omega
    have hminus : minus? before.length 1 = some (before.length - 1) := if_pos (by omega)
    simp only [hminus, Option.bind_eq_bind, Option.bind_some]
    by_cases hlength : after.length = before.length - 1 + inserted.length
    · -- With the lengths as expected, what follows the position is long enough on both sides.
      have hcut : position + inserted.length ≤ after.length := by omega
      rw [cut?_head (by omega), cut?_eq (Nat.le_add_right _ _) hcut, cut?_tail hcut,
        cut?_head (by omega), cut?_tail hlt, Nat.add_sub_cancel_left]
      simp only [Option.bind_some, hlength]
      split_ifs <;> rfl
    · simp only [if_pos hlength]
      rfl

/-- A splice is accepted if and only if it is legal, and no cut of a list goes past its end while
that is found out. -/
theorem checkSplice_legal (before after : List StmtId) (replaced : StmtId)
    (inserted : List StmtId) :
    (checkSplice before after replaced inserted = .ok () ↔
      ∃ pre post, before = pre ++ [replaced] ++ post ∧ replaced ∉ pre ∧
        after = pre ++ inserted ++ post) ∧
    checkSpliceWithin before after replaced inserted =
      some (checkSplice before after replaced inserted) := by
  refine ⟨?_, checkSpliceWithin_eq before after replaced inserted⟩
  simp only [List.append_assoc, List.singleton_append]
  exact checkSplice_eq_ok_iff

end TupleAssign
