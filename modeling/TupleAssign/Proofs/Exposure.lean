import Mathlib.Data.List.Perm.Subperm
import TupleAssign.Hazard
import TupleAssign.Proofs.Stored
/-!
# What an expression exposes

An expression exposes itself and what its operands expose, but for the receiver of a field access or
of a call: nothing inside that is exposed. What an expression reads openly is then read by the
identifiers, field accesses and calls on a receiver that it exposes (`Expr.mem_readings_iff`), and
the analysis of hazards is exact: a value is hazardous if and only if it exposes a target that
stands before its own (`Hazard.analyze_exact`).
-/

namespace TupleAssign.Tree

variable {ν : Type}

/-! ## Exposed parts -/

/-- The receiver of a field access or of a call. -/
def Expr.receiver? : Expr ν → Option (Expr ν)
  | .field _ r _ => some r
  | .call _ r _ _ => r
  | _ => none

/-- The operands without the receiver, which is the first one. -/
def Expr.openOperands (e : Expr ν) : List (Expr ν) := e.operands.drop e.receiver?.toList.length

/-- The second expression occurs in the first, and not inside the receiver of a field access or of
a call. -/
inductive Expr.Exposes : Expr ν → Expr ν → Prop
  | self (e : Expr ν) : Exposes e e
  | operand {e o x : Expr ν} (ho : o ∈ e.openOperands) (h : Exposes o x) : Exposes e x

namespace Expr

/-- What a node reads by itself: an identifier its variable; a field access and a call on a receiver
read a member. -/
def reading? : Expr ν → Option (Reading ν)
  | .ident _ n => some (.var n)
  | e => e.receiver?.map fun _ => .member

theorem readingsAll_eq (es : List (Expr ν)) : readingsAll es = es.flatMap readings := by
  induction es with
  | nil => rw [readingsAll, List.flatMap_nil]
  | cons e es ih => rw [readingsAll, List.flatMap_cons, ih]

/-- An expression reads what its own node reads, and what its operands but for the receiver read. -/
theorem readings_eq (e : Expr ν) :
    e.readings = e.reading?.toList ++ e.openOperands.flatMap readings := by
  cases e with
  | call span r method args =>
    cases r <;> simp [readings, readingsAll_eq, reading?, openOperands, receiver?, operands]
  | _ => simp [readings, readingsAll_eq, reading?, openOperands, receiver?, operands]

theorem sizeOf_lt_of_mem_operands {e o : Expr ν} (h : o ∈ e.operands) : sizeOf o < sizeOf e := by
  cases e with
  | call span r method args =>
    rcases List.mem_append.1 h with h | h
    · obtain rfl := Option.mem_toList.1 h
      simp only [call.sizeOf_spec, Option.some.sizeOf_spec]
      omega
    · have := List.sizeOf_lt_of_mem h
      simp only [call.sizeOf_spec]
      omega
  | create span type args =>
    have : sizeOf o < sizeOf args := List.sizeOf_lt_of_mem h
    simp only [create.sizeOf_spec]
    omega
  | _ => simp [operands] at h ⊢ <;> grind

/-- What is read openly is read by a node that is exposed. -/
theorem exists_exposes (e : Expr ν) {r : Reading ν} (h : r ∈ e.readings) :
    ∃ x, e.Exposes x ∧ x.reading? = some r := by
  rw [readings_eq, List.mem_append, List.mem_flatMap] at h
  rcases h with h | ⟨o, ho, h⟩
  · exact ⟨e, .self e, Option.mem_toList.1 h⟩
  · have := sizeOf_lt_of_mem_operands (List.mem_of_mem_drop ho)
    obtain ⟨x, hx, hr⟩ := exists_exposes o h
    exact ⟨x, .operand ho hx, hr⟩
termination_by sizeOf e

theorem mem_readings_iff {e : Expr ν} {r : Reading ν} :
    r ∈ e.readings ↔ ∃ x, e.Exposes x ∧ x.reading? = some r := by
  refine ⟨exists_exposes e, ?_⟩
  rintro ⟨x, hx, hr⟩
  induction hx with
  | self e =>
    rw [readings_eq]
    exact List.mem_append_left _ (Option.mem_toList.2 hr)
  | operand ho _ ih =>
    rw [readings_eq]
    exact List.mem_append_right _ (List.mem_flatMap.2 ⟨_, ho, ih hr⟩)

/-- The variables read openly are the identifiers exposed. -/
theorem var_mem_readings_iff {e : Expr ν} {n : ν} :
    Reading.var n ∈ e.readings ↔ ∃ span, e.Exposes (.ident span n) := by
  rw [mem_readings_iff]
  constructor
  · rintro ⟨x, hx, hr⟩
    cases x with
    | ident span m =>
      cases hr
      exact ⟨span, hx⟩
    | _ => simp [reading?] at hr
  · rintro ⟨span, hx⟩
    exact ⟨_, hx, rfl⟩

/-- One of these variables is exposed. -/
def ExposesOneOf (names : List ν) (e : Expr ν) : Prop :=
  ∃ n ∈ names, ∃ span, e.Exposes (.ident span n)

/-- No identifier, no field access and no call on a receiver is exposed. -/
structure ReadsNothing (e : Expr ν) : Prop where
  ident : ∀ span n, ¬ e.Exposes (.ident span n)
  field : ∀ span r n, ¬ e.Exposes (.field span r n)
  call : ∀ span r method args, ¬ e.Exposes (.call span (some r) method args)

theorem readings_eq_nil_iff {e : Expr ν} : e.readings = [] ↔ e.ReadsNothing := by
  simp only [List.eq_nil_iff_forall_not_mem, mem_readings_iff, not_exists, not_and]
  constructor
  · intro h
    exact ⟨fun _ _ hx => h _ _ hx rfl, fun _ _ _ hx => h _ _ hx rfl, fun _ _ _ _ hx => h _ _ hx rfl⟩
  · intro h r x hx hr
    cases x with
    | ident span n => exact h.ident span n hx
    | field span r n => exact h.field span r n hx
    | call span r method args =>
      cases r with
      | some r => exact h.call span r method args hx
      | none => cases hr
    | _ => cases hr

end Expr

end TupleAssign.Tree

namespace TupleAssign.Hazard

open TupleAssign.Tree (Expr Reading)

variable {ν : Type} [DecidableEq ν] {forbidden forbidden' : List ν} {e : Expr ν}

/-! ## One value -/

theorem any_forbids_iff :
    e.readings.any (forbids forbidden) = true ↔ e.ExposesOneOf forbidden := by
  simp only [List.any_eq_true, Expr.ExposesOneOf, ← Expr.var_mem_readings_iff]
  constructor
  · rintro ⟨r, hr, hforbids⟩
    cases r with
    | var n => exact ⟨n, List.contains_iff_mem.1 hforbids, hr⟩
    | member => cases hforbids
  · rintro ⟨n, hn, hr⟩
    exact ⟨_, hr, List.contains_iff_mem.2 hn⟩

theorem classify_eq_hazardous_iff :
    classify forbidden e = .hazardous ↔ e.ExposesOneOf forbidden := by
  rw [← any_forbids_iff, classify]
  split
  · next h => simp [h]
  · next h => split <;> simp [h]

theorem classify_eq_indeterminate_iff :
    classify forbidden e = .indeterminate ↔ ¬ e.ExposesOneOf forbidden ∧ e.ReadsNothing := by
  rw [← any_forbids_iff, ← Expr.readings_eq_nil_iff, ← List.isEmpty_iff, classify]
  split
  · next h => simp [h]
  · next h => split <;> simp_all

/-- It does not matter in which order the forbidden variables are listed, or how often. -/
theorem classify_congr (h : ∀ n, n ∈ forbidden ↔ n ∈ forbidden') :
    classify forbidden e = classify forbidden' e := by
  have hforbids : forbids forbidden = forbids forbidden' := by
    funext r
    cases r with
    | var n => exact Bool.eq_iff_iff.2 (by simpa [forbids] using h n)
    | member => rfl
  rw [classify, classify, hforbids]

/-! ## The values of an unpacking -/

theorem length_analyzeAfter (done targets : List ν) (values : List (Expr ν)) :
    (analyzeAfter done targets values).length = min targets.length values.length := by
  induction targets generalizing done values with
  | nil => simp [analyzeAfter]
  | cons t targets ih =>
    cases values with
    | nil => simp [analyzeAfter]
    | cons v values => simp [analyzeAfter, ih]

/-- The targets passed so far are those that the list began with. -/
theorem getElem?_analyzeAfter (done before : List ν) (t : ν) (rest : List ν)
    (values : List (Expr ν)) :
    (analyzeAfter done (before ++ t :: rest) values)[before.length]? =
      values[before.length]?.map (classify (before.reverse ++ done)) := by
  induction before generalizing done values with
  | nil => cases values <;> simp [analyzeAfter]
  | cons b before ih =>
    cases values with
    | nil => simp [analyzeAfter]
    | cons v values => simpa [analyzeAfter] using ih (b :: done) values

/-- The targets before a value are forbidden to it; those from its own on are not. -/
theorem getElem?_analyze {before rest : List ν} (hrest : rest ≠ []) (values : List (Expr ν)) :
    (analyze (before ++ rest) values)[before.length]? =
      values[before.length]?.map (classify before) := by
  obtain ⟨t, rest, rfl⟩ := List.exists_cons_of_ne_nil hrest
  rw [analyze, getElem?_analyzeAfter, List.append_nil]
  congr 1
  funext v
  exact classify_congr fun n => List.mem_reverse

/-- The analysis of hazards, in terms of what is exposed. An entry depends only on its value and on
which targets stand before its own. -/
theorem analyze_exact (forbidden : List ν) (e : Expr ν) (targets : List ν)
    (values : List (Expr ν)) :
    -- A single expression.
    (classify forbidden e = .hazardous ↔ e.ExposesOneOf forbidden) ∧
    (classify forbidden e = .indeterminate ↔ ¬ e.ExposesOneOf forbidden ∧ e.ReadsNothing) ∧
    (classify forbidden e = .safe ↔ ¬ e.ExposesOneOf forbidden ∧ ¬ e.ReadsNothing) ∧
    -- The values of an unpacking.
    (analyze targets values).length = min targets.length values.length ∧
    (∀ i v, i < targets.length → values[i]? = some v →
      ((analyze targets values)[i]? = some .hazardous ↔ v.ExposesOneOf (targets.take i))) ∧
    (analyze targets values)[0]? ≠ some .hazardous ∧
    (∀ before before' rest rest' : List ν, before.Perm before' → rest ≠ [] → rest' ≠ [] →
      (analyze (before ++ rest) values)[before.length]? =
        (analyze (before' ++ rest') values)[before.length]?) := by
  have hentry : ∀ i v, i < targets.length → values[i]? = some v →
      ((analyze targets values)[i]? = some .hazardous ↔ v.ExposesOneOf (targets.take i)) := by
    intro i v hi hv
    have hrest : targets.drop i ≠ [] := by simpa using hi
    have h : (analyze (targets.take i ++ targets.drop i) values)[(targets.take i).length]? = _ :=
      getElem?_analyze hrest values
    rw [List.take_append_drop, List.length_take_of_le (Nat.le_of_lt hi), hv] at h
    rw [h, ← classify_eq_hazardous_iff]
    simp
  refine ⟨classify_eq_hazardous_iff, classify_eq_indeterminate_iff, ?_,
    length_analyzeAfter [] targets values, hentry, ?_, ?_⟩
  · have hhazardous : classify forbidden e = .hazardous ↔ _ := classify_eq_hazardous_iff
    have hnothing : classify forbidden e = .indeterminate ↔ _ := classify_eq_indeterminate_iff
    rw [← hhazardous] at hnothing ⊢
    cases hc : classify forbidden e <;> simp_all
  · intro h
    obtain ⟨hlt, -⟩ := List.getElem?_eq_some_iff.1 h
    rw [analyze, length_analyzeAfter] at hlt
    obtain ⟨n, hn, -⟩ := (hentry 0 values[0] (by omega) (by simp)).1 h
    simp at hn
  · intro before before' rest rest' hperm hrest hrest'
    rw [getElem?_analyze hrest, hperm.length_eq, getElem?_analyze hrest']
    congr 1
    funext v
    exact classify_congr fun n => hperm.mem_iff

/-- The values `b`, `a.next(b)`, `c[a]` for the targets `a`, `b`, `c`: the second names `a` only as
a receiver, the third reads it. -/
theorem analyze_exact_receiver :
    let a := Expr.ident {} "a"
    let next := Expr.call {} (some a) "next" [.ident {} "b"]
    let item := Expr.index {} (.ident {} "c") a
    let values := [.ident {} "b", next, item]
    analyze ["a", "b", "c"] values = [.safe, .safe, .hazardous] ∧
      ¬ next.ExposesOneOf ["a"] ∧ item.ExposesOneOf ["a", "b"] ∧
      (analyze (["a", "b"] ++ ["c"]) values)[2]? =
        (analyze (["b", "a"] ++ ["d", "a"]) values)[2]? := by
  intro a next item values
  obtain ⟨-, -, -, -, hentry, -, hsame⟩ := analyze_exact [] a ["a", "b", "c"] values
  refine ⟨by decide, ?_, ?_, ?_⟩
  · exact mt (hentry 1 next (by decide) rfl).2 (by decide)
  · exact (hentry 2 item (by decide) rfl).1 (by decide)
  · exact hsame ["a", "b"] ["b", "a"] ["c"] ["d", "a"] (by decide) (by decide) (by decide)

end TupleAssign.Hazard
