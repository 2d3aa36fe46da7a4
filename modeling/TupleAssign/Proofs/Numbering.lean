import Mathlib.Data.List.Induction
import Mathlib.Data.Set.Function
import TupleAssign.Proofs.Naming
/-!
# The numbering of names

A fresh table numbers the strings that are interned in it by their first interning, the empty string
coming before all others. `Interner.Numbered` says this of a table and of the strings interned so
far. Interning keeps it (`Numbered.intern`), so it holds after any calls (`numbered_internAll`), and
what names and strings have to do with each other follows from it: a string and its name determine
each other, whenever the name was handed out (`Interner.names_numbered`).
-/

namespace TupleAssign.Interner

/-! ## Calls -/

/-- A call on a table. -/
inductive Call where
  | intern (s : String)
  | tryIntern (s : String)
  | get (s : String)
  | lookup (n : Name)

/-- The string that a call asks a name for. A string that is only looked for gets none. -/
def Call.string? : Call → Option String
  | .intern s | .tryIntern s => some s
  | .get _ | .lookup _ => none

/-- The table after a call. -/
def after (t : Interner) : Call → Interner
  | .intern s => (t.intern s).2
  | .tryIntern s =>
    match t.tryIntern s with
    | .ok r => r.2
    | .error _ => t
  | .get _ | .lookup _ => t

/-- The table after some calls, in order. -/
def afterAll (t : Interner) (cs : List Call) : Interner := cs.foldl after t

/-- The name that a call hands out, beside its string. -/
def answer? (t : Interner) : Call → Option (String × Name)
  | .intern s => some (s, (t.intern s).1)
  | .tryIntern s =>
    match t.tryIntern s with
    | .ok r => some (s, r.1)
    | .error _ => none
  | .get _ | .lookup _ => none

/-- The strings that some calls ask names for, in order and with repetitions. -/
def interned (cs : List Call) : List String := cs.filterMap Call.string?

/-- The names that some calls hand out, beside their strings. -/
def handedOut (t : Interner) : List Call → List (String × Name)
  | [] => []
  | c :: cs => (t.answer? c).toList ++ handedOut (t.after c) cs

variable {t t' : Interner} {s x : String} {n : Name} {ss : List String} {cs : List Call}

theorem afterAll_concat (t : Interner) (cs : List Call) (c : Call) :
    t.afterAll (cs ++ [c]) = (t.afterAll cs).after c :=
  List.foldl_append

theorem interned_concat (cs : List Call) (c : Call) :
    interned (cs ++ [c]) = interned cs ++ c.string?.toList := by
  cases h : c.string? <;> simp [interned, h]

theorem handedOut_concat (t : Interner) (cs : List Call) (c : Call) :
    t.handedOut (cs ++ [c]) = t.handedOut cs ++ ((t.afterAll cs).answer? c).toList := by
  induction cs generalizing t with
  | nil => simp [handedOut, afterAll]
  | cons c' cs ih => simp [handedOut, afterAll, ih, List.append_assoc]

/-! ## Entering a string -/

/-- A string of the table is found there, and no other is. -/
theorem isSome_get? : (t.get? s).isSome = true ↔ s ∈ t.strings := by
  simp only [Option.isSome_iff_exists, get?_eq_some_iff, mem_strings_iff]

/-- A string goes to the end of the table, unless it is there already. -/
theorem strings_intern (t : Interner) (s : String) :
    (t.intern s).2.strings.toList =
      if s ∈ t.strings then t.strings.toList else t.strings.toList ++ [s] := by
  cases h : t.get? s with
  | some n => rw [intern_of_get? h, if_pos (isSome_get?.1 (by rw [h]; rfl))]
  | none =>
    have hnew : s ∉ t.strings := fun hs => by simpa [h] using isSome_get?.2 hs
    rw [intern_of_new h, if_neg hnew, enter, Array.toList_push]

theorem size_le_after (t : Interner) (c : Call) : t.size ≤ (t.after c).size := by
  have hintern : ∀ s, t.size ≤ (t.intern s).2.size := by
    intro s
    have hlen := congrArg List.length (t.strings_intern s)
    simp only [Array.length_toList] at hlen
    rw [size, size, hlen]
    split <;> simp
  cases c with
  | intern s => exact hintern s
  | tryIntern s =>
    simp only [after, tryIntern]
    split
    · next h =>
      split at h <;> cases h
      exact hintern s
    · exact Nat.le_refl _
  | get s => exact Nat.le_refl _
  | lookup n => exact Nat.le_refl _

/-- Where there is room, a call enters the string that it asks a name for, and nothing else. -/
theorem after_eq (h : t.size < capacity) (c : Call) :
    t.after c = t.internAll c.string?.toList := by
  cases c with
  | tryIntern s => simp [after, tryIntern, h, internAll, Call.string?]
  | _ => rfl

/-- Where there is room, a call that asks for a name is answered with one. -/
theorem answer?_eq (h : t.size < capacity) (c : Call) :
    t.answer? c = c.string?.map fun s => (s, (t.intern s).1) := by
  cases c with
  | tryIntern s => simp [answer?, tryIntern, h, Call.string?]
  | _ => rfl

/-! ## Numbered tables -/

/-- The strings of the table are the empty one and these, each where it came first. -/
def Numbered (ss : List String) (t : Interner) : Prop :=
  t.strings.toList = ("" :: ss).eraseDups

theorem eraseDups_concat (l : List String) (s : String) :
    (l ++ [s]).eraseDups = if s ∈ l then l.eraseDups else l.eraseDups ++ [s] := by
  rw [List.eraseDups_append]
  by_cases h : s ∈ l <;> simp [List.removeAll, h, List.eraseDups_cons]

theorem numbered_fresh : Numbered [] {} := rfl

namespace Numbered

theorem mem_iff (h : Numbered ss t) : s ∈ t.strings ↔ s = "" ∨ s ∈ ss := by
  rw [← Array.mem_toList_iff, h, List.mem_eraseDups, List.mem_cons]

theorem intern (h : Numbered ss t) (s : String) : Numbered (ss ++ [s]) (t.intern s).2 := by
  rw [Numbered, strings_intern, ← List.cons_append, eraseDups_concat, ← h]
  simp only [h.mem_iff, List.mem_cons]

end Numbered

/-! ## Histories -/

/-- After calls for which there was room, the table is as if the strings had been interned one by
one. -/
theorem afterAll_eq (t : Interner) (cs : List Call) (h : (t.afterAll cs).size < capacity) :
    t.afterAll cs = t.internAll (interned cs) := by
  induction cs using List.reverseRecOn with
  | nil => rfl
  | append_singleton cs c ih =>
    rw [afterAll_concat] at h ⊢
    have hbefore := Nat.lt_of_le_of_lt (size_le_after _ c) h
    rw [after_eq hbefore, ih hbefore, interned_concat, internAll, internAll, internAll,
      List.foldl_append]

theorem numbered_internAll (ss : List String) : Numbered ss (({} : Interner).internAll ss) := by
  induction ss using List.reverseRecOn with
  | nil => exact numbered_fresh
  | append_singleton ss s ih =>
    rw [internAll, List.foldl_concat]
    exact ih.intern s

/-- What is handed out stands for its string from then on. -/
theorem knows_of_handedOut (t : Interner) (cs : List Call) (h : (t.afterAll cs).size < capacity) :
    (t.handedOut cs).map (·.1) = interned cs ∧
      ∀ p ∈ t.handedOut cs, (t.afterAll cs).Knows p.2 p.1 := by
  induction cs using List.reverseRecOn with
  | nil => simp [handedOut, interned]
  | append_singleton cs c ih =>
    rw [afterAll_concat] at h
    have hbefore := Nat.lt_of_le_of_lt (size_le_after _ c) h
    obtain ⟨hstrings, hknows⟩ := ih hbefore
    rw [handedOut_concat, answer?_eq hbefore, afterAll_concat, after_eq hbefore]
    constructor
    · rw [List.map_append, hstrings, interned_concat]
      cases c.string? <;> rfl
    · intro p hp
      rcases List.mem_append.1 hp with hp | hp
      · exact keeps_internAll _ _ _ _ (hknows p hp)
      · obtain ⟨s, hs, rfl⟩ := Option.map_eq_some_iff.1 (Option.mem_toList.1 hp)
        rw [hs]
        exact knows_intern _ s

/-- The name found for a string is the one that was first handed out for it. -/
theorem Numbered.get?_eq_lookup (h : Numbered ss t) {named : List (String × Name)}
    (hstrings : named.map (·.1) = ss) (hknows : ∀ p ∈ named, t.Knows p.2 p.1) (s : String) :
    t.get? s = (("", Name.empty) :: named).lookup s := by
  have hempty : t.Knows .empty "" := by
    rw [Knows, ← Array.getElem?_toList, h, List.eraseDups_cons]
    rfl
  have hall : ∀ p ∈ ("", Name.empty) :: named, t.Knows p.2 p.1 :=
    List.forall_mem_cons.2 ⟨hempty, hknows⟩
  cases hfound : (("", Name.empty) :: named).lookup s with
  | some n =>
    obtain ⟨before, after, heq, -⟩ := List.lookup_eq_some_iff.1 hfound
    exact get?_eq_some_iff.2 (hall (s, n) (by simp [heq]))
  | none =>
    have hnone := List.lookup_eq_none_iff.1 hfound
    rw [← Option.not_isSome_iff_eq_none, isSome_get?, h.mem_iff, ← hstrings]
    rintro (rfl | hs)
    · simpa using hnone _ List.mem_cons_self
    · obtain ⟨p, hp, rfl⟩ := List.mem_map.1 hs
      simpa using hnone p (List.mem_cons_of_mem _ hp)

/-- Names and strings after any calls on a fresh table, in terms of the strings that names were
asked for. -/
theorem names_numbered (cs : List Call) (hroom : (({} : Interner).afterAll cs).size < capacity) :
    let t := ({} : Interner).afterAll cs
    let named := ({} : Interner).handedOut cs
    -- Names and strings correspond one to one, and the names go by first interning.
    Set.BijOn t.lookup {n | n.index < t.size} {s | s = "" ∨ s ∈ interned cs} ∧
    t.lookup .empty = "" ∧
    t.strings.toList = ("" :: interned cs).eraseDups ∧
    -- Every call that asks for a name gets one, whenever it is made: one name for each string.
    named.map (·.1) = interned cs ∧
    (∀ p ∈ named, ∀ q ∈ named, p.2 = q.2 ↔ p.1 = q.1) ∧
    (∀ p ∈ named, t.lookup p.2 = p.1) ∧
    -- What is found for a string is its name, which is the one handed out.
    (∀ s n, t.get? s = some n ↔ n.index < t.size ∧ t.lookup n = s) ∧
    (∀ s, t.get? s = (("", Name.empty) :: named).lookup s) ∧
    (∀ n : Name, t.size ≤ n.index → t.lookup n = "") ∧
    -- The other calls make no difference.
    t = ({} : Interner).internAll (interned cs) := by
  intro t named
  obtain ⟨hstrings, hknows⟩ := knows_of_handedOut {} cs hroom
  have heq : t = ({} : Interner).internAll (interned cs) := afterAll_eq {} cs hroom
  have h : Numbered (interned cs) t := heq ▸ numbered_internAll (interned cs)
  have hget : ∀ s n, t.get? s = some n ↔ n.index < t.size ∧ t.lookup n = s :=
    fun s n => get?_eq_some_iff.trans knows_iff
  have hfound := h.get?_eq_lookup hstrings hknows
  refine ⟨⟨?_, ?_, ?_⟩, ?_, h, hstrings, ?_, fun p hp => (hknows p hp).reads, hget, hfound, ?_, heq⟩
  · -- The string of a name is in the table, so it was interned.
    intro n hn
    exact h.mem_iff.1 (Array.mem_of_getElem? (knows_iff.2 ⟨hn, rfl⟩))
  · intro n hn m hm hnm
    exact Knows.inj (knows_iff.2 ⟨hn, hnm⟩) (knows_iff.2 ⟨hm, rfl⟩)
  · intro s hs
    obtain ⟨n, hn⟩ := Option.isSome_iff_exists.1 (isSome_get?.2 (h.mem_iff.2 hs))
    exact ⟨n, (hget s n).1 hn⟩
  · exact ((hget "" .empty).1 (hfound "")).2
  · intro p hp q hq
    constructor
    · intro hname
      rw [← (hknows p hp).reads, ← (hknows q hq).reads, hname]
    · intro hstring
      exact (hknows p hp).inj (hstring ▸ hknows q hq)
  · intro n hn
    rw [lookup, Array.getElem?_eq_none hn, Option.getD_none]

/-- Strings interned again, the empty one too, get the names they have. -/
theorem names_numbered_again :
    let cs := [Call.intern "tuple", .get "x", .tryIntern "", .intern "lombok.Tuple", .lookup ⟨7⟩,
      .tryIntern "tuple"]
    let t := ({} : Interner).afterAll cs
    t.size < capacity ∧ t.strings.toList = ["", "tuple", "lombok.Tuple"] ∧
      ({} : Interner).handedOut cs =
        [("tuple", ⟨1⟩), ("", ⟨0⟩), ("lombok.Tuple", ⟨2⟩), ("tuple", ⟨1⟩)] ∧
      t.get? "tuple" = some ⟨1⟩ := by
  intro cs t
  have hroom : t.size < capacity := by decide +kernel
  obtain ⟨-, -, hstrings, -, -, -, -, hfound, -⟩ := names_numbered cs hroom
  exact ⟨hroom, hstrings.trans (by decide), by decide +kernel,
    (hfound "tuple").trans (by decide +kernel)⟩

end TupleAssign.Interner
