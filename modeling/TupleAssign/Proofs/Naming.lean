import Mathlib.Data.Finset.Card
import TupleAssign.Proofs.Rewrite
import TupleAssign.Proofs.Stored
/-!
# Names

What is in the table of names stays there. Names of temporaries are numbered, and different numbers
give different names; so a search among one more number than there are reserved names finds a free
one (`TempNames.take_not_mem`), and the counter of the search never exceeds the size of the table
(`TempNames.Tried.next_le`).
-/

namespace TupleAssign

/-! ## Interning -/

/-- What the map finds is what the table reads. -/
theorem Interner.get?_eq_some_iff {t : Interner} {s : String} {n : Name} :
    t.get? s = some n ↔ t.Knows n s :=
  t.inverse s n

/-- No two names have one string. -/
theorem Interner.Knows.inj {t : Interner} {n m : Name} {s : String} (hn : t.Knows n s)
    (hm : t.Knows m s) : n = m :=
  Option.some.inj ((get?_eq_some_iff.2 hn).symm.trans (get?_eq_some_iff.2 hm))

theorem Interner.knows_intern (t : Interner) (s : String) :
    (t.intern s).2.Knows (t.intern s).1 s := by
  cases h : t.get? s with
  | some n =>
    rw [intern_of_get? h]
    exact get?_eq_some_iff.1 h
  | none =>
    rw [intern_of_new h]
    exact Array.getElem?_push_size

theorem Interner.Knows.intern {t : Interner} {n : Name} {s : String} (h : t.Knows n s)
    (s' : String) : (t.intern s').2.Knows n s := by
  cases h' : t.get? s' with
  | some m =>
    rw [intern_of_get? h']
    exact h
  | none =>
    have hlt := (Array.getElem?_eq_some_iff.1 h).1
    rw [intern_of_new h']
    simpa [Knows, enter, Array.getElem?_push, Nat.ne_of_lt hlt] using h

theorem Interner.Knows.reads {t : Interner} {n : Name} {s : String} (h : t.Knows n s) :
    t.Reads n s := by
  simp only [Knows] at h
  change t.lookup n = s
  rw [lookup, h, Option.getD_some]

theorem Interner.knows_iff {t : Interner} {n : Name} {s : String} :
    t.Knows n s ↔ n.index < t.size ∧ t.lookup n = s := by
  constructor
  · intro h
    exact ⟨(Array.getElem?_eq_some_iff.1 h).1, h.reads⟩
  · rintro ⟨hlt, rfl⟩
    simp only [Knows, lookup, Array.getElem?_eq_getElem (show n.index < t.strings.size from hlt),
      Option.getD_some]

/-- What is known stays known. -/
def Interner.Keeps (t t' : Interner) : Prop := ∀ n s, t.Knows n s → t'.Knows n s

theorem Interner.Keeps.trans {t t' t'' : Interner} (h : t.Keeps t') (h' : t'.Keeps t'') :
    t.Keeps t'' :=
  fun n s hn => h' n s (h n s hn)

theorem Interner.keeps_intern (t : Interner) (s : String) : t.Keeps (t.intern s).2 :=
  fun _ _ hn => hn.intern s

/-- Enters every string of a list, in order. -/
def Interner.internAll (t : Interner) (ss : List String) : Interner :=
  ss.foldl (fun t s => (t.intern s).2) t

theorem Interner.snd_internEach (t : Interner) (ss : List String) :
    (t.internEach ss).2 = t.internAll ss := by
  induction ss generalizing t with
  | nil => rfl
  | cons s ss ih => exact ih (t.intern s).2

theorem Interner.keeps_internAll (t : Interner) (ss : List String) : t.Keeps (t.internAll ss) := by
  induction ss generalizing t with
  | nil => exact fun _ _ hn => hn
  | cons s ss ih => exact (t.keeps_intern s).trans (ih (t.intern s).2)

theorem Interner.exists_knows_internAll (t : Interner) {ss : List String} {s : String}
    (h : s ∈ ss) : ∃ n, (t.internAll ss).Knows n s := by
  induction ss generalizing t with
  | nil => simp at h
  | cons s' ss ih =>
    rcases List.mem_cons.1 h with rfl | h
    · exact ⟨_, (t.intern s).2.keeps_internAll ss _ _ (t.knows_intern s)⟩
    · exact ih (t.intern s').2 h

theorem Interner.knows_internEach (t : Interner) (ss : List String) :
    List.Forall₂ (t.internAll ss).Knows (t.internEach ss).1 ss := by
  induction ss generalizing t with
  | nil => exact .nil
  | cons s ss ih =>
    exact .cons ((t.intern s).2.keeps_internAll ss _ _ (t.knows_intern s)) (ih (t.intern s).2)

/-- A string that is in the table is not entered again. -/
theorem Interner.intern_of_knows {t : Interner} {s : String} {n : Name} (h : t.Knows n s) :
    t.intern s = (n, t) :=
  intern_of_get? (get?_eq_some_iff.2 h)

theorem Interner.internAll_of_knows {t : Interner} {ss : List String}
    (h : ∀ s ∈ ss, ∃ n, t.Knows n s) : t.internAll ss = t := by
  induction ss with
  | nil => rfl
  | cons s ss ih =>
    obtain ⟨⟨n, hn⟩, hss⟩ := List.forall_mem_cons.1 h
    rw [internAll, List.foldl_cons, intern_of_knows hn]
    exact ih hss

/-! ## The strings of a table -/

namespace Interner

variable {t t' : Interner} {s x : String}

theorem mem_strings_iff : s ∈ t.strings ↔ ∃ n, t.Knows n s := by
  rw [Array.mem_iff_getElem?]
  exact ⟨fun ⟨i, hi⟩ => ⟨⟨i⟩, hi⟩, fun ⟨n, hn⟩ => ⟨n.index, hn⟩⟩

theorem Keeps.mem (h : t.Keeps t') (hx : x ∈ t.strings) : x ∈ t'.strings := by
  obtain ⟨n, hn⟩ := mem_strings_iff.1 hx
  exact mem_strings_iff.2 ⟨n, h n x hn⟩

theorem mem_intern : x ∈ (t.intern s).2.strings ↔ x ∈ t.strings ∨ x = s := by
  constructor
  · intro h
    cases h' : t.get? s with
    | some n =>
      rw [intern_of_get? h'] at h
      exact .inl h
    | none =>
      rw [intern_of_new h'] at h
      exact Array.mem_push.1 h
  · rintro (h | rfl)
    · exact (t.keeps_intern s).mem h
    · exact mem_strings_iff.2 ⟨_, t.knows_intern x⟩

theorem mem_internAll {ss : List String} :
    x ∈ (t.internAll ss).strings ↔ x ∈ t.strings ∨ x ∈ ss := by
  induction ss generalizing t with
  | nil => simp [internAll]
  | cons s ss ih =>
    have hrest : x ∈ ((t.intern s).2.internAll ss).strings ↔ _ := ih
    rw [internAll, List.foldl_cons, ← internAll, hrest, mem_intern, List.mem_cons, or_assoc]

end Interner

/-! ## Numbered names -/

namespace TempNames

theorem candidate_injective (stem : String) : Function.Injective (candidate stem) := by
  intro m n h
  have htext : toString m = toString n := (String.append_right_inj stem).1 h
  rw [Nat.toString_eq_ofList_toDigits, Nat.toString_eq_ofList_toDigits] at htext
  have hdigits := congrArg (fun ds => Nat.ofDigitChars 10 ds 0) (String.ofList_injective htext)
  simpa only [Nat.ofDigitChars_ten_toDigits] using hdigits

theorem le_firstFree (stem : String) (reserved : List String) (tries n : Nat) :
    n ≤ firstFree stem reserved tries n := by
  induction tries generalizing n with
  | zero => exact Nat.le_refl n
  | succ tries ih =>
    rw [firstFree]
    split
    · exact Nat.le_trans (Nat.le_succ n) (ih (n + 1))
    · exact Nat.le_refl n

/-- If the search ends at a reserved name, all names that it went through are reserved. -/
theorem mem_of_firstFree_mem {stem : String} {reserved : List String} {tries n : Nat}
    (h : candidate stem (firstFree stem reserved tries n) ∈ reserved) :
    ∀ k < tries, candidate stem (n + k) ∈ reserved := by
  induction tries generalizing n with
  | zero => simp
  | succ tries ih =>
    rw [firstFree] at h
    split at h
    · next hn =>
      intro k hk
      cases k with
      | zero => exact List.contains_iff_mem.1 hn
      | succ k =>
        rw [← Nat.add_assoc, Nat.add_right_comm]
        exact ih h k (Nat.lt_of_succ_lt_succ hk)
    · next hn => exact absurd (List.contains_iff_mem.2 h) hn

/-- There are not enough reserved names to block the search. -/
theorem nextFree_not_mem (t : TempNames) : candidate t.stem t.nextFree ∉ t.reserved := by
  intro h
  have hall := mem_of_firstFree_mem h
  have hnodup : ((List.range (t.reserved.length + 1)).map
      fun k => candidate t.stem (t.next + k)).Nodup :=
    List.Nodup.map (fun m n hmn => Nat.add_left_cancel (candidate_injective t.stem hmn))
      List.nodup_range
  have hsub : ((List.range (t.reserved.length + 1)).map
      fun k => candidate t.stem (t.next + k)) ⊆ t.reserved := by
    intro s hs
    obtain ⟨k, hk, rfl⟩ := List.mem_map.1 hs
    exact hall k (List.mem_range.1 hk)
  have hlen := (List.subperm_of_subset hnodup hsub).length_le
  simp only [List.length_map, List.length_range] at hlen
  omega

theorem take_not_mem (t : TempNames) : t.take.1 ∉ t.reserved := t.nextFree_not_mem

/-! ## The search in a table -/

/-- The names of the numbers from `n` to `k`. -/
def candidates (stem : String) (n k : Nat) : List String :=
  (List.range' n (k + 1 - n)).map (candidate stem)

theorem candidates_self (stem : String) (n : Nat) : candidates stem n n = [candidate stem n] := by
  simp [candidates]

theorem candidates_of_lt (stem : String) {n k : Nat} (h : n < k) :
    candidates stem n k = candidate stem n :: candidates stem (n + 1) k := by
  have hlen : k + 1 - n = k + 1 - (n + 1) + 1 := by omega
  rw [candidates, hlen, List.range'_succ]
  rfl

theorem mem_candidates {stem : String} {n k j : Nat} (hn : n ≤ j) (hk : j ≤ k) :
    candidate stem j ∈ candidates stem n k :=
  List.mem_map.2 ⟨j, List.mem_range'_1.2 ⟨hn, by omega⟩, rfl⟩

section Search

variable {stem : String} {reserved : List Name} {tries n : Nat} {names : Interner}

theorem le_search : n ≤ (search stem reserved tries n names).2.1 := by
  induction tries generalizing n names with
  | zero => exact Nat.le_refl n
  | succ tries ih =>
    unfold search
    dsimp only
    split
    · exact Nat.le_of_succ_le ih
    · exact Nat.le_refl n

/-- The search enters the names that it tries, up to the one that it ends with. -/
theorem search_eq :
    (search stem reserved tries n names).2.2 =
        names.internAll (candidates stem n (search stem reserved tries n names).2.1) ∧
      (search stem reserved tries n names).2.2.Knows (search stem reserved tries n names).1
        (candidate stem (search stem reserved tries n names).2.1) := by
  have hone : ∀ (names : Interner) (n : Nat), (names.intern (candidate stem n)).2 =
      names.internAll (candidates stem n n) := by
    intro names n
    rw [candidates_self]
    rfl
  induction tries generalizing n names with
  | zero => exact ⟨hone names n, names.knows_intern _⟩
  | succ tries ih =>
    unfold search
    dsimp only
    split
    · refine ⟨?_, ih.2⟩
      rw [candidates_of_lt stem (Nat.lt_of_succ_le le_search)]
      exact ih.1
    · exact ⟨hone names n, names.knows_intern _⟩

/-- A name is among others if and only if its string is among theirs. -/
theorem mem_iff_of_knows {ns : List Name} {ss : List String} {m : Name} {s : String}
    (h : List.Forall₂ names.Knows ns ss) (hm : names.Knows m s) : m ∈ ns ↔ s ∈ ss := by
  induction h with
  | nil => simp
  | @cons n x ns ss hn _ ih =>
    have hhead : m = n ↔ s = x :=
      ⟨fun he => Option.some.inj (hm.symm.trans (he ▸ hn)), fun he => (he ▸ hm).inj hn⟩
    rw [List.mem_cons, List.mem_cons, hhead, ih]

/-- In a table that knows the reserved names, the search is one among strings. -/
theorem search_number {ss : List String} (h : List.Forall₂ names.Knows reserved ss) :
    (search stem reserved tries n names).2.1 = firstFree stem ss tries n := by
  induction tries generalizing n names with
  | zero => rfl
  | succ tries ih =>
    have hkeeps := names.keeps_intern (candidate stem n)
    have h' := h.imp hkeeps
    have hmem := mem_iff_of_knows h' (names.knows_intern (candidate stem n))
    unfold search firstFree
    dsimp only
    rw [Bool.eq_iff_iff.2 (by rw [List.contains_iff_mem, List.contains_iff_mem, hmem] :
      reserved.contains (names.intern (candidate stem n)).1 = true ↔
        ss.contains (candidate stem n) = true)]
    split
    · exact ih h'
    · rfl

end Search

/-- The names of temporaries as they are in a table, and the same as strings. -/
structure SpelledBy (t : TempNames Name) (names : Interner) (t' : TempNames) : Prop where
  stem : t.stem = t'.stem
  next : t.next = t'.next
  allocated : t.allocated = t'.allocated
  reserved : List.Forall₂ names.Knows t.reserved t'.reserved

section Allocate

variable {t : TempNames Name} {t' : TempNames} {names names' : Interner}

theorem SpelledBy.keeps (h : t.SpelledBy names t') (hkeeps : names.Keeps names') :
    t.SpelledBy names' t' :=
  ⟨h.stem, h.next, h.allocated, h.reserved.imp hkeeps⟩

/-- What a call does, in terms of the number `k` that it ends with. -/
theorem allocate_eq (t : TempNames Name) (names : Interner) :
    ∃ k, t.next ≤ k ∧
      (t.allocate names).2.1 = { t with
        next := k + 1
        reserved := (t.allocate names).1 :: t.reserved
        allocated := t.allocated + 1 } ∧
      (t.allocate names).2.2 = names.internAll (candidates t.stem t.next k) ∧
      (t.allocate names).2.2.Knows (t.allocate names).1 (candidate t.stem k) ∧
      ∀ ss, List.Forall₂ names.Knows t.reserved ss →
        k = firstFree t.stem ss (t.reserved.length + 1) t.next := by
  obtain ⟨htable, hname⟩ := @search_eq t.stem t.reserved (t.reserved.length + 1) t.next names
  exact ⟨_, le_search, rfl, htable, hname, fun ss h => search_number h⟩

theorem keeps_allocate (t : TempNames Name) (names : Interner) :
    names.Keeps (t.allocate names).2.2 := by
  obtain ⟨k, -, -, htable, -⟩ := t.allocate_eq names
  rw [htable]
  exact names.keeps_internAll _

/-- In a table that knows the reserved names, the name handed out is the next free one, and the
table gets the names tried on the way to it. -/
theorem SpelledBy.allocate (h : t.SpelledBy names t') :
    (t.allocate names).2.2 = names.internAll t'.tried ∧
      (t.allocate names).2.2.Knows (t.allocate names).1 t'.take.1 ∧
      (t.allocate names).2.1.SpelledBy (t.allocate names).2.2 t'.take.2 := by
  have hkeeps := t.keeps_allocate names
  obtain ⟨k, -, htemps, htable, hname, hnumber⟩ := t.allocate_eq names
  obtain rfl : k = t'.nextFree := by
    rw [hnumber _ h.reserved, nextFree, h.stem, h.next, h.reserved.length_eq]
  rw [h.stem] at hname
  refine ⟨?_, hname, ?_⟩
  · rw [htable, h.stem, h.next]
    rfl
  · rw [htemps]
    refine ⟨h.stem, rfl, congrArg (· + 1) h.allocated, ?_⟩
    exact .cons hname (h.reserved.imp hkeeps)

end Allocate

/-! ## The counter -/

/-- Every number below the next one has been tried, and its name is in the table. -/
structure Tried {ν : Type} (t : TempNames ν) (names : Interner) : Prop where
  known : ∀ k < t.next, ∃ n, names.Knows n (candidate t.stem k)
  allocated_le : t.allocated ≤ t.next

theorem Tried.allocate {t : TempNames Name} {names : Interner} (h : t.Tried names) :
    (t.allocate names).2.1.Tried (t.allocate names).2.2 := by
  have hkeeps := t.keeps_allocate names
  obtain ⟨k, hle, htemps, htable, -⟩ := t.allocate_eq names
  rw [htemps]
  refine ⟨fun j hj => ?_, Nat.succ_le_succ (Nat.le_trans h.allocated_le hle)⟩
  by_cases hlt : j < t.next
  · obtain ⟨n, hn⟩ := h.known j hlt
    exact ⟨n, hkeeps n _ hn⟩
  · -- The names from the next number on are those tried just now.
    rw [htable]
    exact names.exists_knows_internAll (mem_candidates (Nat.not_lt.1 hlt) (Nat.le_of_lt_succ hj))

/-- The counter is at most the number of names in the table. -/
theorem Tried.next_le {ν : Type} {t : TempNames ν} {names : Interner} (h : t.Tried names) :
    t.next ≤ names.size := by
  choose! name hname using h.known
  have hlt : ∀ k < t.next, (name k).index < names.size := fun k hk =>
    (Array.getElem?_eq_some_iff.1 (hname k hk)).1
  have hinj : Set.InjOn (fun k => (name k).index) (Finset.range t.next) := by
    intro k hk m hm hkm
    have h₁ := hname k (Finset.mem_range.1 hk)
    have h₂ := hname m (Finset.mem_range.1 hm)
    simp only [Interner.Knows] at h₁ h₂ hkm
    rw [hkm, h₂] at h₁
    exact candidate_injective t.stem (Option.some.inj h₁).symm
  have hcard := Finset.card_le_card_of_injOn (t := Finset.range names.size) _
    (fun k hk => Finset.mem_coe.2 (Finset.mem_range.2 (hlt k (Finset.mem_range.1 hk)))) hinj
  simpa using hcard

end TempNames

/-- There are tables of any size. -/
theorem Interner.exists_le_size (k : Nat) : ∃ t : Interner, k ≤ t.size := by
  let numerals := ({} : Interner).internAll ((List.range k).map (TempNames.candidate ""))
  let temps : TempNames := { stem := "", next := k, reserved := [] }
  have htried : temps.Tried numerals := by
    refine ⟨fun i hi => Interner.exists_knows_internAll _ ?_, Nat.zero_le k⟩
    exact List.mem_map_of_mem (List.mem_range.2 hi)
  exact ⟨numerals, htried.next_le⟩

end TupleAssign
