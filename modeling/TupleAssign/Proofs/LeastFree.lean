import Mathlib.Data.Nat.Nth
import TupleAssign.Proofs.Numbering
/-!
# Temporaries take the least free numbers

A call for a temporary goes through the numbers from the next one on until it comes to one whose name
is not reserved. It is a loop without a bound (`TempNames.Loop`), and it ends because different
numbers have different names and only finitely many names are reserved.

A name that was handed out is reserved from then on, but its number has been passed: for the numbers
still to come, nothing has changed since the first call (`Reached`). So the calls go through the free
numbers in order, and the `k`-th of them gets the `k`-th free number.
-/

namespace TupleAssign

/-! ## Entering strings -/

namespace Interner

/-- Of distinct strings, those that are new go to the end of the table, in order. -/
theorem strings_internAll (t : Interner) {ss : List String} (h : ss.Nodup) :
    (t.internAll ss).strings.toList = t.strings.toList ++ ss.filter (· ∉ t.strings) := by
  induction ss generalizing t with
  | nil => simp [internAll]
  | cons s ss ih =>
    obtain ⟨hs, hss⟩ := List.nodup_cons.1 h
    have hrest : ss.filter (· ∉ (t.intern s).2.strings) = ss.filter (· ∉ t.strings) := by
      refine List.filter_congr fun x hx => ?_
      have hne : x ≠ s := fun he => hs (he ▸ hx)
      simp [mem_intern, hne]
    rw [internAll, List.foldl_cons, ← internAll, ih _ hss, hrest, strings_intern]
    by_cases hmem : s ∈ t.strings <;> simp [hmem]

end Interner

namespace TempNames

section Search

variable {stem : String} {reserved : List String} {t : TempNames}

theorem mem_of_lt_firstFree {tries n k : Nat} (hn : n ≤ k)
    (hk : k < firstFree stem reserved tries n) : candidate stem k ∈ reserved := by
  induction tries generalizing n with
  | zero => exact absurd hk (Nat.not_lt.2 hn)
  | succ tries ih =>
    rw [firstFree] at hk
    split at hk
    · next htaken =>
      rcases Nat.eq_or_lt_of_le hn with rfl | hlt
      · exact List.contains_iff_mem.1 htaken
      · exact ih hlt hk
    · exact absurd hk (Nat.not_lt.2 hn)

theorem le_nextFree (t : TempNames) : t.next ≤ t.nextFree := le_firstFree _ _ _ _

end Search

/-! ## The loop -/

/-- The name of the next number, which is entered in the table. -/
def nextName (t : TempNames Name) (names : Interner) : Name × Interner :=
  names.intern (candidate t.stem t.next)

/-- The next number is passed over. -/
def pass (t : TempNames Name) : TempNames Name := { t with next := t.next + 1 }

/-- The name of the next number is handed out. -/
def grant (t : TempNames Name) (name : Name) : TempNames Name :=
  { t with
    next := t.next + 1
    reserved := name :: t.reserved
    allocated := t.allocated + 1 }

/-- A call as the loop that it is, with the numbers that it goes through: the name of the next number
is entered in the table, and if it is reserved, the loop goes on with the number after it. -/
inductive Loop :
    TempNames Name → Interner → List Nat → Name × TempNames Name × Interner → Prop
  | stop {t : TempNames Name} {names : Interner} (free : (t.nextName names).1 ∉ t.reserved) :
    Loop t names [t.next]
      ((t.nextName names).1, t.grant (t.nextName names).1, (t.nextName names).2)
  | again {t : TempNames Name} {names : Interner} {tried : List Nat}
      {r : Name × TempNames Name × Interner} (taken : (t.nextName names).1 ∈ t.reserved)
      (rest : Loop t.pass (t.nextName names).2 tried r) : Loop t names (t.next :: tried) r

/-- A search that comes to a free name has gone through the loop. -/
theorem loop_search (t : TempNames Name) (names : Interner) (tries : Nat) {name : Name} {k : Nat}
    {names' : Interner} (hfree : name ∉ t.reserved)
    (h : search t.stem t.reserved tries t.next names = (name, k, names')) :
    Loop t names (List.range' t.next (k + 1 - t.next))
      (name, { t with next := k + 1, reserved := name :: t.reserved, allocated := t.allocated + 1 },
        names') := by
  have hstop : (t.nextName names).1 ∉ t.reserved → Loop t names (List.range' t.next 1)
      ((t.nextName names).1, t.grant (t.nextName names).1, (t.nextName names).2) := .stop
  induction tries generalizing t names with
  | zero =>
    cases h
    rw [Nat.add_sub_cancel_left]
    exact hstop hfree
  | succ tries ih =>
    unfold search at h
    dsimp only at h
    split at h
    · next htaken =>
      have hle : t.next < k := by
        have hsearch := @le_search t.stem t.reserved tries (t.next + 1) (t.nextName names).2
        rwa [nextName, h] at hsearch
      have hlen : k + 1 - t.next = k + 1 - t.pass.next + 1 := by
        change _ = k + 1 - (t.next + 1) + 1
        omega
      rw [hlen, List.range'_succ]
      exact .again (List.contains_iff_mem.1 htaken) (ih t.pass _ hfree h .stop)
    · next htaken =>
      cases h
      rw [Nat.add_sub_cancel_left]
      exact hstop hfree

/-! ## Calls -/

/-- What a call starts from. -/
structure Call where
  temps : TempNames Name
  names : Interner

namespace Call

def answer (c : Call) : Name × TempNames Name × Interner := c.temps.allocate c.names

/-- The numbers that a call tries, in order. -/
def numbers (c : Call) : List Nat :=
  List.range' c.temps.next (c.answer.2.1.next - c.temps.next)

variable {c : Call} {t : TempNames}

theorem next_lt_answer (c : Call) : c.temps.next < c.answer.2.1.next := by
  obtain ⟨k, hle, htemps, -⟩ := c.temps.allocate_eq c.names
  rw [answer, htemps]
  exact Nat.lt_succ_of_le hle

theorem mem_numbers {n : Nat} : n ∈ c.numbers ↔ c.temps.next ≤ n ∧ n < c.answer.2.1.next := by
  have hlt := c.next_lt_answer
  rw [numbers, List.mem_range'_1]
  omega

/-- Every call ends: the name that it comes to is not reserved. -/
theorem loop_answer (h : c.temps.SpelledBy c.names t) :
    Loop c.temps c.names c.numbers c.answer := by
  obtain ⟨-, hname, -⟩ := h.allocate
  have hkeeps := c.temps.keeps_allocate c.names
  have hfree : c.answer.1 ∉ c.temps.reserved :=
    fun hmem => t.take_not_mem ((mem_iff_of_knows (h.reserved.imp hkeeps) hname).1 hmem)
  rcases hsearch : search c.temps.stem c.temps.reserved (c.temps.reserved.length + 1) c.temps.next
    c.names with ⟨name, k, names'⟩
  have hanswer : c.answer = (name, { c.temps with
      next := k + 1
      reserved := name :: c.temps.reserved
      allocated := c.temps.allocated + 1 }, names') := by
    rw [answer, allocate, hsearch]
  rw [numbers, hanswer]
  rw [hanswer] at hfree
  exact loop_search c.temps c.names _ hfree hsearch

/-- What a call enters in the table are the names that it tries. -/
theorem strings_answer (h : c.temps.SpelledBy c.names t) :
    c.answer.2.2.strings.toList = c.names.strings.toList ++
      (c.numbers.map (candidate c.temps.stem)).filter (· ∉ c.names.strings) := by
  obtain ⟨htable, -, htemps⟩ := h.allocate
  have htried : c.numbers.map (candidate c.temps.stem) = t.tried := by
    have hnext : c.answer.2.1.next = _ := htemps.next
    rw [numbers, hnext, h.stem, h.next]
    rfl
  have hnodup : t.tried.Nodup := List.Nodup.map (candidate_injective t.stem) (List.nodup_range' ..)
  rw [answer, htable, htried, Interner.strings_internAll c.names hnodup]

end Call

/-! ## Calls in a row -/

/-- After `k` calls, `k` free numbers have been passed, and the names of the numbers to come are
reserved if they were at the start. -/
structure Reached (stem : String) (reserved : List String) (k : Nat) (t : TempNames) : Prop where
  stem_eq : t.stem = stem
  allocated_eq : t.allocated = k
  reserved_iff : ∀ n, t.next ≤ n → (candidate stem n ∈ t.reserved ↔ candidate stem n ∈ reserved)
  count_eq : Nat.count (fun n => candidate stem n ∉ reserved) t.next = k

theorem reached_start (stem : String) (reserved : List String) :
    Reached stem reserved 0 { stem, reserved } :=
  ⟨rfl, rfl, fun _ _ => Iff.rfl, Nat.count_zero _⟩

namespace Reached

variable {stem : String} {reserved : List String} {t : TempNames} {k : Nat}

theorem nextFree_not_mem (h : Reached stem reserved k t) : candidate stem t.nextFree ∉ reserved := by
  rw [← h.reserved_iff _ t.le_nextFree, ← h.stem_eq]
  exact t.nextFree_not_mem

/-- No free number is passed on the way to the next one. -/
theorem count_nextFree (h : Reached stem reserved k t) :
    Nat.count (fun n => candidate stem n ∉ reserved) t.nextFree = k := by
  obtain ⟨d, hd⟩ := Nat.exists_eq_add_of_le t.le_nextFree
  have hnone : ∀ j < d, ¬ candidate stem (t.next + j) ∉ reserved := by
    intro j hj hfree
    rw [← h.reserved_iff _ (Nat.le_add_right _ _), ← h.stem_eq] at hfree
    exact hfree (mem_of_lt_firstFree (Nat.le_add_right _ _) (by rw [← nextFree]; omega))
  rw [hd, Nat.count_add, h.count_eq, Nat.count_of_forall_not hnone, Nat.add_zero]

/-- The next number to be handed out is the `k`-th free one. -/
theorem nextFree_eq_nth (h : Reached stem reserved k t) :
    t.nextFree = Nat.nth (fun n => candidate stem n ∉ reserved) k := by
  rw [← h.count_nextFree, Nat.nth_count h.nextFree_not_mem]

theorem take (h : Reached stem reserved k t) : Reached stem reserved (k + 1) t.take.2 where
  stem_eq := h.stem_eq
  allocated_eq := congrArg (· + 1) h.allocated_eq
  reserved_iff n hn := by
    -- The name handed out is that of a number that has been passed.
    have hne : candidate stem n ≠ candidate t.stem t.nextFree := by
      rw [h.stem_eq]
      exact fun he => Nat.ne_of_gt hn (candidate_injective stem he)
    change candidate stem n ∈ candidate t.stem t.nextFree :: t.reserved ↔ _
    rw [List.mem_cons, or_iff_right hne]
    exact h.reserved_iff n (Nat.le_trans t.le_nextFree (Nat.le_of_succ_le hn))
  count_eq := by
    change Nat.count _ (t.nextFree + 1) = k + 1
    rw [Nat.count_succ, h.count_nextFree, if_pos h.nextFree_not_mem]

end Reached

/-- Calls in a row. Before each one, others may enter strings in the table. -/
def calls (t : TempNames Name) (names : Interner) : List (List String) → List Call
  | [] => []
  | entered :: rest =>
    let c : Call := ⟨t, names.internAll entered⟩
    c :: calls c.answer.2.1 c.answer.2.2 rest

theorem length_calls (t : TempNames Name) (names : Interner) (entered : List (List String)) :
    (t.calls names entered).length = entered.length := by
  induction entered generalizing t names with
  | nil => rfl
  | cons ss entered ih => rw [calls, List.length_cons, ih, List.length_cons]

theorem Reached.calls {stem : String} {reserved : List String} {k : Nat} {t : TempNames Name}
    {t' : TempNames} {names : Interner} (h : Reached stem reserved k t')
    (hspelled : t.SpelledBy names t') (entered : List (List String)) {j : Nat} {c : Call}
    (hc : (t.calls names entered)[j]? = some c) :
    ∃ t'', c.temps.SpelledBy c.names t'' ∧ Reached stem reserved (k + j) t'' := by
  induction entered generalizing t t' names k j with
  | nil => cases hc
  | cons ss entered ih =>
    rw [TempNames.calls] at hc
    have hentered := hspelled.keeps (names.keeps_internAll ss)
    cases j with
    | zero =>
      cases hc
      exact ⟨t', hentered, h⟩
    | succ j =>
      rw [Nat.add_comm j, ← Nat.add_assoc]
      exact ih h.take hentered.allocate.2.2 hc

/-- The numbers tried in the course of the calls go up. -/
theorem pairwise_numbers (t : TempNames Name) (names : Interner) (entered : List (List String)) :
    ((t.calls names entered).flatMap Call.numbers).Pairwise (· < ·) ∧
      ∀ n ∈ (t.calls names entered).flatMap Call.numbers, t.next ≤ n := by
  induction entered generalizing t names with
  | nil => simp [calls]
  | cons ss entered ih =>
    rw [calls, List.flatMap_cons]
    -- The call that follows starts behind the number that was handed out.
    let c : Call := ⟨t, names.internAll ss⟩
    obtain ⟨hrest, hlow⟩ := ih c.answer.2.1 c.answer.2.2
    constructor
    · refine List.pairwise_append.2 ⟨List.pairwise_lt_range' .., hrest, ?_⟩
      intro m hm n hn
      exact Nat.lt_of_lt_of_le (Call.mem_numbers.1 hm).2 (hlow n hn)
    · intro n hn
      rcases List.mem_append.1 hn with hn | hn
      · exact (Call.mem_numbers.1 hn).1
      · exact Nat.le_trans (Nat.le_of_lt c.next_lt_answer) (hlow n hn)

theorem infinite_free (stem : String) (reserved : List String) :
    {n | candidate stem n ∉ reserved}.Infinite := by
  have htaken : {n | candidate stem n ∈ reserved}.Finite :=
    (List.finite_toSet reserved).preimage (candidate_injective stem).injOn
  exact htaken.infinite_compl

/-- The names handed out by calls in a row, from the first one on, are those of the free numbers in
order. Names are reserved as entries of the table. -/
theorem calls_least_free (stem : String) (reserved : List String) (names : Interner)
    (entered : List (List String)) :
    let free := fun n : Nat => stem ++ toString n ∉ reserved
    let start := names.internEach reserved
    let cs := calls { stem, reserved := start.1 } start.2 entered
    {n | free n}.Infinite ∧ cs.length = entered.length ∧
    -- No number is tried twice, in one call or in several.
    (cs.flatMap Call.numbers).Pairwise (· < ·) ∧
    ∀ k c, cs[k]? = some c → ∃ name temps names',
      c.answer = (name, temps, names') ∧
      -- The call ends, after it has tried these numbers.
      Loop c.temps c.names c.numbers (name, temps, names') ∧
      names'.lookup name = stem ++ toString (Nat.nth free k) ∧
      c.temps.allocated = k ∧ temps.allocated = k + 1 ∧
      -- The table gets the names tried, unless it has them.
      names'.strings.toList = c.names.strings.toList ++
        (c.numbers.map fun n => stem ++ toString n).filter (· ∉ c.names.strings) := by
  intro free start cs
  refine ⟨infinite_free stem reserved, length_calls _ _ _, (pairwise_numbers _ _ _).1, ?_⟩
  intro k c hc
  have hstart : SpelledBy { stem, reserved := start.1 } start.2 { stem, reserved } := by
    rw [show start.2 = _ from names.snd_internEach reserved]
    exact ⟨rfl, rfl, rfl, names.knows_internEach reserved⟩
  obtain ⟨t, hspelled, hreached⟩ := (reached_start stem reserved).calls hstart entered hc
  rw [Nat.zero_add] at hreached
  obtain ⟨-, hname, htemps⟩ := hspelled.allocate
  refine ⟨_, _, _, rfl, Call.loop_answer hspelled, ?_, hspelled.allocated.trans hreached.allocated_eq,
    htemps.allocated.trans hreached.take.allocated_eq, ?_⟩
  · have hlookup : _ = candidate t.stem t.nextFree := hname.reads
    rw [hreached.stem_eq, hreached.nextFree_eq_nth] at hlookup
    exact hlookup
  · have hstrings := Call.strings_answer hspelled
    rw [hspelled.stem, hreached.stem_eq] at hstrings
    exact hstrings

/-- Two names are reserved, and one that is not has been entered by others: it is handed out all the
same. -/
theorem calls_least_free_entered :
    let free := fun n : Nat => "$tuple" ++ toString n ∉ ["$tuple0", "$tuple2"]
    let start := ({} : Interner).internEach ["$tuple0", "$tuple2"]
    let cs := calls { stem := "$tuple", reserved := start.1 } start.2 [[], ["$tuple4"], []]
    cs.map (fun c => c.answer.2.2.lookup c.answer.1) = ["$tuple1", "$tuple3", "$tuple4"] ∧
      cs.flatMap Call.numbers = [0, 1, 2, 3, 4] ∧ Nat.nth free 2 = 4 := by
  intro free start cs
  have hnames : cs.map (fun c => c.answer.2.2.lookup c.answer.1) =
    ["$tuple1", "$tuple3", "$tuple4"] := by decide +kernel
  obtain ⟨-, hlength, -, h⟩ := calls_least_free "$tuple" ["$tuple0", "$tuple2"] {} [[], ["$tuple4"], []]
  have hc := List.getElem?_eq_getElem (show 2 < cs.length by rw [hlength]; decide)
  obtain ⟨name, temps, names', hanswer, -, hlookup, -⟩ := h 2 _ hc
  have hthird := congrArg (·[2]?) hnames
  simp only [List.getElem?_map, hc, Option.map_some, hanswer, hlookup] at hthird
  refine ⟨hnames, by decide +kernel, candidate_injective "$tuple" ?_⟩
  exact (Option.some.inj hthird).trans (by decide +kernel)

end TempNames

end TupleAssign
